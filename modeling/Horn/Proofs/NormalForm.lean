import Horn.Clause

/-!
List normal form.  A list is written in one way: its tail is no list and follows at least one item.
Two normal terms are then equal exactly when they denote the same list, and a list can be taken
apart at any length that both sides reach.
-/

namespace Horn
namespace Term

/-- Induction over a term with a hypothesis for each of its immediate parts. -/
@[elab_as_elim]
theorem induct {motive : Term → Prop} (const : ∀ c, motive (.const c))
    (var : ∀ v, motive (.var v)) (placeholder : ∀ p, motive (.placeholder p))
    (compound : ∀ f args, (∀ t ∈ args, motive t) → motive (.compound f args))
    (list : ∀ items tail, (∀ t ∈ items, motive t) → (∀ t, tail = some t → motive t) →
      motive (.list items tail)) : ∀ t, motive t
  | .const c => const c
  | .var v => var v
  | .placeholder p => placeholder p
  | .compound f args => compound f args fun t _ => induct const var placeholder compound list t
  | .list items none =>
    list items none (fun t _ => induct const var placeholder compound list t) nofun
  | .list items (some u) =>
    list items (some u) (fun t _ => induct const var placeholder compound list t)
      fun t h => Option.some.inj h ▸ induct const var placeholder compound list u
decreasing_by
  all_goals simp only [Term.compound.sizeOf_spec, Term.list.sizeOf_spec, Option.some.sizeOf_spec]
  · have := List.sizeOf_lt_of_mem ‹t ∈ args›
    omega
  · have := List.sizeOf_lt_of_mem ‹t ∈ items›
    omega
  · have := List.sizeOf_lt_of_mem ‹t ∈ items›
    omega
  · omega

mutual
/-- No list in the term has a list as its tail, and none has a tail without items. -/
def isNormal : Term → Bool
  | .compound _ args => allNormal args
  | .list items tail => allNormal items && tailNormal items tail
  | _ => true

def allNormal : List Term → Bool
  | [] => true
  | t :: rest => isNormal t && allNormal rest

def tailNormal (items : List Term) : Option Term → Bool
  | none => true
  | some t => !items.isEmpty && t.asList.isNone && isNormal t
end

theorem allNormal_iff {ts : List Term} : allNormal ts = true ↔ ∀ t ∈ ts, t.isNormal = true := by
  induction ts with
  | nil => simp [allNormal]
  | cons t ts ih => simp [allNormal, ih]

theorem isNormal_list {items : List Term} {tail : Option Term} :
    (Term.list items tail).isNormal = true ↔ (∀ t ∈ items, t.isNormal = true) ∧
      ∀ t, tail = some t → items ≠ [] ∧ t.asList = none ∧ t.isNormal = true := by
  rw [isNormal, Bool.and_eq_true, allNormal_iff]
  cases tail <;> simp [tailNormal, and_assoc]

theorem isNormal_items {items : List Term} {tail : Option Term}
    (h : (Term.list items tail).isNormal = true) {t : Term} (ht : t ∈ items) :
    t.isNormal = true :=
  (isNormal_list.1 h).1 t ht

theorem isNormal_tail {items : List Term} {t : Term}
    (h : (Term.list items (some t)).isNormal = true) : t.isNormal = true :=
  ((isNormal_list.1 h).2 t rfl).2.2

theorem isNormal_args {f : String} {args : List Term} (h : (Term.compound f args).isNormal = true)
    {t : Term} (ht : t ∈ args) : t.isNormal = true := by
  rw [isNormal, allNormal_iff] at h
  exact h t ht

theorem isNormal_emptyList : emptyList.isNormal = true := by decide

/-! ## Taking lists apart -/

/-- A closed list ends in the empty list. -/
theorem listOf_none (items : List Term) : listOf items none = listOf items (some emptyList) := by
  simp [emptyList, listOf]

theorem listOf_getD (items : List Term) (tail : Option Term) :
    listOf items tail = listOf items (some (tail.getD emptyList)) := by
  cases tail with
  | none => exact listOf_none items
  | some t => rfl

theorem listOf_append (xs ys : List Term) (tail : Option Term) :
    listOf (xs ++ ys) tail = listOf xs (some (listOf ys tail)) := by
  fun_induction listOf ys tail with
  | case1 ys => simp [listOf]
  | case2 ys rest tail ih =>
    rw [listOf, List.append_assoc]
    exact ih
  | case3 ys t _ h =>
    have hys : ys = [] := by simpa using h
    rw [hys, List.append_nil]
  | case4 ys t hlist h => rw [listOf]

theorem listOf_nil {t : Term} (h : t.isNormal = true) : listOf [] (some t) = t := by
  cases t with
  | list items tail =>
    rw [listOf, List.nil_append]
    cases tail with
    | none => rw [listOf]
    | some u =>
      obtain ⟨hne, hlist, -⟩ := (isNormal_list.1 h).2 u rfl
      cases u <;> simp_all [listOf, asList]
  | _ => simp [listOf]

/-- A tail that is no list stays where it is. -/
theorem listOf_of_not_list {items : List Term} {t : Term} (hne : items ≠ [])
    (h : t.asList = none) : listOf items (some t) = .list items (some t) := by
  cases t <;> simp_all [listOf, asList]

theorem listOf_self {items : List Term} {tail : Option Term}
    (h : (Term.list items tail).isNormal = true) : listOf items tail = .list items tail := by
  cases tail with
  | none => rw [listOf]
  | some t =>
    obtain ⟨hne, hlist, -⟩ := (isNormal_list.1 h).2 t rfl
    exact listOf_of_not_list hne hlist

/-- A normal tail that is a list is spliced in at once. -/
theorem listOf_some_list {items rest : List Term} {tail : Option Term}
    (h : (Term.list rest tail).isNormal = true) :
    listOf items (some (.list rest tail)) = .list (items ++ rest) tail := by
  rw [listOf]
  cases tail with
  | none => rw [listOf]
  | some t =>
    obtain ⟨hne, hlist, -⟩ := (isNormal_list.1 h).2 t rfl
    exact listOf_of_not_list (by simp [hne]) hlist

theorem isNormal_listOf {items : List Term} {tail : Option Term}
    (hitems : ∀ t ∈ items, t.isNormal = true) (htail : ∀ t, tail = some t → t.isNormal = true) :
    (listOf items tail).isNormal = true := by
  cases tail with
  | none =>
    rw [listOf, isNormal_list]
    exact ⟨hitems, by simp⟩
  | some t =>
    have ht := htail t rfl
    cases hlist : t.asList with
    | none =>
      by_cases hne : items = []
      · rw [hne, listOf_nil ht]
        exact ht
      · rw [listOf_of_not_list hne hlist, isNormal_list]
        exact ⟨hitems, fun u hu => Option.some.inj hu ▸ ⟨hne, hlist, ht⟩⟩
    | some parts =>
      obtain ⟨rest, tail⟩ := parts
      obtain rfl : t = .list rest tail := by cases t <;> simp_all [asList]
      rw [listOf_some_list ht, isNormal_list]
      obtain ⟨hrest, htl⟩ := isNormal_list.1 ht
      refine ⟨fun u hu => ?_, fun u hu => ?_⟩
      · rcases List.mem_append.1 hu with h | h
        · exact hitems u h
        · exact hrest u h
      · obtain ⟨hne, hrest⟩ := htl u hu
        exact ⟨by simp [hne], hrest⟩

/-- Lists with as many items in front of their tails are equal item by item and in the tails. -/
theorem listOf_inj {xs ys : List Term} {s t : Term} (hlen : xs.length = ys.length)
    (hs : s.isNormal = true) (ht : t.isNormal = true) :
    listOf xs (some s) = listOf ys (some t) ↔ xs = ys ∧ s = t := by
  refine ⟨fun h => ?_, fun ⟨hxs, hst⟩ => hxs ▸ hst ▸ rfl⟩
  by_cases hnil : xs = []
  · have hys : ys = [] := List.eq_nil_of_length_eq_zero (by rw [← hlen, hnil]; rfl)
    rw [hnil, hys, listOf_nil hs, listOf_nil ht] at h
    exact ⟨by rw [hnil, hys], h⟩
  · have hys : ys ≠ [] := by
      rintro rfl
      exact hnil (List.eq_nil_of_length_eq_zero hlen)
    cases hsl : s.asList with
    | none =>
      rw [listOf_of_not_list hnil hsl] at h
      cases htl : t.asList with
      | none =>
        rw [listOf_of_not_list hys htl] at h
        simpa using h
      | some parts =>
        obtain ⟨rest, tail⟩ := parts
        obtain rfl : t = .list rest tail := by cases t <;> simp_all [asList]
        rw [listOf_some_list ht, list.injEq] at h
        -- the tail cannot make up for the items, and a list without items has none
        have hrest : rest = [] := by
          have := congrArg List.length h.1
          rw [List.length_append] at this
          exact List.eq_nil_of_length_eq_zero (by omega)
        exact absurd hrest ((isNormal_list.1 ht).2 s h.2.symm).1
    | some parts =>
      obtain ⟨rest, tail⟩ := parts
      obtain rfl : s = .list rest tail := by cases s <;> simp_all [asList]
      rw [listOf_some_list hs] at h
      cases htl : t.asList with
      | none =>
        rw [listOf_of_not_list hys htl, list.injEq] at h
        have hrest : rest = [] := by
          have := congrArg List.length h.1
          rw [List.length_append] at this
          exact List.eq_nil_of_length_eq_zero (by omega)
        exact absurd hrest ((isNormal_list.1 hs).2 t h.2).1
      | some parts =>
        obtain ⟨rest', tail'⟩ := parts
        obtain rfl : t = .list rest' tail' := by cases t <;> simp_all [asList]
        rw [listOf_some_list ht, list.injEq] at h
        obtain ⟨hxs, hrest⟩ := List.append_inj h.1 hlen
        exact ⟨hxs, by rw [hrest, h.2]⟩

/-- A list with an item is a list with an item. -/
theorem listOf_ne_emptyList {items : List Term} (hne : items ≠ []) (tail : Option Term) :
    listOf items tail ≠ emptyList := by
  fun_induction listOf items tail with
  | case1 items => simpa [emptyList] using hne
  | case2 items rest tail ih => exact ih (by simp [hne])
  | case3 items t _ h => exact absurd (by simpa using h) hne
  | case4 items t _ h => simp [emptyList]

theorem asList_listOf {items : List Term} {tail : Option Term}
    (h : ∀ t, tail = some t → items ≠ []) : (listOf items tail).asList.isSome = true := by
  fun_induction listOf items tail with
  | case1 items => rfl
  | case2 items rest tail ih => exact ih fun t _ => by simp [h _ rfl]
  | case3 items t _ hnil => exact absurd (by simpa using hnil) (h t rfl)
  | case4 items t _ hnil => rfl

end Term

/-- Every term in a form is in list normal form. -/
def Normal {α : Type} [HasTerms α] (x : α) : Prop :=
  ∀ t ∈ HasTerms.subterms x, t.isNormal = true

instance {α : Type} [HasTerms α] (x : α) : Decidable (Normal x) :=
  inferInstanceAs (Decidable (∀ t ∈ HasTerms.subterms x, t.isNormal = true))

namespace Term

theorem self_mem_subterms (t : Term) : t ∈ t.subterms := by
  cases t <;> simp [subterms]

theorem mem_subtermsAll {u : Term} {ts : List Term} :
    u ∈ subtermsAll ts ↔ ∃ t ∈ ts, u ∈ t.subterms := by
  induction ts with
  | nil => simp [subtermsAll]
  | cons t ts ih => simp [subtermsAll, ih]

/-- Below a normal term there are only normal terms. -/
theorem isNormal_of_mem_subterms {t u : Term} (ht : t.isNormal = true) (hu : u ∈ t.subterms) :
    u.isNormal = true := by
  induction t using Term.induct with
  | compound f args ih =>
    rw [subterms, List.mem_cons, mem_subtermsAll] at hu
    rcases hu with rfl | ⟨s, hs, hu⟩
    · exact ht
    · exact ih s hs (isNormal_args ht hs) hu
  | list items tail ihitems ihtail =>
    rw [subterms, List.mem_cons, List.mem_append, mem_subtermsAll] at hu
    rcases hu with rfl | ⟨s, hs, hu⟩ | hu
    · exact ht
    · exact ihitems s hs (isNormal_items ht hs) hu
    · cases tail with
      | none => simp [subtermsTail] at hu
      | some s => exact ihtail s rfl (isNormal_tail ht) hu
  | _ =>
    obtain rfl : u = _ := by simpa [subterms] using hu
    exact ht

theorem normal_iff {t : Term} : Normal t ↔ t.isNormal = true :=
  ⟨fun h => h t t.self_mem_subterms, fun h _ hu => isNormal_of_mem_subterms h hu⟩

end Term

theorem Predicate.isNormal_args {p : Predicate} (h : Normal p) {t : Term} (ht : t ∈ p.args) :
    t.isNormal = true :=
  h t (List.mem_flatMap.2 ⟨t, ht, t.self_mem_subterms⟩)

end Horn
