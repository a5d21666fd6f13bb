import Horn.Program.Generation
import Horn.Proofs.Findings
import Mathlib.Data.List.Forall2
import Mathlib.Data.List.Pairwise

/-!
Assignments of values to variables.  The rows of a product are built column by column, each row bound
further by every value in turn.  When the variables are distinct and the values ground no binding
fails, and the rows are all choices of one value from each column, in lexicographic order.
-/

namespace Horn

/-! ## Choices -/

/-- Every choice of one element from each list.  The element from the first list changes last. -/
def choices {α : Type} : List (List α) → List (List α)
  | [] => [[]]
  | xs :: rest => xs.flatMap fun x => (choices rest).map (x :: ·)

/-- The order of lists whose places have orders of their own: the first place where two lists differ
decides. -/
inductive LexBefore {α : Type} : List (α → α → Prop) → List α → List α → Prop where
  | here {r : α → α → Prop} {rs : List (α → α → Prop)} {x y : α} {xs ys : List α} :
    r x y → LexBefore (r :: rs) (x :: xs) (y :: ys)
  | later {r : α → α → Prop} {rs : List (α → α → Prop)} {x : α} {xs ys : List α} :
    LexBefore rs xs ys → LexBefore (r :: rs) (x :: xs) (x :: ys)

section

variable {α : Type}

theorem exists_of_forall₂ {β : Type} {r : α → β → Prop} {xs : List α} {ys : List β}
    (h : List.Forall₂ r xs ys) {x : α} (hx : x ∈ xs) : ∃ y ∈ ys, r x y := by
  induction h with
  | nil => cases hx
  | cons hhead _ ih =>
    rcases List.mem_cons.1 hx with rfl | hx
    · exact ⟨_, List.mem_cons_self, hhead⟩
    · obtain ⟨y, hy, hr⟩ := ih hx
      exact ⟨y, List.mem_cons_of_mem _ hy, hr⟩

/-- No list of distinct elements has two of them in both orders. -/
theorem not_sublist_swap {l : List α} (h : l.Nodup) {a b : α} (hab : [a, b].Sublist l) :
    ¬[b, a].Sublist l := by
  induction l with
  | nil => cases hab
  | cons x l ih =>
    obtain ⟨hx, hl⟩ := List.nodup_cons.1 h
    intro hba
    cases hab with
    | cons _ hab =>
      cases hba with
      | cons _ hba => exact ih hl hab hba
      | cons_cons _ hba => exact hx (hab.subset (by simp))
    | cons_cons _ hab =>
      have hb : b ∈ l := hab.subset (by simp)
      cases hba with
      | cons _ hba => exact hx (hba.subset (by simp))
      | cons_cons _ hba => exact hx hb

theorem mem_choices {columns : List (List α)} {xs : List α} :
    xs ∈ choices columns ↔ List.Forall₂ (· ∈ ·) xs columns := by
  induction columns generalizing xs with
  | nil => rw [choices, List.mem_singleton, List.forall₂_nil_right_iff]
  | cons column columns ih =>
    simp only [choices, List.mem_flatMap, List.mem_map, ih, List.forall₂_cons_right_iff]
    constructor
    · rintro ⟨x, hx, ys, hys, rfl⟩
      exact ⟨x, ys, hx, hys, rfl⟩
    · rintro ⟨x, ys, hx, hys, rfl⟩
      exact ⟨x, hx, ys, hys, rfl⟩

theorem LexBefore.asymm {rs : List (α → α → Prop)} (hrs : ∀ r ∈ rs, ∀ x y, r x y → ¬r y x)
    {xs ys : List α} (h : LexBefore rs xs ys) : ¬LexBefore rs ys xs := by
  induction h with
  | here hr =>
    intro h'
    cases h' with
    | here hr' => exact hrs _ List.mem_cons_self _ _ hr hr'
    | later _ => exact hrs _ List.mem_cons_self _ _ hr hr
  | later _ ih =>
    intro h'
    cases h' with
    | here hr' => exact hrs _ List.mem_cons_self _ _ hr' hr'
    | later hrest => exact ih (fun r hr => hrs r (List.mem_cons_of_mem _ hr)) hrest

/-- The choices from ordered lists are ordered. -/
theorem pairwise_choices {rs : List (α → α → Prop)} {columns : List (List α)}
    (h : List.Forall₂ (fun r xs => xs.Pairwise r) rs columns) :
    (choices columns).Pairwise (LexBefore rs) := by
  induction h with
  | nil => exact List.pairwise_singleton _ _
  | cons hcolumn _ ih =>
    rw [choices, List.pairwise_flatMap]
    refine ⟨fun x _ => List.pairwise_map.2 (ih.imp .later), hcolumn.imp fun hxy xs hxs ys hys => ?_⟩
    obtain ⟨xs, -, rfl⟩ := List.mem_map.1 hxs
    obtain ⟨ys, -, rfl⟩ := List.mem_map.1 hys
    exact .here hxy

end

/-! ## Valuations by assignments -/

theorem lookup_eq_none_of_not_mem {pairs : List (Var × Term)} {v : Var}
    (h : v ∉ pairs.map Prod.fst) : pairs.lookup v = none := by
  rw [List.lookup_eq_none_iff]
  intro e he
  rw [bne_iff_ne]
  rintro rfl
  exact h (List.mem_map_of_mem he)

namespace Valuation

/-- The valuation that gives variables their terms in normal form and leaves every other variable as
it is. -/
def choosing (vs : List Var) (ts : List Term) : Valuation where
  value v := (((vs.zip ts).lookup v).map identity.apply).getD (.var v)
  normal v := by
    cases (vs.zip ts).lookup v with
    | none => rfl
    | some t => exact Term.isNormal_apply identity t

theorem choosing_value (vs : List Var) (ts : List Term) (v : Var) : (choosing vs ts).value v =
    (((vs.zip ts).lookup v).map identity.apply).getD (.var v) := rfl

theorem choosing_of_not_mem {vs : List Var} {v : Var} (h : v ∉ vs) (ts : List Term) :
    (choosing vs ts).value v = .var v := by
  have hnone : (vs.zip ts).lookup v = none := by
    refine lookup_eq_none_of_not_mem fun hv => h ?_
    obtain ⟨e, he, rfl⟩ := List.mem_map.1 hv
    exact (List.of_mem_zip he).1
  rw [choosing_value, hnone]
  rfl

theorem map_choosing {vs : List Var} {ts : List Term} (hnodup : vs.Nodup)
    (hlength : vs.length = ts.length) : vs.map (choosing vs ts).value = ts.map identity.apply := by
  induction vs generalizing ts with
  | nil => rw [List.eq_nil_of_length_eq_zero hlength.symm, List.map_nil, List.map_nil]
  | cons v vs ih =>
    obtain ⟨t, ts, rfl⟩ := List.exists_cons_of_length_eq_add_one hlength.symm
    obtain ⟨hv, hnodup⟩ := List.nodup_cons.1 hnodup
    have hother : ∀ w ∈ vs, (choosing (v :: vs) (t :: ts)).value w = (choosing vs ts).value w := by
      intro w hw
      have hne : (w == v) = false := beq_eq_false_iff_ne.2 fun h => hv (h ▸ hw)
      rw [choosing_value, choosing_value, List.zip_cons_cons, List.lookup_cons, hne]
    rw [List.map_cons, List.map_cons, List.map_congr_left hother, ih hnodup (Nat.succ.inj hlength)]
    congr 1
    rw [choosing_value, List.zip_cons_cons, List.lookup_cons_self]
    rfl

end Valuation

/-- Two valuations that make the same of a term give its variables the same. -/
theorem Term.value_eq_of_apply_eq {θ η : Valuation} {t : Term} (h : θ.apply t = η.apply t) {v : Var}
    (hv : t.occurs v = true) : θ.value v = η.value v := by
  have hmap {ts : List Term} (hts : ts.map θ.apply = ts.map η.apply)
      (ih : ∀ t ∈ ts, θ.apply t = η.apply t → t.occurs v = true → θ.value v = η.value v)
      (hv : occursAny v ts = true) : θ.value v = η.value v := by
    obtain ⟨t, ht, hvt⟩ := occursAny_iff.1 hv
    exact ih t ht (List.map_inj_left.1 hts t ht) hvt
  induction t using Term.induct with
  | const c => cases hv
  | placeholder p => cases hv
  | var w =>
    obtain rfl : w = v := by simpa [occurs] using hv
    exact h
  | compound f args ih =>
    have h : Term.compound f (args.map θ.apply) = .compound f (args.map η.apply) :=
      (instantiate_compound _ f args).symm.trans (h.trans (instantiate_compound _ f args))
    exact hmap (Term.compound.inj h).2 ih hv
  | list items tail ihitems ihtail =>
    have h : listOf (items.map θ.apply) (tail.map θ.apply) =
        listOf (items.map η.apply) (tail.map η.apply) :=
      (instantiate_list _ items tail).symm.trans (h.trans (instantiate_list _ items tail))
    have hsame : items.map θ.apply = items.map η.apply ∧ tail.map θ.apply = tail.map η.apply := by
      cases tail with
      | none =>
        rw [Option.map_none, Option.map_none, listOf, listOf] at h
        exact ⟨(Term.list.inj h).1, rfl⟩
      | some t =>
        obtain ⟨hitems, ht⟩ := (listOf_inj (by rw [List.length_map, List.length_map])
          (isNormal_apply θ t) (isNormal_apply η t)).1 h
        exact ⟨hitems, congrArg some ht⟩
    rw [occurs, Bool.or_eq_true] at hv
    rcases hv with hv | hv
    · exact hmap hsame.1 ihitems hv
    · cases tail with
      | none => cases hv
      | some t => exact ihtail t rfl (Option.some.inj hsame.2) hv

theorem Predicate.value_eq_of_apply_eq {θ η : Valuation} {p : Predicate}
    (h : θ.apply p = η.apply p) {v : Var} (hv : v ∈ «variables» p) : θ.value v = η.value v := by
  have hargs : p.args.map θ.apply = p.args.map η.apply := congrArg Predicate.args h
  obtain ⟨t, ht, hvt⟩ := List.mem_flatMap.1 (mem_variables_iff.1 hv)
  exact Term.value_eq_of_apply_eq (List.map_inj_left.1 hargs t ht) ((Term.var_mem_subterms v t).1 hvt)

/-! ## Binding ground values -/

namespace Substitution

/-- The bindings are these pairs of variables and ground terms, the terms in normal form. -/
structure Binds (σ : Substitution) (pairs : List (Var × Term)) : Prop where
  values : ∀ v, σ.bindings[v]? = (pairs.lookup v).map Valuation.identity.apply
  ground : ∀ e ∈ pairs, isGround e.2 = true

theorem Binds.valueOf_eq {σ : Substitution} {vs : List Var} {ts : List Term}
    (h : σ.Binds (vs.zip ts)) : σ.valueOf = (Valuation.choosing vs ts).value := by
  funext v
  rw [valueOf, h.values v]
  rfl

theorem binds_empty : empty.Binds [] := ⟨fun v => by simp [empty], nofun⟩

/-- A ground term mentions no variable, whatever is put for variables. -/
theorem not_occurs_apply {t : Term} (h : isGround t = true) (θ : Valuation) (v : Var) :
    (θ.apply t).occurs v = false := by
  rw [Bool.eq_false_iff]
  intro hv
  obtain ⟨w, hw, -⟩ := (Term.occurs_replaceVars _ v t).1 hv
  exact isGround_iff.1 h w ((Term.var_mem_subterms w t).2 hw)

section

variable {σ : Substitution} {pairs : List (Var × Term)}

theorem Binds.not_occurs (h : σ.Binds pairs) {v : Var} {t : Term} (hv : σ.bindings[v]? = some t)
    (w : Var) : t.occurs w = false := by
  rw [h.values v, Option.map_eq_some_iff] at hv
  obtain ⟨u, hu, rfl⟩ := hv
  obtain ⟨front, back, rfl, -⟩ := List.lookup_eq_some_iff.1 hu
  exact not_occurs_apply (h.ground (v, u) (List.mem_append_right _ List.mem_cons_self)) _ w

/-- One more variable is bound to a ground term. -/
theorem Binds.bind (h : σ.Binds pairs) {v : Var} {t : Term} (hv : v ∉ pairs.map Prod.fst)
    (ht : isGround t = true) : ∃ τ, σ.bind v t = .ok τ ∧ τ.Binds (pairs ++ [(v, t)]) := by
  have hnew : pairs.lookup v = none := lookup_eq_none_of_not_mem hv
  have happly : σ.apply t = Valuation.identity.apply t :=
    (apply_eq_instantiate σ t).trans (instantiate_of_isGround ht)
  have hclosed : (σ.apply t).occurs v = false := happly ▸ not_occurs_apply ht _ v
  have hself : σ.apply t ≠ .var v := fun heq => by simp [heq, Term.occurs] at hclosed
  have hbind : σ.bind v t =
      .ok (σ.extend v (σ.apply t) (fun _ => σ.unbound_of_occurs_apply) hclosed) := by
    have hunbound : σ.bindings[v]? = none := by rw [h.values v, hnew, Option.map_none]
    unfold Substitution.bind Substitution.bindUnbound
    simp only [hunbound, if_neg hself, dif_neg (Bool.eq_false_iff.1 hclosed)]
  refine ⟨_, hbind, fun w => ?_, ?_⟩
  · have hkeep : (σ.bindings[w]?).map (replaceIn v (σ.apply t)) = σ.bindings[w]? := by
      cases hw : σ.bindings[w]? with
      | none => rfl
      | some u => rw [Option.map_some, replaceIn_of_not_occurs (h.not_occurs hw v)]
    rw [extend, Std.TreeMap.getElem?_insert, getElem?_replacedBindings, hkeep, List.lookup_append]
    by_cases hw : w = v
    · rw [hw, if_pos (by simp), hnew, List.lookup_cons_self, happly]
      rfl
    · have hne : (w == v) = false := beq_eq_false_iff_ne.2 hw
      rw [if_neg fun heq => hw (Std.LawfulEqOrd.eq_of_compare heq).symm, h.values w,
        List.lookup_cons, hne, List.lookup_nil, Option.or_none]
  · exact List.forall_mem_append.2 ⟨h.ground, List.forall_mem_singleton.2 ht⟩

theorem bindAll_cons (σ : Substitution) (v : Var) (t : Term) (pairs : List (Var × Term)) :
    σ.bindAll ((v, t) :: pairs) = σ.bind v t >>= fun τ => τ.bindAll pairs := rfl

/-- Distinct variables can be bound to ground terms one after the other. -/
theorem Binds.bindAll (h : σ.Binds pairs) {more : List (Var × Term)}
    (hnodup : ((pairs ++ more).map Prod.fst).Nodup) (hmore : ∀ e ∈ more, isGround e.2 = true) :
    ∃ τ, σ.bindAll more = .ok τ ∧ τ.Binds (pairs ++ more) := by
  induction more generalizing σ pairs with
  | nil => exact ⟨σ, rfl, by rwa [List.append_nil]⟩
  | cons e more ih =>
    obtain ⟨v, t⟩ := e
    obtain ⟨ht, hmore⟩ := List.forall_mem_cons.1 hmore
    have hv : v ∉ pairs.map Prod.fst := by
      rw [List.map_append, List.nodup_append] at hnodup
      exact fun hv => hnodup.2.2 v hv v List.mem_cons_self rfl
    obtain ⟨ρ, hbind, hρ⟩ := h.bind hv ht
    obtain ⟨τ, hrest, hτ⟩ := ih hρ (by simpa using hnodup) hmore
    refine ⟨τ, ?_, by simpa using hτ⟩
    rw [bindAll_cons, hbind]
    exact hrest

end

/-! ## Rows -/

/-- The rows are the choices of values that can be bound, in the order of the choices. -/
theorem foldl_bindEach (columns : List (Var × List Term)) (rows : List Substitution) :
    columns.foldl bindEach rows = rows.flatMap fun σ =>
      (choices (columns.map Prod.snd)).filterMap fun ts =>
        (σ.bindAll ((columns.map Prod.fst).zip ts)).toOption := by
  induction columns generalizing rows with
  | nil => exact (List.flatMap_singleton' rows).symm
  | cons column columns ih =>
    obtain ⟨v, values⟩ := column
    rw [List.foldl_cons, ih, bindEach, List.flatMap_assoc]
    refine List.flatMap_congr fun σ _ => ?_
    rw [List.filterMap_eq_flatMap_toList, List.flatMap_assoc, List.map_cons, List.map_cons, choices,
      List.filterMap_flatMap]
    refine List.flatMap_congr fun t _ => ?_
    rw [List.filterMap_map]
    cases hbind : σ.bind v t with
    | error why =>
      refine (List.filterMap_eq_nil_iff.2 fun ts _ => ?_).symm
      rw [Function.comp_apply, List.zip_cons_cons, bindAll_cons, hbind]
      rfl
    | ok τ =>
      refine (List.flatMap_singleton _ τ).trans (List.filterMap_congr fun ts _ => ?_)
      rw [Function.comp_apply, List.zip_cons_cons, bindAll_cons, hbind]
      rfl

/-- Of distinct variables and ground values the rows are all assignments. -/
theorem map_valueOf_product {columns : List (Var × List Term)}
    (hnodup : (columns.map Prod.fst).Nodup)
    (hground : ∀ column ∈ columns, ∀ t ∈ column.2, isGround t = true) :
    (product columns).map valueOf = (choices (columns.map Prod.snd)).map fun ts =>
      (Valuation.choosing (columns.map Prod.fst) ts).value := by
  rw [product, foldl_bindEach, List.flatMap_singleton, List.map_filterMap,
    List.filterMap_eq_map_iff_forall_eq_some]
  intro ts hts
  have hchosen : List.Forall₂ (· ∈ ·) ts (columns.map Prod.snd) := mem_choices.1 hts
  have hlength : (columns.map Prod.fst).length = ts.length := by
    rw [hchosen.length_eq, List.length_map, List.length_map]
  have hvalues : ∀ e ∈ (columns.map Prod.fst).zip ts, isGround e.2 = true := by
    intro e he
    obtain ⟨values, hvalues, ht⟩ := exists_of_forall₂ hchosen (List.of_mem_zip he).2
    obtain ⟨column, hcolumn, rfl⟩ := List.mem_map.1 hvalues
    exact hground column hcolumn _ ht
  have hkeys : (([] ++ (columns.map Prod.fst).zip ts).map Prod.fst).Nodup := by
    rwa [List.nil_append, List.map_fst_zip (Nat.le_of_eq hlength)]
  obtain ⟨τ, hτ, hbinds⟩ := binds_empty.bindAll hkeys hvalues
  rw [hτ]
  exact congrArg some hbinds.valueOf_eq

end Substitution
end Horn
