import Horn.Proofs.Flattening

/-!
Layers as lists of clauses.  Whatever is added to a layered store and removed from it, it answers as a
list of lists would of which the shared ones are never written: an addition is for the first list, and a
removal deletes from every list that is not shared.  What the layers hold together, count and offer for a
call can be read off these lists one after the other.
-/

namespace Horn

/-- A change to the lists of clauses of several layers. -/
def Change.toLayers (ls : List (Ownership × List Clause)) :
    Change → Change.Answer × List (Ownership × List Clause)
  | .add c =>
    match ls with
    | [] => (.error .readOnlyStore, [])
    | (o, cs) :: rest =>
      if o = .shared then (.error .readOnlyStore, (o, cs) :: rest)
      else
        let (answer, ds) := Change.toList cs (.add c)
        (answer, (o, ds) :: rest)
  | .remove c =>
    (.ok (decide (∃ l ∈ ls, l.1 ≠ .shared ∧ c ∈ l.2)),
      ls.map fun l => if l.1 = .shared then l else (l.1, l.2.erase c))

namespace Store

variable {s : Store} {c : Clause}

theorem Reachable.change (h : s.Reachable) (change : Change) : (s.change change).2.Reachable := by
  cases change with
  | remove c => exact h.remove c
  | add c =>
    rw [Store.change]
    cases hadd : s.add c with
    | error why =>
      rw [tryAdd_of_error hadd]
      exact h
    | ok r =>
      rw [tryAdd_of_ok hadd]
      exact h.add hadd

/-- Which clauses are refused does not depend on the store. -/
theorem exists_add_eq_error : (∃ why, s.add c = .error why) ↔ c.refusal?.isSome := by
  refine ⟨fun ⟨why, h⟩ => ?_, fun h => ?_⟩
  · rw [Option.isSome_iff_ne_none]
    intro hnone
    obtain ⟨⟨head, hhead⟩, hplain⟩ := refusal?_eq_none.1 hnone
    have h := congrArg Prod.fst (tryAdd_of_error h)
    rw [tryAdd, hhead] at h
    dsimp only at h
    rw [if_neg (by simp [hplain])] at h
    split at h <;> cases h
  · obtain ⟨why, hwhy⟩ := Option.isSome_iff_exists.1 h
    exact ⟨why, add_of_refusal hwhy⟩

/-- A change that is refused changes nothing. -/
theorem change_of_error {change : Change} {why : Failure} (h : (s.change change).1 = .error why) :
    (s.change change).2 = s := by
  cases change with
  | remove c => cases h
  | add c =>
    rw [Store.change] at h ⊢
    cases hadd : s.add c with
    | error why => rw [tryAdd_of_error hadd]
    | ok r =>
      rw [tryAdd_of_ok hadd] at h
      cases h

end Store

namespace Layer

/-- What no change may touch: how the layer holds its store, and a store that only may be read. -/
def lasting (l : Layer) : Ownership × Option Store :=
  (l.ownership, if l.isWritable then none else some l.store)

theorem isWritable_iff {l : Layer} : l.isWritable = true ↔ l.ownership ≠ .shared := bne_iff_ne

theorem isWritable_eq_false {l : Layer} : l.isWritable = false ↔ l.ownership = .shared :=
  bne_eq_false_iff_eq

theorem lasting_of_writable {l : Layer} (h : l.isWritable = true) (s : Store) :
    lasting { l with store := s } = l.lasting := by
  have h' : isWritable { l with store := s } = true := h
  rw [lasting, lasting, if_pos h, if_pos h']

end Layer

namespace LayeredStore

/-- The clauses of each layer. -/
def contents (s : LayeredStore) : List (Ownership × List Clause) :=
  s.layers.map fun l => (l.ownership, l.store.clauses)

def change (s : LayeredStore) : Change → Change.Answer × LayeredStore
  | .add c => s.tryAdd c
  | .remove c =>
    let (had, t) := s.remove c
    (.ok had, t)

variable {s : LayeredStore}

/-! ## One change -/

/-- An addition is refused when there is no first layer to be written, and is otherwise an addition to
the store of the first layer. -/
theorem change_add_cases (s : LayeredStore) (c : Clause) :
    (∀ l ∈ s.layers.head?, l.ownership = .shared) ∧ s.change (.add c) = (.error .readOnlyStore, s) ∨
      ∃ l rest, s.layers = l :: rest ∧ l.ownership ≠ .shared ∧ s.change (.add c) =
        ((l.store.change (.add c)).1, ⟨{ l with store := (l.store.change (.add c)).2 } :: rest⟩) := by
  obtain ⟨layers⟩ := s
  cases layers with
  | nil => exact .inl ⟨nofun, rfl⟩
  | cons l rest =>
    cases hwritable : l.isWritable with
    | false =>
      refine .inl ⟨?_, by rw [change, tryAdd]; simp [hwritable]⟩
      rintro _ ⟨⟩
      exact Layer.isWritable_eq_false.1 hwritable
    | true =>
      refine .inr ⟨l, rest, rfl, fun h => ?_, ?_⟩
      · rw [Layer.isWritable_eq_false.2 h] at hwritable
        cases hwritable
      · rw [change, tryAdd, Store.change]
        simp only [hwritable, if_true]

/-- Additions leave the layers below the first one alone, and are refused when the first one is not to be
written or when the clause is refused by stores. -/
theorem change_add (s : LayeredStore) (c : Clause) :
    (s.change (.add c)).2.layers.tail = s.layers.tail ∧
      ((∃ why, (s.change (.add c)).1 = .error why) ↔
        (∀ l ∈ s.layers.head?, l.ownership = .shared) ∨ c.refusal?.isSome) ∧
      ∀ why, (s.change (.add c)).1 = .error why → (s.change (.add c)).2 = s := by
  obtain ⟨hfirst, h⟩ | ⟨l, rest, hlayers, hwritable, h⟩ := s.change_add_cases c
  · rw [h]
    exact ⟨rfl, iff_of_true ⟨_, rfl⟩ (.inl hfirst), fun _ _ => rfl⟩
  · rw [h, hlayers]
    refine ⟨rfl, ?_, fun why hwhy => ?_⟩
    · have hstore : (∃ why, (l.store.change (.add c)).1 = .error why) ↔ c.refusal?.isSome := by
        rw [← Store.exists_add_eq_error (s := l.store), Store.change]
        cases hadd : l.store.add c with
        | error why => simp [Store.tryAdd_of_error hadd]
        | ok r => simp [Store.tryAdd_of_ok hadd]
      rw [hstore]
      exact (or_iff_right fun hshared => hwritable (hshared l rfl)).symm
    · rw [Store.change_of_error hwhy]
      exact congrArg LayeredStore.mk hlayers.symm

theorem lasting_change (s : LayeredStore) (change : Change) :
    (s.change change).2.layers.map Layer.lasting = s.layers.map Layer.lasting := by
  cases change with
  | add c =>
    obtain ⟨-, h⟩ | ⟨l, rest, hlayers, hwritable, h⟩ := s.change_add_cases c
    · rw [h]
    · rw [h, hlayers]
      exact congrArg (· :: _) (Layer.lasting_of_writable (Layer.isWritable_iff.2 hwritable) _)
  | remove c =>
    show (s.layers.map fun l => _).map Layer.lasting = _
    rw [List.map_map]
    refine List.map_congr_left fun l _ => ?_
    rw [Function.comp_apply]
    split
    · rename_i hwritable
      exact Layer.lasting_of_writable hwritable _
    · rfl

theorem reachable_change (hs : ∀ l ∈ s.layers, l.store.Reachable) (change : Change) :
    ∀ l ∈ (s.change change).2.layers, l.store.Reachable := by
  cases change with
  | add c =>
    obtain ⟨-, h⟩ | ⟨l, rest, hlayers, -, h⟩ := s.change_add_cases c
    · rwa [h]
    · rw [hlayers] at hs
      obtain ⟨hl, hrest⟩ := List.forall_mem_cons.1 hs
      rw [h]
      exact List.forall_mem_cons.2 ⟨hl.change (.add c), hrest⟩
  | remove c =>
    refine List.forall_mem_map.2 fun l hl => ?_
    split
    · exact (hs l hl).remove c
    · exact hs l hl

/-- A change to the layers is a change to the lists of their clauses. -/
theorem toLayers_contents (hs : ∀ l ∈ s.layers, l.store.Reachable) (change : Change) :
    change.toLayers s.contents = ((s.change change).1, (s.change change).2.contents) := by
  cases change with
  | add c =>
    obtain ⟨hfirst, h⟩ | ⟨l, rest, hlayers, hwritable, h⟩ := s.change_add_cases c
    · rw [h]
      obtain ⟨layers⟩ := s
      cases layers with
      | nil => rfl
      | cons l rest => exact if_pos (hfirst l rfl)
    · have hlist := ((hs l (hlayers ▸ List.mem_cons_self)).isFiled.change (.add c)).2
      rw [h, contents, hlayers, List.map_cons, Change.toLayers, if_neg hwritable, hlist]
      rfl
  | remove c =>
    have hanswer : (s.remove c).1 = decide (∃ l ∈ s.contents, l.1 ≠ .shared ∧ c ∈ l.2) := by
      rw [Bool.eq_iff_iff, decide_eq_true_iff, remove]
      simp only [contents, List.mem_map, exists_exists_and_eq_and, List.any_eq_true,
        Bool.and_eq_true, Layer.isWritable_iff]
      exact exists_congr fun l => and_congr_right fun hl =>
        and_congr_right fun _ => (hs l hl).isFiled.contains_iff
    refine congrArg₂ Prod.mk (congrArg Except.ok hanswer.symm) ?_
    show (s.layers.map fun l => _).map _ = (s.layers.map fun l => _).map _
    rw [List.map_map, List.map_map]
    refine List.map_congr_left fun l hl => ?_
    dsimp only [Function.comp_apply]
    cases hwritable : l.isWritable with
    | false => rw [if_pos (Layer.isWritable_eq_false.1 hwritable), if_neg (by simp)]
    | true =>
      rw [if_neg (Layer.isWritable_iff.1 hwritable), if_pos rfl, (hs l hl).isFiled.clauses_remove]

/-- What is left of a removed clause are the shared layers that have it. -/
theorem contains_remove (hs : ∀ l ∈ s.layers, l.store.Reachable) (c : Clause) :
    (s.remove c).2.contains c = true ↔
      ∃ l ∈ s.layers, l.ownership = .shared ∧ l.store.contains c = true := by
  rw [contains, remove, List.any_map, List.any_eq_true]
  refine exists_congr fun l => and_congr_right fun hl => ?_
  rw [Function.comp_apply]
  cases hwritable : l.isWritable with
  | false =>
    rw [if_neg (by simp)]
    exact (and_iff_right (Layer.isWritable_eq_false.1 hwritable)).symm
  | true =>
    rw [if_pos rfl]
    refine iff_of_false (fun hleft => ?_) fun h => Layer.isWritable_iff.1 hwritable h.1
    have hfiled := (hs l hl).isFiled
    rw [(hfiled.remove c).contains_iff, hfiled.clauses_remove] at hleft
    exact hfiled.nodup_clauses.not_mem_erase hleft

/-! ## Any number of changes -/

/-- Stores that changes can build, with the clauses of each layer. -/
structure Lists (s : LayeredStore) (ls : List (Ownership × List Clause)) : Prop where
  reachable : ∀ l ∈ s.layers, l.store.Reachable
  contents : s.contents = ls

theorem Lists.change {ls : List (Ownership × List Clause)} (h : s.Lists ls) (change : Change) :
    (s.change change).1 = (change.toLayers ls).1 ∧
      (s.change change).2.Lists (change.toLayers ls).2 := by
  rw [← h.contents, toLayers_contents h.reachable change]
  exact ⟨rfl, reachable_change h.reachable change, rfl⟩

theorem lasting_run (s : LayeredStore) (changes : List Change) :
    (Change.run change s changes).2.layers.map Layer.lasting = s.layers.map Layer.lasting := by
  induction changes generalizing s with
  | nil => rfl
  | cons change more ih => exact (ih _).trans (s.lasting_change change)

theorem contains_iff (hs : s.IsFiled) {c : Clause} : s.contains c = true ↔ c ∈ s.clauses := by
  rw [contains, List.any_eq_true, clauses, mem_union]
  exact exists_congr fun l => and_congr_right fun hl => (hs l hl).contains_iff

theorem candidates_eq_fits (hs : ∀ l ∈ s.layers, l.store.Reachable) {q : Predicate}
    (hq : hasPlaceholders q = false) :
    s.candidates q = s.clauses.filter fun c => c.headPredicate.any (·.fits q) := by
  rw [IsFiled.candidates_eq (fun l hl => (hs l hl).isFiled) q]
  refine List.filter_congr fun c hc => ?_
  obtain ⟨⟨p, hp⟩, hplain⟩ := Store.refusal?_eq_none.1 (not_refused hs c hc)
  rw [hp]
  exact Predicate.agrees_eq_fits (Clause.hasPlaceholders_head hplain hp) hq

/-- Whatever is added and removed, the answers and the clauses of the layers are those of the lists.  The
clauses of all layers are those of the lists one after the other without the later repetitions, which also
gives the size, the contents and the candidates.  A removal writes no shared layer and leaves a clause where
only these have it.  An addition leaves the layers below the first one alone; it is refused, without any
change, when there is no first layer, when that one is shared, and when the clause is refused by stores. -/
theorem run_is_ordered_union (s : LayeredStore) (hs : ∀ l ∈ s.layers, l.store.Reachable)
    (changes : List Change) :
    let answers := (Change.run change s changes).1
    let t := (Change.run change s changes).2
    let lists := (Change.run Change.toLayers s.contents changes).2
    answers = (Change.run Change.toLayers s.contents changes).1 ∧ t.contents = lists ∧
      t.layers.map Layer.lasting = s.layers.map Layer.lasting ∧
      t.clauses = (lists.flatMap Prod.snd).eraseDups ∧ t.size = t.clauses.length ∧
      (∀ c, t.contains c = true ↔ c ∈ t.clauses) ∧
      (∀ q, t.candidates q = t.clauses.filter fun c => c.headPredicate.any (·.agrees q)) ∧
      (∀ q, hasPlaceholders q = false →
        t.candidates q = t.clauses.filter fun c => c.headPredicate.any (·.fits q)) ∧
      (∀ c, (t.remove c).2.layers.map Layer.lasting = t.layers.map Layer.lasting ∧
        ((t.remove c).2.contains c = true ↔
          ∃ l ∈ t.layers, l.ownership = .shared ∧ l.store.contains c = true)) ∧
      ∀ c, (t.change (.add c)).2.layers.tail = t.layers.tail ∧
        (∀ why, (t.change (.add c)).1 = .error why → (t.change (.add c)).2 = t) ∧
        ∀ k : Store, (∃ why, (t.change (.add c)).1 = .error why) ↔ t.layers = [] ∨
          (∃ l, t.layers.head? = some l ∧ l.ownership = .shared) ∨ ∃ why, k.add c = .error why := by
  intro answers t lists
  obtain ⟨hanswers, ht⟩ := Change.run_simulates (R := Lists) (fun s ls change h => h.change change)
    changes ⟨hs, rfl⟩
  have hfiled : t.IsFiled := fun l hl => (ht.reachable l hl).isFiled
  have hclauses : t.clauses = (lists.flatMap Prod.snd).eraseDups := by
    have hlists : lists = t.contents := ht.contents.symm
    rw [hlists, contents, List.flatMap_map]
    rfl
  refine ⟨hanswers, ht.contents, lasting_run s changes, hclauses, rfl, fun c => contains_iff hfiled,
    hfiled.candidates_eq, fun q hq => candidates_eq_fits ht.reachable hq, fun c => ?_, fun c => ?_⟩
  · exact ⟨t.lasting_change (.remove c), contains_remove ht.reachable c⟩
  · obtain ⟨htail, hfails, hsame⟩ := t.change_add c
    refine ⟨htail, hsame, fun k => ?_⟩
    have hfirst : (∀ l ∈ t.layers.head?, l.ownership = .shared) ↔
        t.layers = [] ∨ ∃ l, t.layers.head? = some l ∧ l.ownership = .shared := by
      cases t.layers <;> simp
    rw [hfails, hfirst, or_assoc, Store.exists_add_eq_error]

/-- The fact `p(a)` is in all three layers.  A removal leaves it in the shared one, and `p(b)`, which is
added to the first layer, is then in two. -/
theorem run_is_ordered_union_removed :
    let a := Clause.fact (.predicate ⟨"p", [.symbol "a"]⟩)
    let b := Clause.fact (.predicate ⟨"p", [.symbol "b"]⟩)
    let changes : List Change := [.remove a, .add b, .remove a]
    ∃ s : LayeredStore, (∀ l ∈ s.layers, l.store.Reachable) ∧
      s.contents = [(.owned, [a]), (.borrowed, [b, a]), (.shared, [a])] ∧
      (Change.run change s changes).1 = [.ok true, .ok true, .ok false] ∧
      (Change.run change s changes).2.clauses = [b, a] := by
  intro a b changes
  obtain ⟨one, hone, hones⟩ : ∃ s, Store.Reachable s ∧ s.clauses = [a] :=
    Store.exists_clauses (by decide) (by decide)
  obtain ⟨two, htwo, htwos⟩ : ∃ s, Store.Reachable s ∧ s.clauses = [b, a] :=
    Store.exists_clauses (by decide) (by decide)
  let s : LayeredStore := ofLayers [(.owned, one), (.borrowed, two), (.shared, one)]
  have hs : ∀ l ∈ s.layers, l.store.Reachable :=
    List.forall_mem_cons.2 ⟨hone, List.forall_mem_cons.2 ⟨htwo, List.forall_mem_singleton.2 hone⟩⟩
  have hcontents : s.contents = [(.owned, [a]), (.borrowed, [b, a]), (.shared, [a])] := by
    show [(Ownership.owned, one.clauses), (.borrowed, two.clauses), (.shared, one.clauses)] = _
    rw [hones, htwos]
  have hlists : Change.run Change.toLayers s.contents changes =
      ([.ok true, .ok true, .ok false], [(.owned, [b]), (.borrowed, [b]), (.shared, [a])]) := by
    rw [hcontents]
    rfl
  obtain ⟨hanswers, -, -, hclauses, -⟩ := run_is_ordered_union s hs changes
  rw [hlists] at hanswers hclauses
  exact ⟨s, hs, hcontents, hanswers, hclauses⟩

end LayeredStore
end Horn
