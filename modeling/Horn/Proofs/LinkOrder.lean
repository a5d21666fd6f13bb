import Horn.Proofs.Estimates

/-!
The order of the atoms of a bottom clause.  An atom is recorded in the round that finds it, and a
round is called with terms that the head or the rounds before it gave.  So what an atom takes is an
input of the head or an output of an atom before it, also when the atom that gave a term first is
left out as a repetition of an earlier one.  Reading the atoms in their order then shows that
every variable can be reached from the inputs of the head.
-/

namespace Horn

namespace Depths

variable {head l : Link} {links : List Link} {v : Var} {k : Nat}

/-- What the links of a list take when each takes inputs of the head and outputs of links before
it. -/
def Ordered (head : Link) (links : List Link) : Prop :=
  ∀ (k : Nat) (l : Link), links[k]? = some l → ∀ v ∈ l.inputs,
    v ∈ head.inputs ∨ ∃ j < k, ∃ l' : Link, links[j]? = some l' ∧ v ∈ l'.outputs

/-- A link in such a list is reached after the links before it. -/
theorem Ordered.depth_outputs (h : Ordered head links) (hl : links[k]? = some l)
    (hv : v ∈ l.outputs) : ∃ d ≤ k + 1, (ofLinks head links)[v]? = some d := by
  induction k using Nat.strong_induction_on generalizing l v with
  | _ k ih =>
    refine exists_depth_output (List.mem_of_getElem? hl) hv fun u hu => ?_
    rcases h k l hl u hu with hhead | ⟨j, hj, l', hl', hu⟩
    · exact ⟨0, Nat.zero_le k, depth_of_mem_inputs hhead⟩
    · obtain ⟨d, hd, hdepth⟩ := ih j hj hl' hu
      exact ⟨d, by omega, hdepth⟩

theorem Ordered.depth_inputs (h : Ordered head links) (hl : links[k]? = some l)
    (hv : v ∈ l.inputs) : ∃ d ≤ k, (ofLinks head links)[v]? = some d := by
  rcases h k l hl v hv with hhead | ⟨j, hj, l', hl', hv⟩
  · exact ⟨0, Nat.zero_le k, depth_of_mem_inputs hhead⟩
  · obtain ⟨d, hd, hdepth⟩ := h.depth_outputs hl' hv
    exact ⟨d, by omega, hdepth⟩

end Depths

/-- The variables of a lifted atom are those of its link. -/
theorem Finding.IsProper.mem_variables_atom {f : Finding} {name : Term → Var} (h : f.IsProper)
    {v : Var} : v ∈ «variables» (f.atom name) ↔
      v ∈ (f.link name).inputs ∨ v ∈ (f.link name).outputs := by
  have hinputs : (f.link name).inputs = f.inputs.map name := rfl
  have houtputs : (f.link name).outputs = f.outputs.map name := rfl
  rw [mem_variables_iff, h.var_mem_atom, hinputs, houtputs, List.mem_map, List.mem_map, ← exists_or]
  refine exists_congr fun t => ?_
  rw [lifts_iff, or_and_right]

namespace BottomClause

variable {b : BottomClause}

/-- The atoms differ, each has the variables of its link, and what an atom takes is an input of the
head or an output of an atom before it. -/
structure InOrder (b : BottomClause) : Prop where
  distinct : b.body.Nodup
  length : b.links.length = b.body.length
  exact : ∀ (k : Nat) (a : Atom) (l : Link), b.body[k]? = some a → b.links[k]? = some l →
    ∀ v, v ∈ «variables» a ↔ v ∈ l.inputs ∨ v ∈ l.outputs
  ordered : Depths.Ordered b.head b.links

/-- The variables of an atom of such a clause are reached with it and the atoms before it. -/
theorem InOrder.exists_depth (h : b.InOrder) {k : Nat} {a : Atom} (ha : b.body[k]? = some a)
    {v : Var} (hv : v ∈ «variables» a) : ∃ d ≤ k + 1, b.depths[v]? = some d := by
  have hk : k < b.links.length := h.length ▸ (List.getElem?_eq_some_iff.1 ha).1
  have hl : b.links[k]? = some b.links[k] := List.getElem?_eq_getElem hk
  rcases (h.exact k a _ ha hl v).1 hv with hv | hv
  · obtain ⟨d, hd, hdepth⟩ := h.ordered.depth_inputs hl hv
    exact ⟨d, Nat.le_succ_of_le hd, hdepth⟩
  · exact h.ordered.depth_outputs hl hv

theorem ComesFrom.inOrder {head : Finding} {lookup : Lookup} {options : Options}
    {modes : List Mode} {k : Composition} (h : b.ComesFrom head lookup options modes k) :
    b.InOrder := by
  have hbody : b.body = k.body.map fun f => .predicate (f.atom k.name) :=
    h.bottom ▸ rfl
  have hlinks : b.links = k.body.map fun f => f.link k.name := h.bottom ▸ rfl
  refine ⟨?_, ?_, fun i a l ha hl v => ?_, fun i l hl v hv => ?_⟩
  · have honce := h.once
    rw [List.Nodup, List.pairwise_map] at honce
    rw [hbody, List.Nodup, List.pairwise_map]
    exact honce.imp fun hne heq => hne (Atom.predicate.inj heq)
  · rw [hbody, hlinks, List.length_map, List.length_map]
  · rw [hbody, List.getElem?_map] at ha
    rw [hlinks, List.getElem?_map] at hl
    obtain ⟨f, hf, rfl⟩ := Option.map_eq_some_iff.1 ha
    obtain ⟨g, hg, rfl⟩ := Option.map_eq_some_iff.1 hl
    obtain rfl : f = g := Option.some.inj (hf.symm.trans hg)
    exact (k.proper f (List.mem_cons_of_mem _ (List.mem_of_getElem? hf))).mem_variables_atom
  · refine (h.provides hl hv).imp_right ?_
    rintro ⟨j, hj, hprovided⟩
    exact ⟨j, List.mem_range.1 hj, hprovided⟩

/-- The atoms of the bottom clause of a ground example are linked to the head in their order, so every
variable of the body has a depth. -/
theorem ofExample_inOrder {c : Clause} {modes : ModeTable} {background : LayeredStore}
    {options : Options} {p : Predicate} (hp : c.headPredicate = some p)
    (hground : isGround p = true) (hb : ofExample c modes background options = .ok b) :
    b.InOrder ∧ ∀ (k : Nat) (a : Atom), b.body[k]? = some a → ∀ v ∈ «variables» a,
      ∃ d ≤ k + 1, b.depths[v]? = some d := by
  obtain ⟨m, facts, k, -, -, -, -, hk⟩ := exists_composition hp hground hb
  exact ⟨hk.inOrder, fun i a ha v hv => hk.inOrder.exists_depth ha hv⟩

end BottomClause

/-- In `p(X) :- q(Y), e(Y, Y, X)` the second atom takes what the first provides. -/
theorem Sample.ofExample_inOrder_loop :
    (clause loopFacts).headPredicate = some head ∧ isGround head = true ∧ ∃ v w, v ≠ w ∧
      BottomClause.ofExample (clause loopFacts) loopModes ⟨[]⟩ .default = .ok (loop v w) ∧
      (loop v w).InOrder ∧
        ∀ (k : Nat) (a : Atom), (loop v w).body[k]? = some a → ∀ u ∈ «variables» a,
          ∃ d ≤ k + 1, (loop v w).depths[u]? = some d := by
  obtain ⟨v, w, hvw, hb⟩ := exists_loop
  exact ⟨rfl, rfl, v, w, hvw, hb, BottomClause.ofExample_inOrder (p := head) rfl rfl hb⟩

end Horn
