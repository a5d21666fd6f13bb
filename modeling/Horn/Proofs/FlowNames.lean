import Horn.Proofs.Heights
import Horn.Proofs.OnePassNames

/-!
Generic names and the flow of variables.  The names of a bottom clause are put into the clause and into
its links, and the depths are found again from the new links.  Names that keep the variables apart make
the same derivations possible before and after, so they move depths and estimates without changing them.
-/

namespace Horn

/-- The link with its variables mapped. -/
def Link.map (f : Var → Var) (l : Link) : Link := ⟨l.inputs.map f, l.outputs.map f⟩

/-- The variables that a link takes or provides. -/
def Link.vars (l : Link) : List Var := l.inputs ++ l.outputs

/-- Where a map can be undone on the variables of a link, it can be undone on the link. -/
theorem Link.map_map {f g : Var → Var} {D : Set Var} {l : Link} (hg : Set.LeftInvOn g f D)
    (hl : ∀ v ∈ l.vars, v ∈ D) : (l.map f).map g = l := by
  have hundo {vs : List Var} (hvs : ∀ v ∈ vs, v ∈ D) : (vs.map f).map g = vs := by
    rw [List.map_map]
    exact (List.map_congr_left fun v hv => hg (hvs v hv)).trans (List.map_id vs)
  exact congrArg₂ Link.mk (hundo fun v hv => hl v (List.mem_append_left _ hv))
    (hundo fun v hv => hl v (List.mem_append_right _ hv))

/-! ## Depths of mapped links -/

namespace Depths

variable {f : Var → Var} {D : Set Var} {head : Link} {links : List Link} {v w : Var} {d : Nat}

/-- What has a depth has an image with none that is greater: a provider of the variable becomes one of
the image.  Where the map takes two variables to one, the image can have a smaller depth. -/
theorem exists_depth_le_map (f : Var → Var) (h : (ofLinks head links)[v]? = some d) :
    ∃ e ≤ d, (ofLinks (head.map f) (links.map (Link.map f)))[f v]? = some e := by
  induction d using Nat.strong_induction_on generalizing v with
  | _ d ih =>
    rcases exists_provider h with hv | ⟨l, hl, hv, hinputs⟩
    · exact ⟨0, Nat.zero_le d, depth_of_mem_inputs (List.mem_map_of_mem hv)⟩
    cases d with
    | zero => exact ⟨0, Nat.le_refl 0, depth_of_mem_inputs (List.mem_map_of_mem (depth_eq_zero_iff.1 h))⟩
    | succ d =>
      refine exists_depth_output (List.mem_map_of_mem hl) (List.mem_map_of_mem hv) fun u hu => ?_
      obtain ⟨w, hw, rfl⟩ := List.mem_map.1 hu
      obtain ⟨e, he, hdepth⟩ := hinputs w hw
      obtain ⟨e', he', hdepth'⟩ := ih e he hdepth
      exact ⟨e', by omega, hdepth'⟩

/-- A map that keeps the variables apart gives every image the depth of its original. -/
theorem depth_map (hf : Set.InjOn f D) (hhead : ∀ u ∈ head.vars, u ∈ D)
    (hlinks : ∀ l ∈ links, ∀ u ∈ l.vars, u ∈ D) (hv : v ∈ D) :
    (ofLinks (head.map f) (links.map (Link.map f)))[f v]? = (ofLinks head links)[v]? := by
  let g := Function.invFunOn f D
  have hg : Set.LeftInvOn g f D := hf.leftInvOn_invFunOn
  have hhead' : (head.map f).map g = head := Link.map_map hg hhead
  have hlinks' : (links.map (Link.map f)).map (Link.map g) = links := by
    rw [List.map_map]
    exact (List.map_congr_left fun l hl => Link.map_map hg (hlinks l hl)).trans (List.map_id links)
  have hback {e : Nat} (h : (ofLinks (head.map f) (links.map (Link.map f)))[f v]? = some e) :
      ∃ d ≤ e, (ofLinks head links)[v]? = some d := by
    have hdepth := exists_depth_le_map g h
    rwa [hhead', hlinks', hg hv] at hdepth
  cases h : (ofLinks head links)[v]? with
  | none =>
    refine Option.eq_none_iff_forall_ne_some.2 fun e he => ?_
    obtain ⟨d, -, hd⟩ := hback he
    cases h.symm.trans hd
  | some d =>
    obtain ⟨e, he, hdepth⟩ := exists_depth_le_map f h
    obtain ⟨d', hd', hd⟩ := hback hdepth
    obtain rfl : d = d' := Option.some.inj (h.symm.trans hd)
    rwa [Nat.le_antisymm he hd'] at hdepth

/-- Only variables that links take or provide have a depth. -/
theorem exists_link_of_depth (h : (ofLinks head links)[v]? = some d) :
    ∃ l ∈ head :: links, v ∈ l.vars := by
  rcases exists_provider h with hv | ⟨l, hl, hv, -⟩
  · exact ⟨head, List.mem_cons_self, List.mem_append_left _ hv⟩
  · exact ⟨l, List.mem_cons_of_mem _ hl, List.mem_append_right _ hv⟩

end Depths

/-! ## Estimates of mapped links -/

namespace BottomClause

variable {b b' : BottomClause} {f : Var → Var} {D : Set Var}

/-- Every variable of a link occurs in the clause. -/
def FlowsWithin (b : BottomClause) : Prop :=
  ∀ l ∈ b.head :: b.links, ∀ v ∈ l.vars, v ∈ «variables» b.clause

/-- The second flow is the image of the first under a map that keeps its variables apart. -/
structure MapsFlow (f : Var → Var) (D : Set Var) (b b' : BottomClause) : Prop where
  apart : Set.InjOn f D
  within : ∀ l ∈ b.head :: b.links, ∀ v ∈ l.vars, v ∈ D
  head : b'.head = b.head.map f
  links : b'.links = b.links.map (Link.map f)

namespace MapsFlow

theorem depth_eq (h : MapsFlow f D b b') {v : Var} (hv : v ∈ D) : b'.depths[f v]? = b.depths[v]? := by
  rw [depths, depths, h.head, h.links]
  obtain ⟨hhead, hlinks⟩ := List.forall_mem_cons.1 h.within
  exact Depths.depth_map h.apart hhead hlinks hv

theorem depth_eq_none (h : MapsFlow f D b b') {w : Var} (hw : w ∉ f '' D) : b'.depths[w]? = none := by
  refine Option.eq_none_iff_forall_ne_some.2 fun d hd => hw ?_
  obtain ⟨l, hl, hwl⟩ := Depths.exists_link_of_depth hd
  rw [h.head, h.links, ← List.map_cons] at hl
  obtain ⟨l₀, hl₀, rfl⟩ := List.mem_map.1 hl
  rw [Link.vars, Link.map, ← List.map_append] at hwl
  obtain ⟨v, hv, rfl⟩ := List.mem_map.1 hwl
  exact ⟨v, h.within l₀ hl₀ v hv, rfl⟩

theorem chosenLinks_eq (h : MapsFlow f D b b') (chosen : List Nat) :
    b'.chosenLinks chosen = (b.chosenLinks chosen).map (Link.map f) := by
  simp only [chosenLinks, h.links, List.getElem?_map, List.map_filterMap]

/-- What the head and the chosen atoms take and provide. -/
theorem mem_of_chosen (h : MapsFlow f D b b') (chosen : List Nat) {l : Link}
    (hl : l ∈ b.head :: b.chosenLinks chosen) {v : Var} (hv : v ∈ l.vars) : v ∈ D := by
  rcases List.mem_cons.1 hl with rfl | hl
  · exact h.within _ List.mem_cons_self v hv
  · obtain ⟨k, -, hk⟩ := List.mem_filterMap.1 hl
    exact h.within l (List.mem_cons_of_mem _ (List.mem_of_getElem? hk)) v hv

/-- The variables that a choice takes and those that it has, and their images. -/
theorem unresolved_eq (h : MapsFlow f D b b') (chosen : List Nat) :
    (∀ v ∈ b.unresolved chosen, v ∈ D) ∧ b'.unresolved chosen = (b.unresolved chosen).map f := by
  let available := b.head.inputs ++ (b.chosenLinks chosen).flatMap Link.outputs
  let taken := b.head.outputs ++ (b.chosenLinks chosen).flatMap Link.inputs
  have havailable : ∀ v ∈ available, v ∈ D := by
    intro v hv
    rcases List.mem_append.1 hv with hv | hv
    · exact h.mem_of_chosen chosen List.mem_cons_self (List.mem_append_left _ hv)
    · obtain ⟨l, hl, hv⟩ := List.mem_flatMap.1 hv
      exact h.mem_of_chosen chosen (List.mem_cons_of_mem _ hl) (List.mem_append_right _ hv)
  have htaken : ∀ v ∈ taken, v ∈ D := by
    intro v hv
    rcases List.mem_append.1 hv with hv | hv
    · exact h.mem_of_chosen chosen List.mem_cons_self (List.mem_append_right _ hv)
    · obtain ⟨l, hl, hv⟩ := List.mem_flatMap.1 hv
      exact h.mem_of_chosen chosen (List.mem_cons_of_mem _ hl) (List.mem_append_left _ hv)
  have hmapped : b'.unresolved chosen =
      (taken.map f).filter fun w => !(available.map f).contains w := by
    simp only [unresolved, h.chosenLinks_eq, h.head, available, taken, List.map_append,
      List.flatMap_map, List.map_flatMap, Link.map]
  refine ⟨fun v hv => htaken v (List.mem_filter.1 hv).1, ?_⟩
  rw [hmapped, List.filter_map]
  refine congrArg (List.map f) (List.filter_congr fun v hv => congrArg not ?_)
  rw [Bool.eq_iff_iff, List.contains_iff_mem, List.contains_iff_mem, List.mem_map]
  refine ⟨?_, fun hmem => ⟨v, hmem, rfl⟩⟩
  rintro ⟨u, hu, huv⟩
  rwa [← h.apart (havailable u hu) (htaken v hv) huv]

/-- A choice needs the images of what it needed, and the least depth among them is the same. -/
theorem remainingDepth_eq (h : MapsFlow f D b b') (chosen : List Nat) :
    b'.remainingDepth b'.depths chosen = b.remainingDepth b.depths chosen := by
  obtain ⟨hneeded, hunresolved⟩ := h.unresolved_eq chosen
  have hdepths : ((b.unresolved chosen).map f).filterMap (fun v => b'.depths[v]?) =
      (b.unresolved chosen).filterMap fun v => b.depths[v]? := by
    rw [List.filterMap_map]
    exact List.filterMap_congr fun v hv => h.depth_eq (hneeded v hv)
  rw [remainingDepth, remainingDepth, hunresolved]
  cases hcases : b.unresolved chosen with
  | nil => rfl
  | cons v vs =>
    rw [hcases] at hdepths
    show max 1 ((((v :: vs).map f).filterMap fun v => b'.depths[v]?).min?.getD 1) = _
    rw [hdepths]

end MapsFlow

/-! ## Generic names -/

/-- Generic names map the flow one to one: within the clause every variable has a name of its own. -/
theorem FlowsWithin.mapsFlow (h : b.FlowsWithin) :
    MapsFlow (genericRenaming («variables» b.clause)).image { v | v ∈ «variables» b.clause } b
      b.withGenericNames :=
  ⟨injOn_genericRenaming _, h, rfl, rfl⟩

/-- A bottom clause whose links speak of its clause keeps its flow under generic names.  Its clause is
what one naming pass makes of it; the variables are mapped one to one to their names, in the clause and
in the links alike; a name has the depth of its variable and nothing else has one; and every choice of
atoms gets the estimate that it got. -/
theorem withGenericNames_flow (b : BottomClause) (hnormal : Normal b.clause) (hflow : b.FlowsWithin) :
    (b.withGenericNames.clause = (b.clause.nameVars []).1 ∧
      b.withGenericNames.clause = Horn.withGenericNames b.clause) ∧
    (∃ f : Var → Var, Set.InjOn f { v | v ∈ «variables» b.clause } ∧
      (∀ i v, («variables» b.clause)[i]? = some v → f v = Var.named (genericName i)) ∧
      b.withGenericNames.clause = relabel f b.clause ∧
      b.withGenericNames.head = b.head.map f ∧
      b.withGenericNames.links = b.links.map (Link.map f) ∧
      (∀ v ∈ «variables» b.clause, b.withGenericNames.depths[f v]? = b.depths[v]?) ∧
      ∀ w, w ∉ f '' { v | v ∈ «variables» b.clause } → b.withGenericNames.depths[w]? = none) ∧
    ∀ chosen, b.withGenericNames.remainingDepth b.withGenericNames.depths chosen =
      b.remainingDepth b.depths chosen := by
  have hmaps := hflow.mapsFlow
  refine ⟨⟨(b.clause.inOrder Renaming.naming).fst_eq.symm, rfl⟩, ⟨_, hmaps.apart, ?_, ?_, rfl, rfl, ?_, ?_⟩, ?_⟩
  · exact fun i v => image_genericRenaming (nodup_variables b.clause)
  · exact withGenericNames_eq_relabel hnormal
  · exact fun v hv => hmaps.depth_eq hv
  · exact fun w hw => hmaps.depth_eq_none hw
  · exact hmaps.remainingDepth_eq

end BottomClause

namespace Sample

/-- The bottom clause `reach(x, y) :- edge(x, z), edge(z, y)`, whose atoms each take their first variable
and give the second. -/
def detour (x y z : String) : BottomClause :=
  let link (v w : String) : Link := ⟨[.named v], [.named w]⟩
  let atom (name v w : String) : Atom := .predicate ⟨name, [.var (.named v), .var (.named w)]⟩
  ⟨.rule (atom "reach" x y) [atom "edge" x z, atom "edge" z y], link x y, [link x z, link z y]⟩

/-- All three names change places: `B` becomes `A`, `C` becomes `B` and `A` becomes `C`.  The variable in
the middle stays at depth one, and with the second atom alone one more is missing before and after. -/
theorem withGenericNames_detour :
    let b := detour "B" "C" "A"
    b.withGenericNames.clause = (detour "A" "B" "C").clause ∧
    b.withGenericNames.clause = (b.clause.nameVars []).1 ∧
    b.withGenericNames.remainingDepth b.withGenericNames.depths [1] = 1 := by
  intro b
  have hflow : ∀ l ∈ b.head :: b.links, ∀ v ∈ l.vars, v ∈ «variables» b.clause := by decide +kernel
  obtain ⟨⟨hpass, -⟩, -, hestimate⟩ := b.withGenericNames_flow (by decide +kernel) hflow
  refine ⟨by decide +kernel, hpass, ?_⟩
  rw [hestimate]
  decide +kernel

end Sample
end Horn
