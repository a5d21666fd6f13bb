import Horn.Learning.Saturation
import Horn.Proofs.FrameSearch

/-!
What bottom clauses are made of.  Their atoms are the templates of modes with variables and terms of
answers in the slots, so they are predicates in list normal form.
-/

namespace Horn

/-! ## Slots -/

namespace Term

theorem reachable_openSlotsAll {ts : List Term}
    (h : ∀ t ∈ ts, ∀ s : SlotSupply, s.state.Reachable → (openSlots s t).2.state.Reachable)
    {s : SlotSupply} (hs : s.state.Reachable) : (openSlotsAll s ts).2.state.Reachable := by
  induction ts generalizing s with
  | nil => exact hs
  | cons t ts ih =>
    rw [List.forall_mem_cons] at h
    exact ih h.2 (h.1 s hs)

theorem reachable_openSlots (t : Term) {s : SlotSupply} (hs : s.state.Reachable) :
    (openSlots s t).2.state.Reachable := by
  induction t using Term.induct generalizing s with
  | const c => exact hs
  | var v => exact hs
  | placeholder p => exact .fresh _ hs
  | compound f args ih => exact reachable_openSlotsAll (fun t ht s hs => ih t ht hs) hs
  | list items tail ihitems ihtail =>
    have hitems := reachable_openSlotsAll (fun t ht s hs => ihitems t ht hs) hs
    cases tail with
    | none => exact hitems
    | some t => exact ihtail t rfl hitems

end Term

theorem Mode.reachable_instantiate (m : Mode) {σ : Substitution} (hσ : σ.Reachable) :
    (m.instantiate σ).2.Reachable :=
  Term.reachable_openSlotsAll (fun t _ _ hs => t.reachable_openSlots hs) hσ

/-! ## Lifting -/

namespace Lifting

/-- The slots are filled with terms in list normal form. -/
def IsNormal (l : Lifting) : Prop := ∀ e ∈ l.images, e.2.isNormal = true

theorem IsNormal.atom {l : Lifting} (h : l.IsNormal) (p : Predicate) : Normal (l.atom p) := by
  rw [Lifting.atom, replaceVars_eq_instantiate]
  refine Valuation.normal_apply ⟨_, fun v => ?_⟩ p
  cases hv : l.images.lookup v with
  | none => rfl
  | some t => exact h (v, t) (Substitution.mem_of_lookup_eq_some hv)

theorem IsNormal.slot {l : Lifting} (h : l.IsNormal) (noted : Sign) {s : Slot × Term}
    (hs : s.2.isNormal = true) : (l.slot noted s).IsNormal := by
  unfold Lifting.slot
  split
  rename_i v p t
  dsimp only
  split
  · exact List.forall_mem_cons.2 ⟨hs, h⟩
  · exact List.forall_mem_cons.2 ⟨rfl, h⟩

theorem isNormal_slots {noted : Sign} {names : TermNames} {found : List Term}
    {terms : List (Slot × Term)} (h : ∀ s ∈ terms, s.2.isNormal = true) :
    (slots noted names found terms).IsNormal := by
  unfold slots
  refine List.foldlRecOn terms _ nofun fun l hl s hs => hl.slot noted (h s hs)

end Lifting

/-! ## Saturation -/

namespace Saturation

theorem normal_liftHead {m : Mode} {p head : Predicate} {l : Lifting}
    (h : liftHead m p = .ok (head, l)) : Normal head := by
  unfold liftHead at h
  dsimp only at h
  split at h
  · cases h
  · rename_i σ hunify
    obtain ⟨rfl, rfl⟩ := Prod.mk.inj (Except.ok.inj h)
    have hσ : σ.Reachable := .unifyAtoms (a := .predicate _) (b := .predicate p)
      (m.reachable_instantiate (.addVariables p .empty)) hunify
    refine Lifting.IsNormal.atom (Lifting.isNormal_slots fun s hs => ?_) _
    obtain ⟨slot, -, rfl⟩ := List.mem_map.1 hs
    exact Substitution.isNormal_apply hσ.isNormal _

/-- The atoms found so far are in list normal form. -/
def IsNormal (s : Saturation) : Prop := ∀ a ∈ s.atoms, Normal a.1

section

variable {template : Template} {state : Saturation × List Term} {lookup : Lookup}

theorem IsNormal.addAnswer (h : state.1.IsNormal) {terms : List Term}
    (hterms : ∀ t ∈ terms, t.isNormal = true) : (addAnswer template state terms).1.IsNormal := by
  obtain ⟨s, produced⟩ := state
  unfold Saturation.addAnswer
  dsimp only
  split
  · have hatom : Normal ((Lifting.slots .output s.names produced
        (template.slots.zip terms)).atom template.atom) :=
      (Lifting.isNormal_slots fun e he => hterms _ (List.of_mem_zip he).2).atom _
    intro a ha
    dsimp only at ha
    split at ha
    · exact h a ha
    · rcases List.mem_append.1 ha with ha | ha
      · exact h a ha
      · rw [List.mem_singleton.1 ha]
        exact hatom
  · exact h

theorem isNormal_of_mem_answers {steps most : Nat} {scope : Substitution} (hscope : scope.Reachable)
    {inputs terms : List Term} (h : terms ∈ answers lookup steps most template scope inputs) :
    ∀ t ∈ terms, t.isNormal = true := by
  unfold answers at h
  dsimp only at h
  split at h
  · cases h
  · rename_i σ hbind
    obtain ⟨answer, hanswer, rfl⟩ := List.mem_map.1 h
    have hσ := hscope.bindAll hbind
    rw [((Goal.solutions_eq_answersFrom _ lookup steps hσ).1 (some most)).1] at hanswer
    have hreached := Goal.reachable_of_mem_answersFrom hσ hanswer
    intro t ht
    obtain ⟨slot, -, rfl⟩ := List.mem_map.1 ht
    exact Substitution.isNormal_apply hreached.isNormal _

theorem IsNormal.expand (h : state.1.IsNormal) (options : Options) (available : List Term)
    (m : Mode) : (expand lookup options available state m).1.IsNormal := by
  unfold Saturation.expand
  refine List.foldlRecOn (motive := fun state : Saturation × List Term => state.1.IsNormal) _ _ h
    fun state hstate inputs _ => ?_
  refine List.foldlRecOn (motive := fun state : Saturation × List Term => state.1.IsNormal) _ _ hstate
    fun state hstate terms hterms => ?_
  exact hstate.addAnswer (isNormal_of_mem_answers (m.reachable_instantiate .empty) hterms)

theorem IsNormal.rounds {s : Saturation} (h : s.IsNormal) (options : Options) (modes : List Mode)
    (n : Nat) (available : List Term) : (rounds lookup options modes n available s).IsNormal := by
  induction n generalizing s available with
  | zero => exact h
  | succ n ih =>
    refine ih (s := (modes.foldl (Saturation.expand lookup options available) (s, [])).1) ?_ _
    exact List.foldlRecOn (motive := fun state : Saturation × List Term => state.1.IsNormal) _ _ h
      fun state hstate m _ => IsNormal.expand hstate options available m

end
end Saturation

namespace BottomClause

section

variable {head : Predicate} {atoms : List (Predicate × Link)}

theorem normal_rule (hhead : Normal head) (hatoms : ∀ a ∈ atoms, Normal a.1) :
    Normal (Clause.rule (.predicate head) (atoms.map fun a => .predicate a.1)) := by
  intro t ht
  rw [Clause.subterms_eq] at ht
  obtain ⟨a, ha, ht⟩ := List.mem_flatMap.1 ht
  rcases List.mem_cons.1 ha with rfl | ha
  · exact hhead t ht
  · obtain ⟨b, hb, rfl⟩ := List.mem_map.1 ha
    exact hatoms b hb t ht

theorem isPlain_rule :
    (Clause.rule (.predicate head) (atoms.map fun a => .predicate a.1)).IsPlain := by
  intro a ha
  obtain ⟨b, -, rfl⟩ := List.mem_map.1 ha
  trivial

end

/-- A bottom clause is made of predicates in list normal form. -/
theorem ofExample_spec {c : Clause} {modes : ModeTable} {background : LayeredStore}
    {options : Options} {b : BottomClause} (h : ofExample c modes background options = .ok b) :
    Normal b.clause ∧ b.clause.IsPlain := by
  unfold ofExample at h
  split at h
  · cases h
  · obtain ⟨m, -, h⟩ := exists_of_bind_eq_ok h
    obtain ⟨facts, -, h⟩ := exists_of_bind_eq_ok h
    obtain ⟨⟨head, l⟩, hlift, h⟩ := exists_of_bind_eq_ok h
    obtain rfl := Except.ok.inj h
    split
    · exact ⟨Renaming.normal_apply _ _, fun a ha => Branch.isPlain_of_mem_renamed isPlain_rule ha⟩
    · refine ⟨normal_rule (Saturation.normal_liftHead hlift) ?_, isPlain_rule⟩
      exact Saturation.IsNormal.rounds (s := ⟨l.names, []⟩) nofun _ _ _ _

end BottomClause
end Horn
