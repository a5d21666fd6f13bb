import Horn.Mode
import Horn.Proofs.Freshness

/-!
Templates of modes.  Opening a mode gives each of its placeholders a variable of its own that no name
in use has, so the variables of a template are those of its slots and no two slots share one.
-/

namespace Horn

/-- What is added to a supply when placeholders are opened, the newest slot first. -/
structure SlotSupply.Opens (s : SlotSupply) (new : List Slot) (s' : SlotSupply) : Prop where
  slots : s'.slots = new ++ s.slots
  bindings : s'.state.bindings = s.state.bindings
  keeps : s.state.Keeps s'.state
  unused : ∀ x ∈ new, x.var.text ∉ s.state.names
  known : ∀ x ∈ new, x.var.text ∈ s'.state.names
  distinct : new.Pairwise fun x y => x.var ≠ y.var

namespace SlotSupply

variable {s s' s'' : SlotSupply} {new more : List Slot}

theorem Opens.refl (s : SlotSupply) : s.Opens [] s :=
  ⟨rfl, rfl, .refl s.state, nofun, nofun, .nil⟩

theorem Opens.trans (h : s.Opens new s') (h' : s'.Opens more s'') : s.Opens (more ++ new) s'' where
  slots := by rw [h'.slots, h.slots, List.append_assoc]
  bindings := h'.bindings.trans h.bindings
  keeps := h.keeps.trans h'.keeps
  unused := List.forall_mem_append.2 ⟨fun x hx hn => h'.unused x hx (h.keeps _ hn), h.unused⟩
  known := List.forall_mem_append.2 ⟨h'.known, fun x hx => h'.keeps _ (h.known x hx)⟩
  distinct := by
    refine List.pairwise_append.2 ⟨h'.distinct, h.distinct, fun x hx y hy heq => ?_⟩
    exact h'.unused x hx (heq ▸ h.known y hy)

theorem opens_take (s : SlotSupply) (p : Placeholder) : s.Opens [⟨(s.take p).1, p⟩] (s.take p).2 where
  slots := rfl
  bindings := rfl
  keeps _ hn := Substitution.mem_names_fresh.2 (.inr hn)
  unused := List.forall_mem_singleton.2 (Substitution.fresh_not_mem s.state _)
  known := List.forall_mem_singleton.2 (Substitution.mem_names_fresh.2 (.inl rfl))
  distinct := List.pairwise_singleton _ _

end SlotSupply

namespace Term

/-- An opened term has the variables that it had and those of the slots opened in it. -/
def OpensIn (s : SlotSupply) (t : Term) : Prop :=
  ∃ new, s.Opens new (openSlots s t).2 ∧
    ∀ v, (openSlots s t).1.occurs v = true ↔ t.occurs v = true ∨ ∃ x ∈ new, x.var = v

theorem opensIn_all {ts : List Term} (h : ∀ t ∈ ts, ∀ s, OpensIn s t) (s : SlotSupply) :
    ∃ new, s.Opens new (openSlotsAll s ts).2 ∧
      ∀ v, occursAny v (openSlotsAll s ts).1 = true ↔
        occursAny v ts = true ∨ ∃ x ∈ new, x.var = v := by
  induction ts generalizing s with
  | nil => exact ⟨[], .refl s, fun v => by simp [openSlotsAll, occursAny]⟩
  | cons t ts ih =>
    rw [List.forall_mem_cons] at h
    obtain ⟨new, hnew, hfirst⟩ := h.1 s
    obtain ⟨more, hmore, hrest⟩ := ih h.2 (openSlots s t).2
    refine ⟨more ++ new, hnew.trans hmore, fun v => ?_⟩
    show (occurs v (openSlots s t).1 || occursAny v (openSlotsAll _ ts).1) = true ↔ _
    rw [Bool.or_eq_true, hfirst v, hrest v]
    simp only [occursAny, Bool.or_eq_true, List.mem_append, or_and_right, exists_or]
    grind

theorem opensIn_tail {tail : Option Term} (h : ∀ t, tail = some t → ∀ s, OpensIn s t)
    (s : SlotSupply) :
    ∃ new, s.Opens new (openSlotsTail s tail).2 ∧
      ∀ v, occursTail v (openSlotsTail s tail).1 = true ↔
        occursTail v tail = true ∨ ∃ x ∈ new, x.var = v := by
  cases tail with
  | none => exact ⟨[], .refl s, fun v => by simp [openSlotsTail, occursTail]⟩
  | some t => exact h t rfl s

theorem opensIn (t : Term) (s : SlotSupply) : OpensIn s t := by
  induction t using Term.induct generalizing s with
  | const c => exact ⟨[], .refl s, fun v => by simp [openSlots]⟩
  | var w => exact ⟨[], .refl s, fun v => by simp [openSlots]⟩
  | placeholder p =>
    refine ⟨_, s.opens_take p, fun v => ?_⟩
    show (occurs v (.var (s.take p).1)) = true ↔ _
    simp [occurs]
  | compound f args ih => exact opensIn_all ih s
  | list items tail ihitems ihtail =>
    obtain ⟨new, hnew, hitems⟩ := opensIn_all ihitems s
    obtain ⟨more, hmore, htail⟩ := opensIn_tail ihtail (openSlotsAll s items).2
    refine ⟨more ++ new, hnew.trans hmore, fun v => ?_⟩
    show occurs v (listOf (openSlotsAll s items).1 (openSlotsTail _ tail).1) = true ↔ _
    rw [occurs_listOf, Bool.or_eq_true, hitems v, htail v]
    simp only [occurs, Bool.or_eq_true, List.mem_append, or_and_right, exists_or]
    grind

end Term

/-- The variables of the atom are those of the slots, one for each. -/
structure Template.IsProper (t : Template) : Prop where
  distinct : t.slots.Pairwise fun x y => x.var ≠ y.var
  occurs : ∀ v, Term.var v ∈ HasTerms.subterms t.atom ↔ ∃ x ∈ t.slots, x.var = v

theorem Predicate.var_mem_subterms {p : Predicate} {v : Var} :
    Term.var v ∈ HasTerms.subterms p ↔ Term.occursAny v p.args = true := by
  rw [Term.occursAny_iff]
  refine List.mem_flatMap.trans (exists_congr fun t => and_congr_right fun _ => ?_)
  exact Term.var_mem_subterms v t

namespace Mode

/-- A mode opened in a substitution gives a proper template and binds nothing. -/
theorem instantiate_spec (m : Mode) (σ : Substitution) :
    (m.instantiate σ).1.IsProper ∧ (m.instantiate σ).2.bindings = σ.bindings := by
  obtain ⟨new, hnew, hoccurs⟩ := Term.opensIn_all (fun t (_ : t ∈ m.atom.args) => t.opensIn) ⟨[], σ⟩
  have hslots : (m.instantiate σ).1.slots = new.reverse := by
    show (Term.openSlotsAll ⟨[], σ⟩ m.atom.args).2.slots.reverse = _
    rw [hnew.slots, List.append_nil]
  have hclosed : ∀ v, ¬ Term.occursAny v m.atom.args = true := fun v hv => by
    have hmem : v ∈ «variables» m.atom := mem_variables_iff.2 (Predicate.var_mem_subterms.2 hv)
    rw [m.closed] at hmem
    exact List.not_mem_nil hmem
  refine ⟨⟨?_, fun v => ?_⟩, hnew.bindings⟩
  · rw [hslots, List.pairwise_reverse]
    exact hnew.distinct.imp Ne.symm
  · rw [Predicate.var_mem_subterms, hslots]
    refine (hoccurs v).trans ?_
    simp [hclosed v]

end Mode
end Horn
