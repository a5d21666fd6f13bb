import Horn.Proofs.Rounds
import Mathlib.Data.List.Induction

/-!
Recorded atoms.  Once all variables are known they come from one naming of terms, and what is recorded
are the findings without those whose lifted atom was there before.  Leaving these out does not break
the flow of terms: the terms of a finding that is left out stand in the one with its atom.
-/

namespace Horn
namespace Saturation

/-- Adds a finding unless its lifted atom is there already. -/
def keep (name : Term → Var) (kept : List Finding) (f : Finding) : List Finding :=
  if kept.any fun g => g.atom name == f.atom name then kept else kept ++ [f]

/-- The findings whose atoms are recorded. -/
def kept (name : Term → Var) (fs : List Finding) : List Finding := fs.foldl (keep name) []

def lifted (name : Term → Var) (f : Finding) : Predicate × Link := (f.atom name, f.link name)

/-! ## Recording -/

/-- What recording some findings does, in terms of a naming that agrees with the variables used. -/
structure Records (s : Saturation) (fs : List Finding) (s' : Saturation) : Prop where
  keeps : s.names.Extends s'.names
  proper : s.names.IsProper → s'.names.IsProper
  named : ∀ f ∈ fs, ∀ t, f.Lifts t → ∃ v, s'.names.varOf[t]? = some v
  atoms : ∀ name before, s'.names.Follows name → s.atoms = before.map (lifted name) →
    s'.atoms = (fs.foldl (keep name) before).map (lifted name)

section

variable {s s' s'' : Saturation} {fs gs : List Finding}

theorem Records.nil (s : Saturation) : s.Records [] s :=
  ⟨.refl _, id, nofun, fun _ _ _ h => h⟩

theorem Records.append (h : s.Records fs s') (h' : s'.Records gs s'') : s.Records (fs ++ gs) s'' where
  keeps := h.keeps.trans h'.keeps
  proper := h'.proper ∘ h.proper
  named := List.forall_mem_append.2
    ⟨fun f hf t ht => (h.named f hf t ht).imp fun v hv => h'.keeps t v hv, h'.named⟩
  atoms name before hname hs := by
    rw [List.foldl_append]
    exact h'.atoms name _ hname (h.atoms name before (hname.of_extends h'.keeps) hs)

theorem records_record (s : Saturation) (f : Finding) : s.Records [f] (s.record f) := by
  have hadds := Lifting.adds_foldl_slot .output ⟨s.names, [], ⟨[], []⟩, []⟩ f.places
  refine ⟨hadds.keeps, hadds.proper, List.forall_mem_singleton.2 ?_, fun name before hname hs => ?_⟩
  · rintro t ⟨p, hp, hlift, rfl⟩
    exact hadds.named p hp hlift
  · let l := Lifting.slots .output s.names [] f.places
    have himages : l.images = f.images fun p => p.image name :=
      (hadds.images name hname).trans (List.append_nil _)
    have hlink : l.link = f.link name := hadds.link name hname
    have hatom : l.atom f.template.atom = f.atom name := by
      rw [Lifting.atom, himages]
      rfl
    have hthere : (s.atoms.any fun a => a.1 == f.atom name) =
        before.any fun g => g.atom name == f.atom name := by
      rw [hs, List.any_map]
      rfl
    show (if s.atoms.any fun a => a.1 == l.atom f.template.atom then s.atoms
      else s.atoms ++ [(l.atom f.template.atom, l.link)]) = (keep name before f).map (lifted name)
    rw [hatom, hlink, hthere, hs, keep]
    split
    · rfl
    · rw [List.map_append]
      rfl

theorem records_foldl_record (s : Saturation) (fs : List Finding) :
    s.Records fs (fs.foldl record s) := by
  induction fs generalizing s with
  | nil => exact .nil s
  | cons f fs ih => exact (records_record s f).append (ih _)

end

/-! ## What is kept -/

section

variable {name : Term → Var} {fs before : List Finding} {f g : Finding}

theorem mem_of_mem_foldl_keep (h : g ∈ fs.foldl (keep name) before) : g ∈ before ∨ g ∈ fs := by
  induction fs generalizing before with
  | nil => exact .inl h
  | cons f fs ih =>
    rcases ih h with h | h
    · unfold keep at h
      grind
    · exact .inr (List.mem_cons_of_mem _ h)

theorem mem_of_mem_kept (h : g ∈ kept name fs) : g ∈ fs :=
  (mem_of_mem_foldl_keep h).resolve_left List.not_mem_nil

theorem kept_append (fs : List Finding) (f : Finding) :
    kept name (fs ++ [f]) = keep name (kept name fs) f :=
  List.foldl_append

/-- No atom is recorded twice. -/
theorem nodup_kept (fs : List Finding) : ((kept name fs).map fun f => f.atom name).Nodup := by
  induction fs using List.reverseRecOn with
  | nil => exact .nil
  | append_singleton fs f ih =>
    rw [kept_append, keep]
    split
    · exact ih
    · rename_i hnew
      rw [List.map_append, List.map_singleton]
      refine List.nodup_append.2 ⟨ih, List.pairwise_singleton _ _, fun a ha b hb heq => hnew ?_⟩
      obtain ⟨g, hg, rfl⟩ := List.mem_map.1 ha
      exact List.any_eq_true.2 ⟨g, hg, beq_iff_eq.2 (heq.trans (List.mem_singleton.1 hb))⟩

/-- Every finding has its atom recorded. -/
theorem exists_kept (h : f ∈ fs) : ∃ g ∈ kept name fs, g.atom name = f.atom name := by
  induction fs using List.reverseRecOn with
  | nil => cases h
  | append_singleton fs x ih =>
    rw [kept_append, keep]
    split
    · rename_i hx
      rcases List.mem_append.1 h with h | h
      · exact ih h
      · obtain rfl := List.mem_singleton.1 h
        obtain ⟨g, hg, heq⟩ := List.any_eq_true.1 hx
        exact ⟨g, hg, beq_iff_eq.1 heq⟩
    · rcases List.mem_append.1 h with h | h
      · obtain ⟨g, hg, heq⟩ := ih h
        exact ⟨g, List.mem_append_left _ hg, heq⟩
      · obtain rfl := List.mem_singleton.1 h
        exact ⟨f, List.mem_append_right _ (List.mem_singleton_self f), rfl⟩

end

/-! ## The flow of terms -/

/-- Each finding takes its inputs from the given terms and the outputs of findings before it. -/
def Flows (available : List Term) (fs : List Finding) : Prop :=
  ∀ (i : Nat) (f : Finding), fs[i]? = some f → ∀ t ∈ f.inputs,
    t ∈ available ∨ ∃ (j : Nat) (g : Finding), j < i ∧ fs[j]? = some g ∧ t ∈ g.outputs

section

variable {available more : List Term} {fs gs : List Finding} {f : Finding} {name : Term → Var}

theorem flows_nil (available : List Term) : Flows available [] := nofun

theorem Flows.mono (h : Flows available fs) (hle : ∀ t ∈ available, t ∈ more) : Flows more fs :=
  fun i f hf t ht => (h i f hf t ht).imp_left (hle t)

theorem Flows.append (h : Flows available fs) (hgs : Flows more gs)
    (hmore : ∀ t ∈ more, t ∈ available ∨ ∃ f ∈ fs, t ∈ f.outputs) : Flows available (fs ++ gs) := by
  intro i f hf t ht
  rcases Nat.lt_or_ge i fs.length with hi | hi
  · rw [List.getElem?_append_left hi] at hf
    refine (h i f hf t ht).imp_right fun ⟨j, g, hj, hg, htg⟩ => ⟨j, g, hj, ?_, htg⟩
    rw [List.getElem?_append_left (Nat.lt_trans hj hi)]
    exact hg
  · rw [List.getElem?_append_right hi] at hf
    rcases hgs _ f hf t ht with htm | ⟨j, g, hj, hg, htg⟩
    · refine (hmore t htm).imp_right fun ⟨g, hg, htg⟩ => ?_
      obtain ⟨j, hj, rfl⟩ := List.getElem_of_mem hg
      refine ⟨j, fs[j], Nat.lt_of_lt_of_le hj hi, ?_, htg⟩
      rw [List.getElem?_append_left hj, List.getElem?_eq_getElem hj]
    · refine .inr ⟨fs.length + j, g, by omega, ?_, htg⟩
      rw [List.getElem?_append_right (Nat.le_add_right _ _), Nat.add_sub_cancel_left]
      exact hg

theorem Flows.inputs_of_mem (h : Flows available fs) (hf : f ∈ fs) {t : Term} (ht : t ∈ f.inputs) :
    t ∈ available ∨ ∃ g ∈ fs, t ∈ g.outputs := by
  obtain ⟨i, hi, rfl⟩ := List.getElem_of_mem hf
  refine (h i _ (List.getElem?_eq_getElem hi) t ht).imp_right fun ⟨j, g, _, hg, htg⟩ => ?_
  exact ⟨g, List.mem_of_getElem? hg, htg⟩

theorem flows_append_singleton : Flows available (fs ++ [f]) ↔ Flows available fs ∧
    ∀ t ∈ f.inputs, t ∈ available ∨ ∃ g ∈ fs, t ∈ g.outputs := by
  constructor
  · intro h
    refine ⟨fun i g hg t ht => ?_, fun t ht => ?_⟩
    · have hi := (List.getElem?_eq_some_iff.1 hg).1
      have hlong := h i g (by rw [List.getElem?_append_left hi]; exact hg) t ht
      refine hlong.imp_right fun ⟨j, x, hj, hx, htx⟩ => ⟨j, x, hj, ?_, htx⟩
      rwa [List.getElem?_append_left (Nat.lt_trans hj hi)] at hx
    · refine (h fs.length f (by simp) t ht).imp_right fun ⟨j, x, hj, hx, htx⟩ => ?_
      rw [List.getElem?_append_left hj] at hx
      exact ⟨x, List.mem_of_getElem? hx, htx⟩
  · rintro ⟨hfs, hf⟩
    have hsingle : Flows f.inputs [f] := by
      intro i g hg t ht
      obtain rfl : f = g := by
        rw [List.getElem?_singleton] at hg
        split at hg
        · exact Option.some.inj hg
        · cases hg
      exact .inl ht
    exact hfs.append hsingle hf

/-- The terms that a kept finding could take are provided by kept findings. -/
theorem Flows.kept (h : Flows available fs) (hproper : ∀ f ∈ fs, f.IsProper)
    (hname : ∀ f ∈ fs, ∀ g ∈ fs, ∀ t u, f.Lifts t → g.Lifts u → name t = name u → t = u) :
    Flows available (kept name fs) := by
  induction fs using List.reverseRecOn with
  | nil => exact flows_nil available
  | append_singleton fs f ih =>
    obtain ⟨hfs, hinputs⟩ := flows_append_singleton.1 h
    have hbefore := ih hfs (fun g hg => hproper g (List.mem_append_left _ hg))
      fun g hg x hx => hname g (List.mem_append_left _ hg) x (List.mem_append_left _ hx)
    rw [kept_append, keep]
    split
    · exact hbefore
    · refine flows_append_singleton.2 ⟨hbefore, fun t ht => ?_⟩
      refine (hinputs t ht).elim .inl fun ⟨g, hg, htg⟩ => ?_
      -- the finding that provides the term is kept, or another one with its atom is
      obtain ⟨x, hx, heq⟩ : ∃ x ∈ Saturation.kept name fs, x.atom name = g.atom name := exists_kept hg
      have hxfs := mem_of_mem_kept hx
      have hlifts : x.Lifts t :=
        (hproper g (List.mem_append_left _ hg)).lifts_of_atom_eq
          (hproper x (List.mem_append_left _ hxfs))
          (hname g (List.mem_append_left _ hg) x (List.mem_append_left _ hxfs)) heq.symm
          (Finding.lifts_iff.2 (.inr htg))
      rcases Finding.lifts_iff.1 hlifts with htx | htx
      · exact hbefore.inputs_of_mem hx htx
      · exact .inr ⟨x, hx, htx⟩

end
end Saturation
end Horn
