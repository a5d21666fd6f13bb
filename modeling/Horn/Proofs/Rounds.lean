import Horn.Proofs.Findings

/-!
Saturation as one list of findings.  Neither the answers of a call nor the terms that a round produces
depend on the atoms found so far, so the rounds amount to listing the ground answers of all calls
first and recording their lifted atoms afterwards, one after the other.
-/

namespace Horn

theorem mem_tuples {α : Type} {pool xs : List α} {n : Nat} :
    xs ∈ tuples pool n ↔ xs.length = n ∧ ∀ x ∈ xs, x ∈ pool := by
  induction n generalizing xs with
  | zero =>
    simp only [tuples, List.mem_singleton, List.length_eq_zero_iff]
    exact ⟨fun h => ⟨h, h ▸ List.forall_mem_nil _⟩, And.left⟩
  | succ n ih =>
    cases xs with
    | nil => simp [tuples]
    | cons x xs => simp [tuples, ih, and_left_comm]

theorem mem_foldl_withTerm {ts found : List Term} {t : Term} :
    t ∈ ts.foldl withTerm found ↔ t ∈ found ∨ t ∈ ts := by
  induction ts generalizing found with
  | nil => simp
  | cons u ts ih =>
    rw [List.foldl_cons, ih, withTerm]
    split
    · rename_i hu
      have hu : u ∈ found := List.contains_iff_mem.1 hu
      grind
    · grind

/-! ## Calls -/

namespace Mode

/-- The template with which a body mode is called. -/
def template (m : Mode) : Template := (m.instantiate Substitution.empty).1

/-- The substitution that has the variables of the template in scope. -/
def scope (m : Mode) : Substitution := (m.instantiate Substitution.empty).2

/-- How many inputs a call takes. -/
def width (m : Mode) : Nat := (m.template.slots.filter fun s => s.placeholder.sign == .input).length

/-- The answers of a call that count, ground or not. -/
def answers (m : Mode) (lookup : Lookup) (options : Options) (inputs : List Term) :
    List (List Term) :=
  Saturation.answers lookup options.h (m.recall.limit options.maxRecall) m.template m.scope inputs

/-- The ground answers of the calls with all choices of inputs. -/
def findings (m : Mode) (lookup : Lookup) (options : Options) (available : List Term) :
    List Finding :=
  (((tuples available m.width).flatMap (m.answers lookup options)).filter
    fun terms => terms.all fun t => isGround t).map fun terms => ⟨m.template, terms⟩

theorem mem_findings {m : Mode} {lookup : Lookup} {options : Options} {available : List Term}
    {f : Finding} :
    f ∈ m.findings lookup options available ↔ f.template = m.template ∧
      (∀ t ∈ f.terms, isGround t = true) ∧ ∃ inputs : List Term, inputs.length = m.width ∧
        (∀ t ∈ inputs, t ∈ available) ∧ f.terms ∈ m.answers lookup options inputs := by
  obtain ⟨template, terms⟩ := f
  simp only [findings, List.mem_map, List.mem_filter, List.mem_flatMap, mem_tuples, List.all_eq_true,
    Finding.mk.injEq]
  constructor
  · rintro ⟨terms', ⟨⟨inputs, ⟨hlen, havailable⟩, hanswer⟩, hground⟩, rfl, rfl⟩
    exact ⟨rfl, hground, inputs, hlen, havailable, hanswer⟩
  · rintro ⟨rfl, hground, inputs, hlen, havailable, hanswer⟩
    exact ⟨terms, ⟨⟨inputs, ⟨hlen, havailable⟩, hanswer⟩, hground⟩, rfl, rfl⟩

end Mode

namespace Saturation

/-! ## Rounds -/

/-- Records the lifted atom of a finding, unless it is there already. -/
def record (s : Saturation) (f : Finding) : Saturation :=
  let l := Lifting.slots .output s.names [] f.places
  let atom := l.atom f.template.atom
  ⟨l.names, if s.atoms.any fun a => a.1 == atom then s.atoms else s.atoms ++ [(atom, l.link)]⟩

/-- The terms that findings produce. -/
def produced (fs : List Finding) : List Term := (fs.flatMap Finding.outputs).foldl withTerm []

section

variable (lookup : Lookup) (options : Options) (modes : List Mode)

/-- What one round finds. -/
def round (available : List Term) : List Finding :=
  modes.flatMap fun m => m.findings lookup options available

/-- What so many rounds find. -/
def findings : Nat → List Term → List Finding
  | 0, _ => []
  | n + 1, available =>
    let found := round lookup options modes available
    found ++ findings n (produced found)

/-- The terms that are available after so many rounds. -/
def pool (available : List Term) : Nat → List Term
  | 0 => available
  | n + 1 => produced (round lookup options modes (pool available n))

theorem addAnswer_eq (template : Template) (s : Saturation) (found terms : List Term) :
    addAnswer template (s, found) terms =
      if terms.all fun t => isGround t then
        (s.record ⟨template, terms⟩, (Finding.outputs ⟨template, terms⟩).foldl withTerm found)
      else (s, found) := by
  unfold addAnswer
  dsimp only
  split
  · rw [Lifting.slots_found .output nofun]
    rfl
  · rfl

theorem foldl_addAnswer (template : Template) (s : Saturation) (found : List Term)
    (answers : List (List Term)) :
    let fs := (answers.filter fun terms => terms.all fun t => isGround t).map fun terms =>
      (⟨template, terms⟩ : Finding)
    answers.foldl (addAnswer template) (s, found) =
      (fs.foldl record s, (fs.flatMap Finding.outputs).foldl withTerm found) := by
  induction answers generalizing s found with
  | nil => rfl
  | cons terms answers ih =>
    dsimp only at ih ⊢
    rw [List.foldl_cons, addAnswer_eq, List.filter_cons]
    split
    · rw [ih, List.map_cons, List.foldl_cons, List.flatMap_cons, List.foldl_append]
    · exact ih s found

theorem expand_eq (available : List Term) (s : Saturation) (found : List Term) (m : Mode) :
    let fs := m.findings lookup options available
    expand lookup options available (s, found) m =
      (fs.foldl record s, (fs.flatMap Finding.outputs).foldl withTerm found) := by
  refine Eq.trans ?_ (foldl_addAnswer m.template s found _)
  exact (List.foldl_flatMap ..).symm

theorem foldl_expand (available : List Term) (s : Saturation) (found : List Term) :
    let fs := round lookup options modes available
    modes.foldl (expand lookup options available) (s, found) =
      (fs.foldl record s, (fs.flatMap Finding.outputs).foldl withTerm found) := by
  induction modes generalizing s found with
  | nil => rfl
  | cons m modes ih =>
    have hround : round lookup options (m :: modes) available =
        m.findings lookup options available ++ round lookup options modes available :=
      List.flatMap_cons
    dsimp only at ih ⊢
    rw [List.foldl_cons, expand_eq, ih, hround, List.foldl_append, List.flatMap_append,
      List.foldl_append]

/-- Saturation lists what all rounds find and records it in that order. -/
theorem rounds_eq (n : Nat) (available : List Term) (s : Saturation) :
    rounds lookup options modes n available s =
      (findings lookup options modes n available).foldl record s := by
  induction n generalizing available s with
  | zero => rfl
  | succ n ih =>
    rw [rounds, foldl_expand, findings, List.foldl_append]
    exact ih _ _

end

/-! ## What is found -/

section

variable {lookup : Lookup} {options : Options} {modes : List Mode} {available : List Term}
  {f : Finding} {fs : List Finding} {t : Term} {n : Nat}

theorem mem_produced : t ∈ produced fs ↔ ∃ f ∈ fs, t ∈ f.outputs := by
  simp [produced, mem_foldl_withTerm]

theorem mem_round : f ∈ round lookup options modes available ↔
    ∃ m ∈ modes, f ∈ m.findings lookup options available :=
  List.mem_flatMap

/-- After the first round the terms are those that the round before produced. -/
theorem mem_pool_succ : t ∈ pool lookup options modes available (n + 1) ↔
    ∃ f ∈ round lookup options modes (pool lookup options modes available n), t ∈ f.outputs :=
  mem_produced

theorem pool_produced (n : Nat) :
    pool lookup options modes (produced (round lookup options modes available)) n =
      pool lookup options modes available (n + 1) := by
  induction n with
  | zero => rfl
  | succ n ih => exact congrArg (fun ts => produced (round lookup options modes ts)) ih

theorem mem_findings : f ∈ findings lookup options modes n available ↔
    ∃ r < n, f ∈ round lookup options modes (pool lookup options modes available r) := by
  induction n generalizing available with
  | zero => simp [findings]
  | succ n ih =>
    rw [findings, List.mem_append, ih]
    simp only [pool_produced]
    constructor
    · rintro (h | ⟨r, hr, h⟩)
      · exact ⟨0, Nat.succ_pos n, h⟩
      · exact ⟨r + 1, Nat.succ_lt_succ hr, h⟩
    · rintro ⟨r, hr, h⟩
      cases r with
      | zero => exact .inl h
      | succ r => exact .inr ⟨r, Nat.lt_of_succ_lt_succ hr, h⟩

end
end Saturation
end Horn
