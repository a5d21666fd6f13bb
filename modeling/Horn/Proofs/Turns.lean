import Horn.Proofs.SortingLearner

/-!
The course of an induction.  A turn is done with the example that it takes up, so there are no more
turns than examples, and each adds one clause at most.  What is reported stands in its order among the
positive examples, and what is not was covered at the end of some turn by what had been learned then.
Examples are told apart by their places: of two equal ones the first may be reported and the second be
covered later.
-/

namespace Horn
namespace Learner

/-- The examples left and the state at the end of each turn that is made, at most so many. -/
def turnEnds (l : Learner) : Nat → List Clause → State → List (List Clause × State)
  | 0, _, _ => []
  | _ + 1, [], _ => []
  | n + 1, seed :: others, s =>
    match l.turn seed others s with
    | .error _ => []
    | .ok (left, t) => (left, t) :: turnEnds l n left t

section

variable {l : Learner} {positives others left : List Clause} {seed : Clause} {s t : State} {n : Nat}

theorem turnEnds_of_turn (h : l.turn seed others s = .ok (left, t)) :
    l.turnEnds (n + 1) (seed :: others) s = (left, t) :: l.turnEnds n left t := by
  rw [turnEnds, h]

theorem turnEnds_nil (n : Nat) (s : State) : l.turnEnds n [] s = [] := by
  cases n <;> rfl

/-! ## One turn -/

theorem length_left_lt (h : l.turn seed others s = .ok (left, t)) :
    left.length < (seed :: others).length := by
  rw [(turn_eq_ok h).2.1]
  exact Nat.lt_succ_of_le (List.length_filter_le _ _)

/-- A turn learns one clause at most. -/
theorem length_learned_turn (hs : s.learned.IsFiled) (h : l.turn seed others s = .ok (left, t)) :
    t.learned.IsFiled ∧ t.learned.clauses.length ≤ s.learned.clauses.length + 1 := by
  obtain ⟨⟨_, _, -, ⟨-, hsame⟩ | ⟨hyp, isNew, -, hadd⟩⟩, -, -⟩ := turn_eq_ok h
  · rw [hsame]
    exact ⟨hs, Nat.le_succ _⟩
  refine ⟨hs.add hadd, ?_⟩
  obtain ⟨-, hold⟩ | ⟨-, hnew⟩ := hs.clauses_add hadd
  · rw [hold]
    exact Nat.le_succ _
  · rw [hnew, List.length_append]
    exact Nat.le_refl _

/-- Whether an example is not covered by what is known at the end of a turn. -/
def misses (l : Learner) {ι : Type} (t : State) (e : Clause × ι) : Bool := !l.covers t.learned e.1

/-- A turn leaves the others that are not covered at its end, and reports its own example when that one
is not. -/
theorem turn_labelled {ι : Type} {seed : Clause × ι} {others : List (Clause × ι)}
    (h : l.turn seed.1 (others.map Prod.fst) s = .ok (left, t)) :
    left = (others.filter (l.misses t)).map Prod.fst ∧
      t.uncovered = s.uncovered ++ ([seed].filter (l.misses t)).map Prod.fst := by
  obtain ⟨-, hleft, huncovered⟩ := turn_eq_ok h
  refine ⟨by rw [hleft, List.filter_map]; rfl, ?_⟩
  rw [huncovered, List.filter_singleton, misses]
  cases l.covers t.learned seed.1 with
  | true => exact (List.append_nil _).symm
  | false => rfl

/-! ## All turns -/

/-- Every turn leaves fewer examples than there were before it. -/
theorem isChain_turnEnds (l : Learner) (n : Nat) (left : List Clause) (s : State) :
    (left :: (l.turnEnds n left s).map Prod.fst).IsChain fun before after =>
      after.length < before.length := by
  induction n, left, s using turns.induct with
  | case1 n s =>
    rw [turnEnds_nil]
    exact .singleton _
  | case2 left s => exact .singleton _
  | case3 n seed others s ih =>
    rw [turnEnds]
    split
    · exact .singleton _
    · rename_i left t hturn
      exact List.isChain_cons_cons.2 ⟨length_left_lt hturn, ih left t⟩

/-- There are no more turns than examples or than are allowed, one that fails included. -/
theorem length_turnEnds (l : Learner) (n : Nat) (left : List Clause) (s : State) :
    (l.turnEnds n left s).length ≤ min left.length n ∧
      ∀ why, l.turns n left s = .error why → (l.turnEnds n left s).length < min left.length n := by
  induction n, left, s using turns.induct with
  | case1 n s =>
    rw [turnEnds_nil, turns_nil]
    exact ⟨Nat.zero_le _, fun why h => by cases h⟩
  | case2 left s =>
    rw [turns_zero]
    exact ⟨Nat.zero_le _, fun why h => by cases h⟩
  | case3 n seed others s ih =>
    cases hturn : l.turn seed others s with
    | error why =>
      rw [turnEnds, hturn]
      exact ⟨Nat.zero_le _, fun _ _ => Nat.lt_min.2 ⟨Nat.succ_pos _, Nat.succ_pos n⟩⟩
    | ok r =>
      obtain ⟨left, t⟩ := r
      have hshort := length_left_lt hturn
      obtain ⟨hmost, hfails⟩ := ih left t
      rw [turnEnds_of_turn hturn, turns_of_turn hturn]
      simp only [List.length_cons] at hshort ⊢
      exact ⟨by omega, fun why h => by have := hfails why h; omega⟩

/-- Turns end where none or no example is left. -/
theorem turns_eq_ok (h : l.turns n left s = .ok t) :
    ∃ last, (l.turnEnds n left s).getLast?.getD (left, s) = last ∧ t.learned = last.2.learned ∧
      t.uncovered = last.2.uncovered ++ last.1 ∧
      (last.1 = [] ∨ (l.turnEnds n left s).length = n) := by
  refine ⟨_, rfl, ?_⟩
  induction n, left, s using turns.induct with
  | case1 n s =>
    rw [turns_nil] at h
    obtain rfl := Except.ok.inj h
    rw [turnEnds_nil]
    exact ⟨rfl, (List.append_nil _).symm, .inl rfl⟩
  | case2 left s =>
    rw [turns_zero] at h
    obtain rfl := Except.ok.inj h
    exact ⟨rfl, rfl, .inr rfl⟩
  | case3 n seed others s ih =>
    obtain ⟨⟨left, u⟩, hturn, h⟩ := exists_of_bind_eq_ok h
    rw [turnEnds_of_turn hturn, List.getLast?_cons, Option.getD_some, List.length_cons,
      Nat.succ_inj]
    exact ih left u h

theorem length_learned_turns (hs : s.learned.IsFiled) (h : l.turns n left s = .ok t) :
    t.learned.clauses.length ≤ s.learned.clauses.length + (l.turnEnds n left s).length := by
  induction n, left, s using turns.induct with
  | case1 n s =>
    rw [turns_nil] at h
    obtain rfl := Except.ok.inj h
    exact Nat.le_add_right _ _
  | case2 left s =>
    rw [turns_zero] at h
    obtain rfl := Except.ok.inj h
    exact Nat.le_add_right _ _
  | case3 n seed others s ih =>
    obtain ⟨⟨left, u⟩, hturn, h⟩ := exists_of_bind_eq_ok h
    obtain ⟨hu, hone⟩ := length_learned_turn hs hturn
    have hrest := ih left u hu h
    rw [turnEnds_of_turn hturn, List.length_cons]
    omega

/-- Of labelled examples those that are kept are reported, and the others were covered at the end of
some turn. -/
theorem exists_kept {ι : Type} {examples : List (Clause × ι)}
    (h : l.turns n (examples.map Prod.fst) s = .ok t) :
    ∃ kept : List (Clause × ι), kept.Sublist examples ∧
      t.uncovered = s.uncovered ++ kept.map Prod.fst ∧
      ∀ e ∈ examples, e ∉ kept → ∃ r ∈ l.turnEnds n (examples.map Prod.fst) s,
        l.covers r.2.learned e.1 = true := by
  induction n generalizing examples s with
  | zero =>
    rw [turns_zero] at h
    obtain rfl := Except.ok.inj h
    exact ⟨examples, .refl _, rfl, fun e he hnot => absurd he hnot⟩
  | succ n ih =>
    cases examples with
    | nil =>
      rw [List.map_nil, turns_nil] at h
      obtain rfl := Except.ok.inj h
      exact ⟨[], .refl _, (List.append_nil _).symm, nofun⟩
    | cons seed others =>
      obtain ⟨⟨left, u⟩, hturn, h⟩ := exists_of_bind_eq_ok h
      obtain ⟨hleft, huncovered⟩ := turn_labelled hturn
      rw [List.map_cons, turnEnds_of_turn hturn, hleft]
      obtain ⟨kept, hsub, hkept, hall⟩ := ih (hleft ▸ h)
      refine ⟨[seed].filter (l.misses u) ++ kept, ?_, ?_, fun e he hnot => ?_⟩
      · exact List.filter_sublist.append (hsub.trans List.filter_sublist)
      · rw [hkept, huncovered, List.map_append, List.append_assoc]
      · rw [List.mem_append, not_or] at hnot
        cases hcovers : l.covers u.learned e.1 with
        | true => exact ⟨_, List.mem_cons_self, hcovers⟩
        | false =>
          -- it waits for the next turn, since it is not the one of this turn
          have hmisses : l.misses u e = true := by rw [misses, hcovers]; rfl
          have hwaits : e ∈ others := by
            refine (List.mem_cons.1 he).resolve_left fun heq => hnot.1 ?_
            exact List.mem_filter.2 ⟨List.mem_singleton.2 heq, hmisses⟩
          obtain ⟨r, hr, hlater⟩ := hall e (List.mem_filter.2 ⟨hwaits, hmisses⟩) hnot.2
          exact ⟨r, List.mem_cons_of_mem _ hr, hlater⟩

/-! ## The induction -/

theorem turns_of_induce_eq_error {why : Failure} (h : l.induce positives = .error why) :
    l.turns l.options.maxClauses positives l.start = .error why := by
  have h : l.turns l.options.maxClauses positives l.start >>= _ = .error why := h
  cases hturns : l.turns l.options.maxClauses positives l.start with
  | error why' =>
    rw [hturns] at h
    cases h
    rfl
  | ok t =>
    rw [hturns] at h
    cases h

/-- The examples and the state at the end of each turn of an induction. -/
def courseOf (l : Learner) (positives : List Clause) : List (List Clause × State) :=
  l.turnEnds l.options.maxClauses positives l.start

/-- Each turn of an induction leaves fewer examples than the one before, so there are no more turns than
positive examples or than clauses are allowed, a turn that fails included.  An induction that ends has
learned one clause a turn at most.  What it reports are the examples at some places, in their order, and
each of the others followed, at the end of some turn, from what had been learned by then in front of the
background. -/
theorem induce_accounts (l : Learner) (positives : List Clause) :
    (positives :: (l.courseOf positives).map Prod.fst).IsChain
        (fun before after => after.length < before.length) ∧
      (l.courseOf positives).length ≤ min positives.length l.options.maxClauses ∧
      (∀ why, l.induce positives = .error why →
        (l.courseOf positives).length < min positives.length l.options.maxClauses) ∧
      ∀ r, l.induce positives = .ok r →
        (∃ last, (l.courseOf positives).getLast?.getD (positives, l.start) = last ∧
          r.learned = last.2.learned.clauses ∧ r.uncovered = last.2.uncovered ++ last.1 ∧
          (last.1 = [] ∨ (l.courseOf positives).length = l.options.maxClauses)) ∧
        r.learned.length ≤ (l.courseOf positives).length ∧
        ∃ kept : List (Clause × Nat), kept.Sublist positives.zipIdx ∧
          kept.map Prod.fst = r.uncovered ∧
          ∀ e ∈ positives.zipIdx, e ∉ kept → ∃ t ∈ l.courseOf positives,
            e.1.isCovered (l.knowledge t.2.learned).candidates l.options.h = true := by
  refine ⟨isChain_turnEnds _ _ _ _, (length_turnEnds _ _ _ _).1, fun why h => ?_, fun r h => ?_⟩
  · exact (length_turnEnds _ _ _ _).2 why (turns_of_induce_eq_error h)
  obtain ⟨t, hturns, hlearned, huncovered⟩ := turns_of_induce h
  refine ⟨?_, ?_, ?_⟩
  · obtain ⟨last, hlast, hstore, hreported, hend⟩ := turns_eq_ok hturns
    exact ⟨last, hlast, hlearned.trans (congrArg _ hstore), huncovered.trans hreported, hend⟩
  · have hlength := length_learned_turns Store.isFiled_empty hturns
    have hstart : l.start.learned.clauses = [] := Store.clauses_empty
    rw [hstart, List.length_nil, Nat.zero_add] at hlength
    rwa [hlearned]
  · rw [← List.zipIdx_map_fst 0 positives] at hturns
    obtain ⟨kept, hsub, hkept, hall⟩ := exists_kept hturns
    rw [List.zipIdx_map_fst] at hall
    exact ⟨kept, hsub, (huncovered.trans hkept).symm, hall⟩

/-- Three turns are made for the two kinds, in two of which a rule is learned.  The member without an
attribute is reported, and the other two are covered at the end of some turn. -/
theorem kinds_accounted : ∃ background : LayeredStore, background.Stores kinds ∧
    let l := kindsLearner background
    (l.courseOf kindsExamples).length = 3 ∧ ∃ r, l.induce kindsExamples = .ok r ∧
      r.uncovered = [said "p" "c"] ∧ r.learned.length = 2 ∧
      r.learned.length ≤ (l.courseOf kindsExamples).length ∧
      ∀ e ∈ [said "p" "a", said "p" "b"], ∃ t ∈ l.courseOf kindsExamples,
        e.isCovered (l.knowledge t.2.learned).candidates l.options.h = true := by
  obtain ⟨facts, -, hstores⟩ := kinds.exists_stores (by decide) (by decide)
  refine ⟨_, hstores, ?_⟩
  intro l
  obtain ⟨v, w, s₁, s₂, s₃, hturn₁, -, -, hturn₂, -, -, hturn₃, -⟩ := turns_kinds hstores
  have hcourse : l.courseOf kindsExamples = [_, _, _] := (turnEnds_of_turn hturn₁).trans
    (congrArg _ ((turnEnds_of_turn hturn₂).trans (congrArg _ (turnEnds_of_turn hturn₃))))
  obtain ⟨v, w, r, -, hinduce, hlearned, huncovered, -⟩ := induce_kinds hstores
  obtain ⟨-, -, -, hok⟩ := induce_accounts l kindsExamples
  obtain ⟨-, hmost, kept, -, hkept, hall⟩ := hok r hinduce
  have hexamples : ∀ e ∈ [said "p" "a", said "p" "b"], e ∉ [said "p" "c"] ∧
      ∃ i < 3, (e, i) ∈ kindsExamples.zipIdx := by decide
  refine ⟨by rw [hcourse]; rfl, r, hinduce, huncovered, by rw [hlearned]; rfl, hmost, fun e he => ?_⟩
  obtain ⟨hnot, i, -, hi⟩ := hexamples e he
  refine hall (e, i) hi fun hmem => hnot ?_
  rw [← huncovered, ← hkept]
  exact List.mem_map_of_mem hmem

end

end Learner
end Horn
