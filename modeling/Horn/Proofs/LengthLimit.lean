import Horn.Proofs.Enumeration
import Horn.Proofs.Optimality
import Horn.Proofs.Settings

/-!
The length limit and how it is read.  Refining compares lengths with the limit itself, the choice of the
best hypothesis and the test for what need not be refined compare them with the limit as a number with a
sign.  Below `2 ^ 63` the two readings are one.  A larger limit, which the option admits, becomes negative:
then nothing is within it, not even the bare head, and a search ends before it begins.
-/

namespace Horn
namespace HypothesisSpace

variable {s : HypothesisSpace} {h : Hypothesis}

/-! ## The limit with a sign -/

/-- The limits that the option can set. -/
theorem accepts_maxBody : OptionKey.c.accepts (.number s.maxBody) = true ↔ s.maxBody < 2 ^ 64 :=
  decide_eq_true_iff

theorem lengthLimit_of_lt (hlimit : s.maxBody < 2 ^ 63) : s.lengthLimit = s.maxBody :=
  Int64.toInt_ofNat_of_lt hlimit

theorem lengthLimit_neg (hlimit : 2 ^ 63 ≤ s.maxBody) (hoption : s.maxBody < 2 ^ 64) :
    s.lengthLimit < 0 := by
  have hsize : Int64.size = 2 ^ 64 := rfl
  rw [lengthLimit, Int64.toInt_ofNat', Int.bmod_def, hsize]
  omega

theorem withinLimit_iff (hlimit : s.maxBody < 2 ^ 63) :
    s.withinLimit h = true ↔ h.c ≤ s.maxBody := by
  rw [withinLimit, lengthLimit_of_lt hlimit, decide_eq_true_iff, Int.ofNat_le]

theorem withinLimit_eq_false (hlimit : 2 ^ 63 ≤ s.maxBody) (hoption : s.maxBody < 2 ^ 64)
    (h : Hypothesis) : s.withinLimit h = false := by
  have hneg := lengthLimit_neg hlimit hoption
  rw [withinLimit, decide_eq_false_iff_not]
  omega

/-! ## What is reached -/

/-- Refining stops at the limit. -/
theorem Reached.c_le (hh : s.Reached h) : h.c ≤ s.maxBody := by
  obtain ⟨hchoice, halong⟩ := hh.spec
  rw [halong, c_along hchoice]
  exact hh.length_chosen_le

/-! ## Searches with nothing within the limit -/

section

variable {hs : List Hypothesis} (hnone : ∀ h, s.withinLimit h = false)

include hnone

theorem best?_of_none_within : s.best? hs = none := by
  refine foldl_better_eq_none.2 ⟨rfl, List.filter_eq_nil_iff.2 fun e _ => ?_⟩
  simp [hnone]

/-- A search stops before it takes up the bare head. -/
theorem run_of_none_within (log : EventLog) : (s.run log).1 = none := by
  have hstay : ∀ n st, s.explore n st = st := by
    intro n st
    cases n with
    | zero => rfl
    | succ n => rw [explore, best?_of_none_within hnone]
  unfold run
  split
  · rfl
  · rw [hstay]
    show s.bestSolution? _ = none
    rw [bestSolution?, best?_of_none_within hnone, Option.map_none]

end

/-- Nothing that is reached is longer than the limit.  Up to `2 ^ 63` just what is longer than the limit is
passed over as the best hypothesis and is not refined for its length; from there on everything is, so
nothing is found. -/
theorem limit_readings (hoption : OptionKey.c.accepts (.number s.maxBody) = true) :
    (∀ h, s.Reached h → h.c ≤ s.maxBody) ∧
    (s.maxBody < 2 ^ 63 →
      (∀ hs, s.best? hs =
        ((hs.zipIdx.map Prod.swap).filter fun e => e.2.c ≤ s.maxBody).foldl better none) ∧
      ∀ h, s.isPruned h = true ↔ h.n = 0 ∧ 0 < h.f ∨ h.g ≤ 0 ∨ s.maxBody < h.c) ∧
    (2 ^ 63 ≤ s.maxBody →
      (∀ hs, s.best? hs = none) ∧ (∀ h, s.isPruned h = true) ∧ ∀ log, (s.run log).1 = none) := by
  refine ⟨fun h hh => hh.c_le, fun hlimit => ⟨fun hs => ?_, fun h => ?_⟩, fun hlimit => ?_⟩
  · have hsame : (fun e : Nat × Hypothesis => s.withinLimit e.2) =
        fun e => decide (e.2.c ≤ s.maxBody) := by
      funext e
      rw [Bool.eq_iff_iff, withinLimit_iff hlimit, decide_eq_true_iff]
    rw [best?, hsame]
  · have htest : (!s.withinLimit h) = true ↔ s.maxBody < h.c := by
      rw [Bool.not_eq_true', ← Bool.not_eq_true, withinLimit_iff hlimit, Nat.not_le]
    rw [isPruned, Bool.or_eq_true, htest]
    simp [or_assoc]
  · have hnone := withinLimit_eq_false hlimit (accepts_maxBody.1 hoption)
    refine ⟨fun hs => best?_of_none_within hnone, fun h => ?_, run_of_none_within hnone⟩
    rw [isPruned, hnone h, Bool.not_false, Bool.or_true]

/-- The bottom clause `flag :- true` with a limit that is set as an option. -/
def flagWithin (o : Options) : HypothesisSpace := { flagSpace [] with maxBody := o.c }

/-- With a limit of one the bare head is the best of the hypotheses reached. -/
theorem limit_readings_one :
    OptionKey.c.accepts (.number (flagSpace []).maxBody) = true ∧
    (flagSpace []).maxBody < 2 ^ 63 ∧
    (flagSpace []).Reached ((flagSpace []).scored []) ∧
    ((flagSpace []).scored []).c ≤ (flagSpace []).maxBody ∧
    (flagSpace []).best? [(flagSpace []).scored []] = some (0, (flagSpace []).scored []) := by
  have hoption : OptionKey.c.accepts (.number (flagSpace []).maxBody) = true := by decide
  have hlimit : (flagSpace []).maxBody < 2 ^ 63 := by decide
  obtain ⟨hreached, hsmall, -⟩ := limit_readings hoption
  have hroot : (flagSpace []).Reached ((flagSpace []).scored []) := .root rfl
  refine ⟨hoption, hlimit, hroot, hreached _ hroot, ?_⟩
  rw [(hsmall hlimit).1]
  rfl

/-- With the limit `2 ^ 63` the bare head, which has no atoms and is a solution, is passed over and not
refined, and nothing is found. -/
theorem limit_excludes_root :
    ∃ o, Options.default.set "c" "9223372036854775808" = .ok o ∧
      let s := flagWithin o
      s.Reached (s.scored []) ∧ (s.scored []).c = 0 ∧ s.maxBody = 2 ^ 63 ∧
        (s.scored []).isSolution = true ∧ s.withinLimit (s.scored []) = false ∧
        s.best? [s.scored []] = none ∧ ∀ log, (s.run log).1 = none := by
  have hvalue : OptionKey.c.accepts (.number (2 ^ 63)) = true := by decide
  have hnone := withinLimit_eq_false (s := flagWithin (Options.default.put .c (.number (2 ^ 63))))
    (Nat.le_refl (2 ^ 63)) (by decide)
  have hroot := scored_flag [] (.inl rfl)
  refine ⟨_, Options.set_text Options.default hvalue, .root rfl, rfl, rfl, ?_, hnone _,
    best?_of_none_within hnone, run_of_none_within hnone⟩
  show ((flagSpace []).scored []).isSolution = true
  rw [hroot]
  rfl

end HypothesisSpace
end Horn
