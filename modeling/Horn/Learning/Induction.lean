import Horn.Learning.Hypothesis
import Horn.Learning.Saturation

/-!
Induction.  Clauses are learned one at a time: the first positive example that is still uncovered is
saturated, the best hypothesis below its bottom clause joins what was learned, and every example
that is covered now is done with.  An example that its own turn leaves uncovered is reported.
-/

namespace Horn

/-- The outcome of an induction. -/
structure Induction where
  /-- The learned clauses in the order in which they were found. -/
  learned : List Clause
  /-- The positive examples that the learned clauses leave uncovered. -/
  uncovered : List Clause
  log : EventGroup

/-- What an induction works with. -/
structure Learner where
  background : LayeredStore
  modes : ModeTable
  negatives : List Clause
  options : Options

namespace Learner

/-- Clauses as program text, one on a line. -/
def clauseLines (cs : List Clause) : String :=
  String.intercalate "\n" (cs.map fun c => c.text ++ ".")

/-- The learned clauses in front of the background. -/
def knowledge (l : Learner) (learned : Store) : LayeredStore :=
  l.background.under .borrowed learned

/-- The progress of an induction. -/
structure State where
  learned : Store
  uncovered : List Clause
  log : EventLog

/-- Looks for a clause for an example.  The other uncovered examples count for its coverage. -/
def search (l : Learner) (learned : Store) (seed : Clause) (others : List Clause)
    (log : EventLog) : Except Failure (Option Hypothesis × EventLog) := do
  let whole := l.knowledge learned
  let bottom ← BottomClause.ofExample seed l.modes whole l.options
  let log := (log.recordWith "Bottom clause" fun _ => bottom.text).enter "States"
  let space := HypothesisSpace.make bottom whole (seed :: others) l.negatives l.options.h
    l.options.c
  let (found, log) := space.run log
  return (found, log.leave)

/-- What is left of the examples of a turn, and what is reported, once it is known which of them are
covered.  The first of those left is reported if it is the example that the turn was about. -/
def settle (covered : Clause → Bool) (seed : Clause) (others reported : List Clause) :
    List Clause × List Clause :=
  let left := (seed :: others).filter fun c => !covered c
  if left.head? = some seed then (left.tail, reported ++ [seed]) else (left, reported)

/-- One turn of the induction.  The answer holds the examples left for the next one. -/
def turn (l : Learner) (seed : Clause) (others : List Clause) (s : State) :
    Except Failure (List Clause × State) := do
  let log := s.log.enter seed.text
  let log := log.recordWith "Examples" fun _ => clauseLines (seed :: others)
  let log := log.recordWith "Current example" fun _ => seed.text
  let (found, log) ← l.search s.learned seed others log
  let log := log.recordWith "Clause" fun _ => (found.map fun h => h.clause.text).getD "none"
  let learned ← match found with
    | none => pure s.learned
    | some h => (s.learned.add h.clause).map Prod.snd
  let lookup := (l.knowledge learned).candidates
  let (left, uncovered) :=
    settle (fun c => c.isCovered lookup l.options.h) seed others s.uncovered
  return (left, ⟨learned, uncovered, log.leave⟩)

/-- Turns while examples are left, at most so many. -/
def turns (l : Learner) : Nat → List Clause → State → Except Failure State
  | _, [], s => .ok s
  | 0, left, s => .ok { s with uncovered := s.uncovered ++ left }
  | n + 1, c :: others, s => do
    let (left, s) ← l.turn c others s
    turns l n left s

/-- Learns clauses for positive examples. -/
def induce (l : Learner) (positives : List Clause) : Except Failure Induction := do
  let log := EventLog.start "Induction" l.options.logging
  let log := log.recordWith "Knowledge" fun _ => clauseLines l.background.clauses
  let log := log.recordWith "Modes" fun _ =>
    String.intercalate "\n" (l.modes.modes.map Mode.text ++
      l.modes.determinations.map Determination.text)
  let log := log.recordWith "Options" fun _ =>
    String.intercalate "\n" (l.options.entries.map fun (k, v) => k ++ " = " ++ v)
  let s ← l.turns l.options.maxClauses positives ⟨Store.empty, [], log.enter "Iterations"⟩
  let log := s.log.leave.recordWith "Learned knowledge" fun _ => clauseLines s.learned.clauses
  return ⟨s.learned.clauses, s.uncovered, log.finish⟩

end Learner
end Horn
