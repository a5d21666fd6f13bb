import Horn.EventLog
import Horn.Learning.BottomClause
import Horn.Learning.Example

/-!
The search for a hypothesis.  Hypotheses are the clauses between the bare head of a bottom clause
and the bottom clause itself; one is refined by appending an atom that stands after those it has.
The search is best first, scored by coverage, length and the atoms estimated to be missing, and
leaves out what cannot lead to a better solution.
-/

namespace Horn

/-- A hypothesis with its coverage. -/
structure Hypothesis where
  clause : Clause
  /-- The places of its atoms in the body of the bottom clause. -/
  chosen : List Nat
  /-- The first place from which an atom may be appended. -/
  cursor : Nat
  /-- The estimate of the atoms that it still needs. -/
  missing : Nat
  /-- The places of the positive examples it covers. -/
  positives : List Nat
  /-- The places of the negative examples it covers. -/
  negatives : List Nat
deriving DecidableEq

namespace Hypothesis

def p (s : Hypothesis) : Nat := s.positives.length

def n (s : Hypothesis) : Nat := s.negatives.length

def c (s : Hypothesis) : Nat := s.clause.body.length

/-- The value that no refinement exceeds. -/
def g (s : Hypothesis) : Int := (s.p : Int) - s.c - s.missing

/-- The value of the hypothesis. -/
def f (s : Hypothesis) : Int := s.g - s.n

/-- Covers a positive and no negative example, and needs no more atoms. -/
def isSolution (s : Hypothesis) : Bool := s.n == 0 && s.missing == 0 && decide (0 < s.p)

def text (s : Hypothesis) : String :=
  s.clause.text ++ " [p=" ++ toString s.p ++ " n=" ++ toString s.n ++ " c=" ++ toString s.c ++
    " h=" ++ toString s.missing ++ " g=" ++ toString s.g ++ " f=" ++ toString s.f ++ "]"

end Hypothesis

/-- What a search for a hypothesis is about. -/
structure HypothesisSpace where
  bottom : BottomClause
  depths : Depths
  knowledge : LayeredStore
  positives : List Clause
  negatives : List Clause
  steps : Nat
  maxBody : Nat

namespace HypothesisSpace

def make (bottom : BottomClause) (knowledge : LayeredStore) (positives negatives : List Clause)
    (steps maxBody : Nat) : HypothesisSpace :=
  ⟨bottom, bottom.depths, knowledge, positives, negatives, steps, maxBody⟩

/-- The places among the given ones of the examples that follow from the knowledge and a clause. -/
def covered (s : HypothesisSpace) (c : Clause) (examples : List Clause) (places : List Nat) :
    List Nat :=
  match Store.ofClauses [c] with
  | .error _ => []
  | .ok store =>
    let lookup := (s.knowledge.under .owned store).candidates
    places.filter fun i => examples[i]?.any fun e => e.isCovered lookup s.steps

/-- A hypothesis scored on the examples at the given places. -/
def score (s : HypothesisSpace) (c : Clause) (chosen : List Nat) (cursor : Nat)
    (positives negatives : List Nat) : Hypothesis where
  clause := c
  chosen := chosen
  cursor := cursor
  missing := s.bottom.remainingDepth s.depths chosen
  positives := s.covered c s.positives positives
  negatives := s.covered c s.negatives negatives

/-- The bare head, scored on every example. -/
def root? (s : HypothesisSpace) : Option Hypothesis :=
  s.bottom.clause.head.map fun h =>
    s.score (Clause.fact h) [] 0 (List.range s.positives.length) (List.range s.negatives.length)

/-- The hypotheses with one more atom.  They are scored on the examples that the hypothesis covers,
since none covers more. -/
def refine (s : HypothesisSpace) (h : Hypothesis) : List Hypothesis :=
  if s.maxBody ≤ h.c then []
  else (s.bottom.body.zipIdx.drop h.cursor).map fun (a, k) =>
    s.score (h.clause.extended a) (h.chosen ++ [k]) (k + 1) h.positives h.negatives

/-- The largest body length as a number with a sign; a limit of 63 bits or more admits nothing. -/
def lengthLimit (s : HypothesisSpace) : Int := (Int64.ofNat s.maxBody).toInt

def withinLimit (s : HypothesisSpace) (h : Hypothesis) : Bool := (h.c : Int) ≤ s.lengthLimit

/-- Whether refining a hypothesis cannot help: it is good already, or nothing below it is. -/
def isPruned (s : HypothesisSpace) (h : Hypothesis) : Bool :=
  (h.n == 0 && decide (0 < h.f)) || decide (h.g ≤ 0) || !s.withinLimit h

/-- The better of two hypotheses, the earlier one when they are equal. -/
def better (best : Option (Nat × Hypothesis)) (candidate : Nat × Hypothesis) :
    Option (Nat × Hypothesis) :=
  match best with
  | none => some candidate
  | some b => if b.2.f < candidate.2.f then some candidate else some b

/-- The first of the best hypotheses within the length limit, with its place. -/
def best? (s : HypothesisSpace) (hs : List Hypothesis) : Option (Nat × Hypothesis) :=
  ((hs.zipIdx.map Prod.swap).filter fun e => s.withinLimit e.2).foldl better none

def bestSolution? (s : HypothesisSpace) (closed : List Hypothesis) : Option Hypothesis :=
  (s.best? (closed.filter Hypothesis.isSolution)).map Prod.snd

/-- Whether no open hypothesis can lead to a better solution than the one found. -/
def isFinished (s : HypothesisSpace) (closed opened : List Hypothesis) : Bool :=
  match s.best? opened with
  | none => true
  | some (_, o) => (s.bestSolution? closed).any fun b => decide (0 < b.f) && decide (o.g ≤ b.f)

/-- The state of a search: clauses met, hypotheses still to be refined and those that were, each in
the order in which they came. -/
structure State where
  seen : Std.HashSet Clause
  opened : List Hypothesis
  closed : List Hypothesis
  log : EventLog

namespace State

/-- Opens a hypothesis whose clause is new. -/
def push (st : State) (h : Hypothesis) : State :=
  if st.seen.contains h.clause then st
  else
    { st with
      seen := st.seen.insert h.clause
      opened := st.opened ++ [h]
      log := st.log.recordWith "Candidate" fun _ => h.text }

end State

/-- Refines the best open hypothesis. -/
def expand (s : HypothesisSpace) (st : State) (place : Nat) (h : Hypothesis) : State :=
  let st := { st with opened := st.opened.eraseIdx place }
  let st := if s.isPruned h then st else (s.refine h).foldl State.push st
  { st with closed := st.closed ++ [h] }

/-- How many hypotheses a search takes from the open ones. -/
def maxExpansions : Nat := 100

/-- Expands hypotheses until the search is finished or the given number is reached. -/
def explore (s : HypothesisSpace) : Nat → State → State
  | 0, st => st
  | n + 1, st =>
    match s.best? st.opened with
    | none => st
    | some (place, h) =>
      let st := s.expand st place h
      if s.isFinished st.closed st.opened then st else explore s n st

/-- Runs a search.  The best solution among the hypotheses taken up is its result. -/
def run (s : HypothesisSpace) (log : EventLog) : Option Hypothesis × EventLog :=
  match s.root? with
  | none => (none, log)
  | some root =>
    let st := s.explore maxExpansions (State.push ⟨∅, [], [], log⟩ root)
    (s.bestSolution? st.closed, st.log)

/-- The atoms of a hypothesis as they stand in the bottom clause. -/
def chosenAtoms (s : HypothesisSpace) (h : Hypothesis) : List Atom :=
  h.chosen.filterMap fun k => s.bottom.body[k]?

end HypothesisSpace
end Horn
