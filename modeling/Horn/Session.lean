import Horn.FileAccess

/-!
Sessions.  A session executes statements on a program: declarations change it, a goal is answered
one solution at a time, and directives load, save, learn and show.  Every statement has an outcome
with a text.
-/

namespace Horn

/-- One step through the answers of a goal. -/
inductive Answer where
  | solution (σ : Substitution)
  /-- There is no answer, or none besides those shown. -/
  | exhausted
  /-- The steps ran out before any answer. -/
  | resourceLimit

namespace Answer

def text : Answer → String
  | .solution σ => if σ.isEmpty then "true." else commaSeparated σ.bindingTexts
  | .exhausted => "false."
  | .resourceLimit => "resource limit reached."

end Answer

/-- What came of executing a statement. -/
inductive Outcome where
  | declared
  | answer (a : Answer)
  | loaded (path : String) (clauses : Nat)
  | saved (path : String)
  | optionSet (key value : String)
  | induced (learned : List Clause)
  | verified (holds : Bool)
  | program (source : String)
  | log (text : Option String)
  | quit

namespace Outcome

def isQuit : Outcome → Bool
  | .quit => true
  | _ => false

/-- The text shown to the user. -/
def text : Outcome → String
  | .declared => "ok."
  | .answer a => a.text
  | .loaded path clauses => "loaded " ++ path ++ " (" ++ toString clauses ++ " clauses)."
  | .saved path => "saved " ++ path ++ "."
  | .optionSet key value => key ++ " = " ++ value ++ "."
  | .induced learned =>
    if learned.isEmpty then "no clauses learned." else Learner.clauseLines learned
  | .verified holds => if holds then "true." else "false."
  | .program source => Text.trimRight source
  | .log text => (text.map Text.trimRight).getD "no induction log recorded."
  | .quit => "bye."

end Outcome

/-- A program being worked on. -/
structure Session where
  program : Program
  /-- The section that clauses are declared in. -/
  part : Section
  /-- The answers of the last goal that were not shown yet. -/
  pending : List Substitution
  /-- Whether the steps ran out before the last goal had an answer. -/
  limited : Bool

/-- What came of executing statements: their outcomes, the failure that stopped them if there was
one, and the session they left behind. -/
structure Executed where
  outcomes : List Outcome
  failure : Option Failure
  session : Session

namespace Executed

/-- The outcomes, unless a statement failed. -/
def result (x : Executed) : Except Failure (List Outcome) :=
  match x.failure with
  | none => .ok x.outcomes
  | some e => .error e

end Executed

namespace Session

def ofProgram (p : Program) : Session := ⟨p, .background, [], false⟩

def empty : Session := ofProgram Program.empty

instance : Inhabited Session := ⟨empty⟩

def withProgram (s : Session) (p : Program) : Session := { s with program := p }

/-- The next answer of the last goal. -/
def next (s : Session) : Answer × Session :=
  match s.pending with
  | σ :: rest => (.solution σ, { s with pending := rest })
  | [] => (if s.limited then .resourceLimit else .exhausted, s)

/-- Finds all answers of a goal and gives the first of them. -/
def query (s : Session) (g : Goal) : Answer × Session :=
  match s.program.solve g with
  | .answers answers => { s with pending := answers, limited := false }.next
  | .noAnswers => { s with pending := [], limited := false }.next
  | .resourceLimit => { s with pending := [], limited := true }.next

/-- Sets an option. -/
def set (s : Session) (key value : String) : Except Failure (Outcome × Session) := do
  let p ← s.program.set key value
  return (.optionSet key value, s.withProgram p)

/-- Learns clauses for the examples, and keeps the log whatever the options say. -/
def induce (s : Session) : Except Failure (Outcome × Session) := do
  let (i, p) ← s.program.induceWith { s.program.options with logging := true }
  return (.induced i.learned, s.withProgram p)

/-- Forgets the examples. -/
def clearExamples (s : Session) : Session :=
  s.withProgram { s.program with examples := Examples.empty }

/-- The result of a change made whole or not at all. -/
def settled (s : Session) (change : Except Failure (Outcome × Session)) :
    Except Failure Outcome × Session :=
  match change with
  | .ok (o, t) => (.ok o, t)
  | .error e => (.error e, s)

/-- The result of a step through the answers. -/
def answered (step : Answer × Session) : Except Failure Outcome × Session :=
  (.ok (.answer step.1), step.2)

variable {m : Type → Type} [Monad m] [FileAccess m]

/-- Makes the declarations of a file and counts the clauses they add to the background. -/
def load (s : Session) (path : String) : m (Except Failure Outcome × Session) := do
  let (result, p) ← s.program.loadFile path
  let gained := p.knowledge.size - s.program.knowledge.size
  return (result.map fun () => .loaded path gained, s.withProgram p)

/-- Writes the program's text to a file. -/
def save (s : Session) (path : String) : m (Except Failure Outcome × Session) := do
  let result ← s.program.save path
  return (result.map fun () => .saved path, s)

/-- Follows a directive. -/
def follow (s : Session) : Directive → m (Except Failure Outcome × Session)
  | .load path => s.load path
  | .save path => s.save path
  | .set key value => return s.settled (s.set key value)
  | .induce => return s.settled s.induce
  | .pos c => return s.settled do return (.declared, s.withProgram (← s.program.addPositive c))
  | .neg c => return s.settled do return (.declared, s.withProgram (← s.program.addNegative c))
  | .verify c => return (.ok (.verified (s.program.verify c)), s)
  | .display => return (.ok (.program s.program.source), s)
  | .log => return (.ok (.log (s.program.logs.getLast?.map EventGroup.text)), s)
  | .next => return answered s.next
  | .quit => return (.ok .quit, s)

/-- Executes a statement. -/
def execute (s : Session) : Statement → m (Except Failure Outcome × Session)
  | .query g => return answered (s.query g)
  | .directive d => s.follow d
  | .set key value => return s.settled (s.set key value)
  | declaration => return s.settled do
    let (p, part) ← s.program.declare s.part declaration
    return (.declared, { s with program := p, part := part })

/-- Executes statements up to the first that fails, and keeps what those before it did. -/
def executeAll (s : Session) : List Statement → m Executed
  | [] => return ⟨[], none, s⟩
  | st :: rest => do
    match ← s.execute st with
    | (.error e, s) => return ⟨[], some e, s⟩
    | (.ok o, s) =>
      let more ← executeAll s rest
      return { more with outcomes := o :: more.outcomes }

/-- Executes the statements of a text.  A text that cannot be read does nothing. -/
def run (s : Session) (source : String) : m Executed :=
  match Source.parseStatements source with
  | .error e => return ⟨[], some (.parse e), s⟩
  | .ok statements => s.executeAll statements

end Session
end Horn
