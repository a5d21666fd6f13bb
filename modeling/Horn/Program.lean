import Horn.Learning.Induction
import Horn.Source.Grammar

/-!
Programs.  A program holds what a learner needs: options, background clauses, modes and examples,
and the event logs of past inductions.  It grows by declarations; a single declaration is made
whole or not at all, while a text of several keeps those before the one that fails.
-/

namespace Horn

/-- A learning problem with its background. -/
structure Program where
  options : Options
  knowledge : Store
  modes : ModeTable
  examples : Examples
  /-- The logs of inductions, the oldest first. -/
  logs : List EventGroup

namespace Program

def empty : Program := ⟨Options.default, Store.empty, ModeTable.empty, Examples.empty, []⟩

instance : Inhabited Program := ⟨empty⟩

/-! ## Declarations -/

/-- Adds a clause to the background.  The answer tells whether it was new. -/
def addClause (p : Program) (c : Clause) : Except Failure (Bool × Program) := do
  let (isNew, knowledge) ← p.knowledge.add c
  return (isNew, { p with knowledge := knowledge })

def addPositive (p : Program) (c : Clause) : Except Failure Program := do
  return { p with examples := ← p.examples.addPositive c }

def addNegative (p : Program) (c : Clause) : Except Failure Program := do
  return { p with examples := ← p.examples.addNegative c }

/-- Adds a clause where its section puts it. -/
def addTo (p : Program) (s : Section) (c : Clause) : Except Failure Program :=
  match s with
  | .background => (p.addClause c).map Prod.snd
  | .positive => p.addPositive c
  | .negative => p.addNegative c

def addMode (p : Program) (m : Mode) : Program := { p with modes := (p.modes.addMode m).2 }

def addDetermination (p : Program) (d : Determination) : Except Failure Program := do
  return { p with modes := ← p.modes.addDetermination d }

def set (p : Program) (key value : String) : Except Failure Program := do
  return { p with options := ← p.options.set key value }

/-- Makes one declaration inside a section.  The answer holds the section that follows it.  Queries
and directives declare nothing. -/
def declare (p : Program) (s : Section) : Statement → Except Failure (Program × Section)
  | .clause c => return (← p.addTo s c, s)
  | .mode m => .ok (p.addMode m, s)
  | .determination d => return (← p.addDetermination d, s)
  | .set key value => return (← p.set key value, s)
  | .enter b => .ok (p, b)
  | .leave _ => .ok (p, .background)
  | .query g => .error (.misplacedQuery g)
  | .directive d => .error (.misplacedDirective d)

/-- Makes declarations one after the other, up to the first that fails. -/
def declareAll (p : Program) (s : Section) : List Statement → Except Failure Unit × Program
  | [] => (.ok (), p)
  | st :: rest =>
    match p.declare s st with
    | .error e => (.error e, p)
    | .ok (q, t) => declareAll q t rest

/-- Makes the declarations of a program text.  A text that cannot be read declares nothing. -/
def load (p : Program) (source : String) : Except Failure Unit × Program :=
  match Source.parseStatements source with
  | .error e => (.error (.parse e), p)
  | .ok statements => p.declareAll .background statements

/-- The program of a text. -/
def ofSource (source : String) : Except Failure Program :=
  match empty.load source with
  | (.ok (), p) => .ok p
  | (.error e, _) => .error e

/-! ## The text of a program -/

/-- The lines of a section, between its marks; an empty section has none. -/
def sectionLines (s : Section) (examples : List Clause) : List String :=
  if examples.isEmpty then []
  else (":- " ++ s.beginMark) :: examples.map Clause.text ++ [":- " ++ s.endMark]

/-- The statements of the program's text, without the points at their ends. -/
def statementTexts (p : Program) : List String :=
  p.options.changedEntries.map (fun (key, value) => "set(" ++ key ++ ", " ++ value ++ ")") ++
    p.modes.modes.map Mode.text ++ p.modes.determinations.map Determination.text ++
    p.knowledge.clauses.map Clause.text ++ sectionLines .positive p.examples.positive ++
    sectionLines .negative p.examples.negative

/-- Program text that declares the same options, modes, clauses and examples, one statement on a
line. -/
def source (p : Program) : String := String.join (p.statementTexts.map fun s => s ++ ".\n")

/-! ## Queries -/

/-- All answers of a goal from the background under given options. -/
def solveWith (p : Program) (g : Goal) (options : Options) : QueryResult :=
  g.solve p.knowledge.candidates options.h

def solve (p : Program) (g : Goal) : QueryResult := p.solveWith g p.options

/-- All answers of a goal given as text. -/
def query (p : Program) (text : String) : Except Failure QueryResult :=
  match Source.parseGoal text with
  | .error e => .error (.parse e)
  | .ok g => .ok (p.solve g)

/-- Whether a clause holds in the background: no instance of its body is provable without that of
its head. -/
def verify (p : Program) (c : Clause) : Bool :=
  (Goal.verificationOf c).succeeds p.knowledge.candidates p.options.h

/-! ## Induction -/

/-- Learns clauses for the positive examples.  They join the background, and the log is kept, as
the options say. -/
def induceWith (p : Program) (options : Options) : Except Failure (Induction × Program) := do
  let learner : Learner :=
    ⟨LayeredStore.ofStore p.knowledge, p.modes, p.examples.negative, options⟩
  let i ← learner.induce p.examples.positive
  let knowledge ← if options.updateKnowledge then p.knowledge.addAll i.learned else pure p.knowledge
  let logs := if options.logging then p.logs ++ [i.log] else p.logs
  return (i, { p with knowledge := knowledge, logs := logs })

def induce (p : Program) : Except Failure (Induction × Program) := p.induceWith p.options

end Program
end Horn
