import Horn.Session

/-!
The console.  A line of input is a text of statements; what is shown for it are the texts of their
outcomes, one below the other, or the failure of the first that fails.
-/

namespace Horn

/-- A session at a console. -/
structure Console where
  session : Session
  /-- Whether the user asked to leave. -/
  finished : Bool

namespace Console

def ofSession (s : Session) : Console := ⟨s, false⟩

/-- The answer to a line that asks for help. -/
def help : String :=
  String.intercalate "\n"
    ["Statements:",
      "  fact(a).  head(X) :- body(X).     add a background clause",
      "  modeh(*, p(+t, -t)).  modeb(...). declare modes",
      "  ?- goal.                          run a query",
      "Directives:",
      "  :load FILE  :save FILE            read or write a program",
      "  :set KEY VALUE                    set an option (i, c, h, max_clauses, ...)",
      "  :pos EXAMPLE  :neg EXAMPLE        add an example",
      "  :induce                           learn clauses for the examples",
      "  :verify CLAUSE                    check a clause against the background",
      "  :next                             next answer of the last query",
      "  :show  :log  :help  :quit"]

/-- What invites the user to enter a line. -/
def prompt : String := "| "

variable {m : Type → Type} [Monad m] [FileAccess m]

/-- Answers a line of input.  A statement that asks to leave finishes the console, even when a later
one fails. -/
def process (c : Console) (line : String) : m (Except Failure String × Console) := do
  let line := Text.trim line
  if line.isEmpty then return (.ok "", c)
  else if line = ":help" then return (.ok help, c)
  else
    let x ← c.session.run line
    let texts := x.result.map fun outcomes => String.intercalate "\n" (outcomes.map Outcome.text)
    return (texts, ⟨x.session, c.finished || x.outcomes.any Outcome.isQuit⟩)

/-- The text printed for the answer to a line. -/
def shown : Except Failure String → String
  | .ok text => if text.isEmpty then "" else text ++ "\n"
  | .error e => "Error: " ++ e.message ++ "\n"

/-- Everything printed while lines are entered, up to the one that leaves or the end. -/
def transcript (c : Console) : List String → m String
  | [] => return if c.finished then "" else prompt
  | line :: rest => do
    if c.finished then return ""
    let (result, c) ← c.process line
    return prompt ++ shown result ++ (← transcript c rest)

end Console
end Horn
