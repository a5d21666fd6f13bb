import Horn.Console

/-!
The command line.  Arguments are read in order and the first fault, or the first request for help
or the version, ends the reading.  A run either prints a report and ends, or greets the user and
opens a console.
-/

namespace Horn

/-- What a run is asked to do. -/
structure Invocation where
  /-- The program file to start from. -/
  file : Option String
  /-- Whether to learn from the file, print the result and end. -/
  induce : Bool
  verbose : Bool
deriving DecidableEq

/-- How a command line reads. -/
inductive CommandLine where
  | run (i : Invocation)
  | help
  | version
  | misused
deriving DecidableEq

namespace Invocation

def empty : Invocation := ⟨none, false, false⟩

end Invocation

namespace CommandLine

/-- A switch that may be given once. -/
inductive Switch where
  | induce
  | verbose
  | help
  | version
deriving DecidableEq

namespace Switch

def ofLong? : String → Option Switch
  | "induce" => some .induce
  | "verbose" => some .verbose
  | "help" => some .help
  | "version" => some .version
  | _ => none

def ofShort? : Char → Option Switch
  | 'v' => some .verbose
  | 'h' => some .help
  | 'V' => some .version
  | _ => none

end Switch

/-- Applies a switch, or ends the reading with the command line that it makes. -/
def applySwitch (i : Invocation) : Switch → Except CommandLine Invocation
  | .induce => if i.induce then .error .misused else .ok { i with induce := true }
  | .verbose => if i.verbose then .error .misused else .ok { i with verbose := true }
  | .help => .error .help
  | .version => .error .version

/-- Applies an optional switch; a missing one is a fault. -/
def applySwitch? (i : Invocation) : Option Switch → Except CommandLine Invocation
  | none => .error .misused
  | some s => applySwitch i s

/-- Takes the file.  There is only one, and its name is not empty. -/
def applyFile (i : Invocation) (path : String) : Except CommandLine Invocation :=
  if i.file.isSome || path.isEmpty then .error .misused else .ok { i with file := some path }

/-- Applies one argument: a long switch, short switches in a row, or the file. -/
def applyArgument (i : Invocation) (a : String) : Except CommandLine Invocation :=
  match a.toList with
  | '-' :: '-' :: name => applySwitch? i (Switch.ofLong? (String.ofList name))
  | '-' :: c :: rest => (c :: rest).foldlM (fun i c => applySwitch? i (Switch.ofShort? c)) i
  | _ => applyFile i a

/-- Applies arguments in order.  After two dashes every argument is a file. -/
def applyAll (i : Invocation) : List String → Except CommandLine Invocation
  | [] => .ok i
  | a :: rest =>
    if a = "--" then rest.foldlM applyFile i
    else do applyAll (← applyArgument i a) rest

/-- Reads a command line.  Learning needs a file. -/
def ofArguments (arguments : List String) : CommandLine :=
  match applyAll Invocation.empty arguments with
  | .error end_ => end_
  | .ok i => if i.induce && i.file.isNone then .misused else .run i

end CommandLine

/-- What a run prints, and the code that it ends with. -/
structure Report where
  code : Nat
  out : String
  err : String
deriving DecidableEq

namespace Report

/-- A report of success. -/
def success (out : String) : Report := ⟨0, out, ""⟩

/-- A report of a failure after some output. -/
def failure (out : String) (e : Failure) : Report := ⟨1, out, "Error: " ++ e.message ++ "\n"⟩

def usage : String :=
  "Usage: ilplog [OPTIONS] [FILE]\n"

def help : Report :=
  success <| String.join
    ["Inductive logic programming with mode-directed inverse entailment\n\n", usage,
      "\nArguments:\n  [FILE]  Program file to load\n\nOptions:\n",
      "      --induce   Induce clauses for the file's examples, print them and exit\n",
      "  -v, --verbose  Log learner progress\n",
      "  -h, --help     Print help\n",
      "  -V, --version  Print version\n"]

def version : Report := success "ilplog 0.1.0\n"

def misused : Report := ⟨2, "", "error: unexpected arguments\n\n" ++ usage⟩

end Report

/-- How a run goes on. -/
inductive Run where
  | ended (r : Report)
  | opened (greeting : String) (c : Console)

namespace Invocation

def greeting : String :=
  "ilplog - inductive logic programming\nType :help for help, :quit to exit.\n\n"

/-- The lines printed for an induction: the learned clauses, then the examples that are left. -/
def inductionText (i : Induction) : String :=
  String.join (i.learned.map (fun c => c.text ++ ".\n") ++
    i.uncovered.map fun e => "% uncovered: " ++ e.text ++ ".\n")

/-- The program with at least the given verbosity. -/
def atLeastVerbose (p : Program) (n : Nat) : Program :=
  { p with options := { p.options with verbose := max n p.options.verbose } }

/-- Learns from a program and reports the result. -/
def inductionReport (verbose : Bool) (p : Program) : Report :=
  match (if verbose then atLeastVerbose p 1 else p).induce with
  | .error e => Report.failure "" e
  | .ok (i, _) => Report.success (inductionText i)

variable {m : Type → Type} [Monad m] [FileAccess m]

/-- Learns from a file, or opens a console on it. -/
def start (i : Invocation) : m Run :=
  match i.file with
  | none => return .opened greeting (Console.ofSession Session.empty)
  | some path =>
    if i.induce then do
      match ← Program.ofFile path with
      | .error e => return .ended (Report.failure "" e)
      | .ok p => return .ended (inductionReport i.verbose p)
    else do
      match ← Session.empty.load path with
      | (.error e, _) => return .ended (Report.failure greeting e)
      | (.ok o, s) => return .opened (greeting ++ o.text ++ "\n") (Console.ofSession s)

end Invocation

namespace CommandLine

variable {m : Type → Type} [Monad m] [FileAccess m]

/-- Starts a run. -/
def start : CommandLine → m Run
  | .run i => i.start
  | .help => return .ended Report.help
  | .version => return .ended Report.version
  | .misused => return .ended Report.misused

/-- A whole run whose input is known beforehand. -/
def report (arguments : List String) (input : String) : m Report := do
  match ← (ofArguments arguments).start with
  | .ended r => return r
  | .opened greeting c => return Report.success (greeting ++ (← c.transcript (Text.lines input)))

end CommandLine
end Horn
