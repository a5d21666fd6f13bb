import Horn.Failure
import Horn.Json
import Horn.Text.Blank

/-!
The options of searching and learning, with their textual and their JSON form.
-/

namespace Horn

/-- The options. -/
structure Options where
  /-- The rounds of saturation. -/
  i : Nat
  /-- The largest number of body atoms of a learned clause. -/
  c : Nat
  /-- The steps of one query. -/
  h : Nat
  /-- The largest number of clauses learned in one induction. -/
  maxClauses : Nat
  /-- The answers that a mode without a bound contributes. -/
  maxRecall : Nat
  /-- Whether learned clauses join the background. -/
  updateKnowledge : Bool
  /-- Whether inductions keep their event logs. -/
  logging : Bool
  verbose : Nat
  /-- Whether the variables of bottom clauses are named `A`, `B` and so on. -/
  genericVariableNames : Bool
deriving DecidableEq

namespace Options

def default : Options where
  i := 2
  c := 2
  h := 10000
  maxClauses := 100
  maxRecall := 100
  updateKnowledge := true
  logging := false
  verbose := 0
  genericVariableNames := true

instance : Inhabited Options := ⟨default⟩

end Options

/-- The keys of the options. -/
inductive OptionKey where
  | i
  | c
  | h
  | maxClauses
  | maxRecall
  | updateKnowledge
  | logging
  | verbose
  | genericVariableNames
deriving DecidableEq

/-- The value of an option. -/
inductive OptionValue where
  | number (n : Nat)
  | flag (b : Bool)
deriving DecidableEq

namespace OptionValue

def text : OptionValue → String
  | .number n => toString n
  | .flag b => if b then "true" else "false"

def json : OptionValue → Json
  | .number n => .nat n
  | .flag b => .bool b

end OptionValue

namespace OptionKey

/-- The keys in the order in which options are listed. -/
def all : List OptionKey :=
  [.i, .c, .h, .maxClauses, .maxRecall, .updateKnowledge, .logging, .verbose,
    .genericVariableNames]

def name : OptionKey → String
  | .i => "i"
  | .c => "c"
  | .h => "h"
  | .maxClauses => "max_clauses"
  | .maxRecall => "max_recall"
  | .updateKnowledge => "update_knowledge"
  | .logging => "logging"
  | .verbose => "verbose"
  | .genericVariableNames => "generic_variable_names"

/-- Names under which a key is known everywhere. -/
def names : OptionKey → List String
  | .maxClauses => ["max_clauses", "maxClauses"]
  | .maxRecall => ["max_recall", "maxRecall"]
  | .updateKnowledge => ["update_knowledge", "updateKnowledge"]
  | .genericVariableNames => ["generic_variable_names", "genericVariableNames"]
  | k => [k.name]

/-- The key of a name.  Settings may also write one of the names in small letters. -/
def ofName? (s : String) : Option OptionKey :=
  if s = "maxclauses" then some .maxClauses else all.find? fun k => k.names.contains s

/-- The first number too large for an option, or none for a flag. -/
def bound? : OptionKey → Option Nat
  | .verbose => some UInt8.size
  | .updateKnowledge | .logging | .genericVariableNames => none
  | _ => some UInt64.size

end OptionKey

namespace Options

def get (o : Options) : OptionKey → OptionValue
  | .i => .number o.i
  | .c => .number o.c
  | .h => .number o.h
  | .maxClauses => .number o.maxClauses
  | .maxRecall => .number o.maxRecall
  | .updateKnowledge => .flag o.updateKnowledge
  | .logging => .flag o.logging
  | .verbose => .number o.verbose
  | .genericVariableNames => .flag o.genericVariableNames

/-- Changes an option; a value of the wrong kind changes nothing. -/
def put (o : Options) : OptionKey → OptionValue → Options
  | .i, .number n => { o with i := n }
  | .c, .number n => { o with c := n }
  | .h, .number n => { o with h := n }
  | .maxClauses, .number n => { o with maxClauses := n }
  | .maxRecall, .number n => { o with maxRecall := n }
  | .updateKnowledge, .flag b => { o with updateKnowledge := b }
  | .logging, .flag b => { o with logging := b }
  | .verbose, .number n => { o with verbose := n }
  | .genericVariableNames, .flag b => { o with genericVariableNames := b }
  | _, _ => o

/-! ## The textual form -/

/-- A number below the bound: digits, with a plus sign at most before them. -/
def number? (bound : Nat) (s : String) : Option Nat :=
  let digits := match s.toList with
    | '+' :: rest => rest
    | cs => cs
  if digits.isEmpty || !digits.all Char.isDigit then none
  else
    let n := digits.foldl (fun n c => 10 * n + (c.toNat - '0'.toNat)) 0
    if n < bound then some n else none

def flag? (s : String) : Option Bool :=
  if ["true", "yes", "on", "1"].contains s then some true
  else if ["false", "no", "off", "0"].contains s then some false
  else none

/-- Sets an option from text.  Blanks around the value do not count. -/
def set (o : Options) (key value : String) : Except Failure Options :=
  let value := Text.trim value
  match OptionKey.ofName? key with
  | none => .error (.unknownOption key)
  | some k =>
    match k.bound? with
    | some bound =>
      match number? bound value with
      | some n => .ok (o.put k (.number n))
      | none => .error (.expectsNumber key value)
    | none =>
      match flag? value with
      | some b => .ok (o.put k (.flag b))
      | none => .error (.expectsFlag key value)

/-- The keys and values in the order of listing. -/
def entries (o : Options) : List (String × String) :=
  OptionKey.all.map fun k => (k.name, (o.get k).text)

/-- The entries that differ from the defaults. -/
def changedEntries (o : Options) : List (String × String) :=
  ((OptionKey.all.filter fun k => o.get k != default.get k)).map fun k => (k.name, (o.get k).text)

/-! ## The JSON form -/

def toJson (o : Options) : Json := .object (OptionKey.all.map fun k => (k.name, (o.get k).json))

/-- The value that a JSON value gives to an option: an unsigned whole number or a flag. -/
def value? (k : OptionKey) (j : Json) : Option OptionValue :=
  match k.bound?, j with
  | some bound, .number s =>
    if s.startsWith "+" then none else (number? bound s).map .number
  | none, .bool b => some (.flag b)
  | _, _ => none

/-- Reads one option from the fields of an object, where it may be missing but not stand twice. -/
def readField? (fields : List (String × Json)) (o : Options) (k : OptionKey) : Option Options :=
  match fields.filter fun f => k.names.contains f.1 with
  | [] => some o
  | [(_, j)] => (value? k j).map (o.put k)
  | _ => none

/-- Reads the values of options listed without their names.  The last options may be missing. -/
def readValues? (o : Options) : List OptionKey → List Json → Option Options
  | _, [] => some o
  | [], _ :: _ => none
  | k :: keys, j :: values => do readValues? (o.put k (← value? k j)) keys values

/-- Reads options over the defaults: from an object, where unknown fields are ignored, or from an
array of values in the order of listing. -/
def ofJson? : Json → Option Options
  | .object fields => OptionKey.all.foldlM (readField? fields) default
  | .array values => readValues? default OptionKey.all values
  | _ => none

end Options
end Horn
