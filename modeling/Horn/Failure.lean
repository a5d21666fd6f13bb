import Horn.Source.Outline

/-!
What can go wrong, cause by cause, with the text of each.
-/

namespace Horn

/-- A fault in program text, with the place where reading stopped. -/
structure ParseError where
  line : Nat
  column : Nat
  reason : String
deriving DecidableEq, Inhabited

namespace ParseError

def message (e : ParseError) : String :=
  toString e.line ++ ":" ++ toString e.column ++ ": " ++ e.reason

end ParseError

/-- Why a file cannot be read or written. -/
inductive AccessError where
  | notFound
  | isDirectory
  | notDirectory
  | permissionDenied
  | nameTooLong
  | invalidName
  | invalidText
  | other (description : String)
deriving DecidableEq, Inhabited

namespace AccessError

def message : AccessError → String
  | .notFound => "No such file or directory (os error 2)"
  | .permissionDenied => "Permission denied (os error 13)"
  | .notDirectory => "Not a directory (os error 20)"
  | .isDirectory => "Is a directory (os error 21)"
  | .nameTooLong => "File name too long (os error 36)"
  | .invalidName => "file name contained an unexpected NUL byte"
  | .invalidText => "stream did not contain valid UTF-8"
  | .other description => description

end AccessError

/-- The causes of failure. -/
inductive Failure where
  | unknownMode (kind : ModeKind) (signature : Signature)
  | headlessClause (c : Clause)
  | headlessExample (c : Clause)
  | placeholderInClause (c : Clause)
  | variableInMode (v : Var) (kind : ModeKind) (atom : Predicate)
  | misfit (p : Predicate) (m : Mode) (why : UnifyFailure)
  | unknownOption (key : String)
  | expectsNumber (key value : String)
  | expectsFlag (key value : String)
  | misplacedQuery (g : Goal)
  | misplacedDirective (d : Directive)
  | notGenerator (s : Statement)
  | missingDomain (v : Var)
  | readOnlyStore
  | parse (e : ParseError)
  | access (path : String) (why : AccessError)

/-- The classes that callers tell apart. -/
inductive FailureKind where
  | unknownMode
  | malformedInput
  | readOnlyStore
  | parse
  | access
deriving DecidableEq

namespace Failure

def kind : Failure → FailureKind
  | .unknownMode .. => .unknownMode
  | .readOnlyStore => .readOnlyStore
  | .parse _ => .parse
  | .access .. => .access
  | _ => .malformedInput

def inQuotes (s : String) : String := "`" ++ s ++ "`"

/-- The text of a failure without the words that name its class. -/
def detail : Failure → String
  | .unknownMode kind signature =>
    "no " ++ kind.keyword ++ " declaration matches " ++ signature.text
  | .headlessClause c => "clause " ++ inQuotes c.text ++ " has no predicate head"
  | .headlessExample c => "example " ++ inQuotes c.text ++ " has no predicate head"
  | .placeholderInClause c => "mode placeholder in clause " ++ inQuotes c.text
  | .variableInMode v kind atom =>
    "variable " ++ v.text ++ " in " ++ kind.keyword ++ " declaration for " ++ atom.text
  | .misfit p m why =>
    "example " ++ inQuotes p.text ++ " does not fit " ++ m.text ++ ": " ++ why.message
  | .unknownOption key => "unknown option " ++ inQuotes key
  | .expectsNumber key value =>
    "option " ++ inQuotes key ++ " expects a number, got " ++ inQuotes value
  | .expectsFlag key value =>
    "option " ++ inQuotes key ++ " expects true or false, got " ++ inQuotes value
  | .misplacedQuery g => "query " ++ inQuotes g.text ++ " is not a declaration"
  | .misplacedDirective d => "directive " ++ d.outline.text ++ " is not a declaration"
  | .notGenerator s => s.outline.text ++ " is not a generator rule or mode"
  | .missingDomain v => "no domain given for variable " ++ v.text
  | .readOnlyStore => "knowledge layer is read-only"
  | .parse e => e.message
  | .access path why => path ++ ": " ++ why.message

def message (f : Failure) : String :=
  match f.kind with
  | .malformedInput => "malformed input: " ++ f.detail
  | .parse => "parse error: " ++ f.detail
  | .access => "cannot access " ++ f.detail
  | .unknownMode | .readOnlyStore => f.detail

end Failure
end Horn
