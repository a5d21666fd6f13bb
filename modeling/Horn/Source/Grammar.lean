import Horn.Source.Cursor

/-!
The grammar of program text, by recursive descent.  Each function reads one construct from a cursor;
the tokens left decrease from call to call.  Operators of one level are read in a loop that builds
the left-associative expression, and powers recurse to the right.
-/

namespace Horn
namespace Source

/-! ## Terms -/

/-- How a term starts. -/
inductive TermStart where
  | var (name : String)
  | constant (c : Constant)
  | word (s : String)
  | list
  | signed (sign : Sign)

namespace TermStart

/-- The sign of a placeholder that starts with an operator. -/
def signOf? : String → Option Sign
  | "+" => some .input
  | "-" => some .output
  | "#" => some .constant
  | _ => none

def ofToken? : Token → Option TermStart
  | .leftBracket => some .list
  | .var name => some (.var name)
  | .int n => some (.constant (.int n))
  | .float x => some (.constant (.float x))
  | .string s => some (.constant (.symbol s))
  | .atom s => some (.word s)
  | .op symbol => (signOf? symbol).map .signed
  | _ => none

end TermStart

/-- What may follow a sign: a type name and, after a minus, a number. -/
def signedTerm? (sign : Sign) : Token → Option Term
  | .int n => if sign = .output then some (Term.int (-n)) else none
  | .float x => if sign = .output then some (Term.float x.neg) else none
  | .atom typeName => some (.placeholder ⟨sign, typeName⟩)
  | _ => none

mutual
/-- Reads a term. -/
def term (c : Cursor) : Reading Term c.size := do
  match ← c.require TermStart.ofToken? "a term" with
  | ⟨.var name, c1, h1⟩ =>
    if name = "_" then return ⟨.var c1.nextAnonymous.1, c1.nextAnonymous.2, h1⟩
    else return ⟨.var (Var.named name), c1, h1⟩
  | ⟨.constant k, c1, h1⟩ => return ⟨.const k, c1, h1⟩
  | ⟨.word s, c1, h1⟩ =>
    match ← c1.acceptToken .leftParen with
    | none => return ⟨Term.symbol s, c1, h1⟩
    | some ⟨_, c2, h2⟩ =>
      let ⟨args, c3, h3⟩ ← terms .rightParen c2
      let ⟨_, c4, h4⟩ ← c3.expect .rightParen
      return ⟨Term.app s args, c4, by omega⟩
  | ⟨.list, c1, h1⟩ =>
    let ⟨items, c2, h2⟩ ← terms .rightBracket c1
    match ← c2.acceptToken .bar with
    | none =>
      let ⟨_, c3, h3⟩ ← c2.expect .rightBracket
      return ⟨Term.listOf items none, c3, by omega⟩
    | some ⟨_, c3, h3⟩ =>
      let ⟨tail, c4, h4⟩ ← term c3
      let ⟨_, c5, h5⟩ ← c4.expect .rightBracket
      return ⟨Term.listOf items (some tail), c5, by omega⟩
  | ⟨.signed sign, c1, h1⟩ =>
    match ← c1.accept (signedTerm? sign) with
    | some p => return p.since (Nat.le_of_lt h1)
    | none => c1.fail ("unexpected " ++ c1.current.text ++ " after '" ++ sign.text ++ "'")
termination_by (c.size, 0)

/-- Reads terms separated by commas.  There may be none before the closing token or a bar. -/
def terms (close : Token) (c : Cursor) : Reading (List Term) (c.size + 1) := do
  if c.current = close ∨ c.current = .bar then return ⟨[], c, Nat.lt_succ_self _⟩
  else
    let ⟨t, c1, h1⟩ ← term c
    let ⟨rest, c2, h2⟩ ← moreTerms c1
    return ⟨t :: rest, c2, by omega⟩
termination_by (c.size, 1)

/-- Reads the terms after a first one. -/
def moreTerms (c : Cursor) : Reading (List Term) (c.size + 1) := do
  match ← c.acceptToken .comma with
  | none => return ⟨[], c, Nat.lt_succ_self _⟩
  | some ⟨_, c1, h1⟩ =>
    let ⟨t, c2, h2⟩ ← term c1
    let ⟨rest, c3, h3⟩ ← moreTerms c2
    return ⟨t :: rest, c3, by omega⟩
termination_by (c.size, 0)
end

/-! ## Expressions -/

def additive? : Token → Option BinOp
  | .op "+" => some .add
  | .op "-" => some .sub
  | _ => none

def multiplicative? : Token → Option BinOp
  | .op "*" => some .mul
  | .op "/" => some .div
  | .op "//" => some .intDiv
  | .atom "mod" => some .mod
  | _ => none

def function? : Token → Option MathFn
  | .atom s => MathFn.ofName? s
  | _ => none

/-- Whether a minus before this token is the sign of a number. -/
def isNumber : Token → Bool
  | .int _ => true
  | .float _ => true
  | _ => false

mutual
/-- Reads a sum. -/
def expr (c : Cursor) : Reading Expr c.size := do
  let ⟨left, c1, h1⟩ ← product c
  let ⟨e, c2, h2⟩ ← moreSummands left c1
  return ⟨e, c2, by omega⟩
termination_by (c.size, 4)

def moreSummands (left : Expr) (c : Cursor) : Reading Expr (c.size + 1) := do
  match ← c.accept additive? with
  | none => return ⟨left, c, Nat.lt_succ_self _⟩
  | some ⟨op, c1, h1⟩ =>
    let ⟨right, c2, h2⟩ ← product c1
    let ⟨e, c3, h3⟩ ← moreSummands (.binary op left right) c2
    return ⟨e, c3, by omega⟩
termination_by (c.size, 0)

/-- Reads a product. -/
def product (c : Cursor) : Reading Expr c.size := do
  let ⟨left, c1, h1⟩ ← power c
  let ⟨e, c2, h2⟩ ← moreFactors left c1
  return ⟨e, c2, by omega⟩
termination_by (c.size, 3)

def moreFactors (left : Expr) (c : Cursor) : Reading Expr (c.size + 1) := do
  match ← c.accept multiplicative? with
  | none => return ⟨left, c, Nat.lt_succ_self _⟩
  | some ⟨op, c1, h1⟩ =>
    let ⟨right, c2, h2⟩ ← power c1
    let ⟨e, c3, h3⟩ ← moreFactors (.binary op left right) c2
    return ⟨e, c3, by omega⟩
termination_by (c.size, 0)

/-- Reads a power. -/
def power (c : Cursor) : Reading Expr c.size := do
  let ⟨base, c1, h1⟩ ← unary c
  match ← c1.acceptToken (.op "**") with
  | none => return ⟨base, c1, h1⟩
  | some ⟨_, c2, h2⟩ =>
    let ⟨exponent, c3, h3⟩ ← power c2
    return ⟨.binary .pow base exponent, c3, by omega⟩
termination_by (c.size, 2)

/-- Reads an operand with minus signs before it.  A minus right before a number belongs to the
number. -/
def unary (c : Cursor) : Reading Expr c.size := do
  if c.current = .op "-" then
    if isNumber (← c.peek) then
      let ⟨t, c1, h1⟩ ← term c
      return ⟨.term t, c1, h1⟩
    else
      let ⟨_, c1, h1⟩ ← c.expect (.op "-")
      let ⟨e, c2, h2⟩ ← unary c1
      return ⟨.neg e, c2, by omega⟩
  else primary c
termination_by (c.size, 1)

/-- Reads an expression in parentheses, a function call or a term. -/
def primary (c : Cursor) : Reading Expr c.size := do
  match ← c.acceptToken .leftParen with
  | some ⟨_, c1, h1⟩ =>
    let ⟨e, c2, h2⟩ ← expr c1
    let ⟨_, c3, h3⟩ ← c2.expect .rightParen
    return ⟨e, c3, by omega⟩
  | none =>
    match ← c.acceptCall function? with
    | some ⟨f, c1, h1⟩ =>
      let ⟨e, c2, h2⟩ ← expr c1
      let ⟨_, c3, h3⟩ ← c2.expect .rightParen
      return ⟨.call f e, c3, by omega⟩
    | none =>
      let ⟨t, c1, h1⟩ ← term c
      return ⟨.term t, c1, h1⟩
termination_by (c.size, 0)
end

/-! ## Atoms and literals -/

def comparison? : Token → Option CompareOp
  | .op "=" => some .unify
  | .op "\\=" => some .notUnify
  | .op "==" => some .identical
  | .op "\\==" => some .notIdentical
  | .op "@<" => some .before
  | .op "@=<" => some .beforeEq
  | .op "@<=" => some .beforeEq
  | .op "@>" => some .after
  | .op "@>=" => some .afterEq
  | .op "=:=" => some .arithEq
  | .op "=\\=" => some .arithNe
  | .op "<" => some .less
  | .op "=<" => some .lessEq
  | .op "<=" => some .lessEq
  | .op ">" => some .greater
  | .op ">=" => some .greaterEq
  | .atom "is" => some .is
  | _ => none

end Source

/-- The predicate that a term in the place of an atom stands for. -/
def Term.asPredicate : Term → Option Predicate
  | .const (.symbol name) => some ⟨name, []⟩
  | .compound name args => some ⟨name, args⟩
  | _ => none

/-- The predicate that an expression in the place of an atom stands for.  A function applied to a
term is an ordinary predicate there. -/
def Expr.asPredicate : Expr → Option Predicate
  | .term t => t.asPredicate
  | .call f (.term t) => some ⟨f.name, [t]⟩
  | _ => none

namespace Source

/-- Reads a predicate or a comparison. -/
def atom (c : Cursor) : Reading Atom c.size := do
  let ⟨left, c1, h1⟩ ← expr c
  match ← c1.accept comparison? with
  | some ⟨op, c2, h2⟩ =>
    let ⟨right, c3, h3⟩ ← expr c2
    return ⟨.compare ⟨op, left, right⟩, c3, by omega⟩
  | none =>
    match left.asPredicate with
    | some p => return ⟨.predicate p, c1, h1⟩
    | none => c1.fail ("`" ++ left.text ++ "` is not a predicate")

def not? : Token → Option Unit
  | .atom "not" => some ()
  | _ => none

mutual
/-- Reads literals separated by commas. -/
def literals (c : Cursor) : Reading Goal c.size := do
  let ⟨l, c1, h1⟩ ← literal c
  let ⟨rest, c2, h2⟩ ← moreLiterals c1
  return ⟨l :: rest, c2, by omega⟩
termination_by (c.size, 1)

def moreLiterals (c : Cursor) : Reading Goal (c.size + 1) := do
  match ← c.acceptToken .comma with
  | none => return ⟨[], c, Nat.lt_succ_self _⟩
  | some ⟨_, c1, h1⟩ =>
    let ⟨l, c2, h2⟩ ← literal c1
    let ⟨rest, c3, h3⟩ ← moreLiterals c2
    return ⟨l :: rest, c3, by omega⟩
termination_by (c.size, 0)

/-- Reads an atom or a negation. -/
def literal (c : Cursor) : Reading Literal c.size := do
  match ← c.acceptCall not? with
  | some ⟨_, c1, h1⟩ =>
    let ⟨g, c2, h2⟩ ← literals c1
    let ⟨_, c3, h3⟩ ← c2.expect .rightParen
    return ⟨.not g, c3, by omega⟩
  | none =>
    match ← c.acceptToken (.op "\\+") with
    | none =>
      let ⟨a, c1, h1⟩ ← atom c
      return ⟨.atom a, c1, h1⟩
    | some ⟨_, c1, h1⟩ =>
      match ← c1.acceptToken .leftParen with
      | some ⟨_, c2, h2⟩ =>
        let ⟨g, c3, h3⟩ ← literals c2
        let ⟨_, c4, h4⟩ ← c3.expect .rightParen
        return ⟨.not g, c4, by omega⟩
      | none =>
        let ⟨l, c2, h2⟩ ← literal c1
        return ⟨.not [l], c2, by omega⟩
termination_by (c.size, 0)
end

/-! ## Clauses -/

/-- The atoms of a goal without negations. -/
def positiveAtoms? (g : Goal) : Option (List Atom) :=
  g.mapM fun
    | .atom a => some a
    | .not _ => none

/-- Refuses a goal with negations. -/
def bodyAtoms (c : Cursor) (g : Goal) : Except Fault (List Atom) :=
  match positiveAtoms? g with
  | some body => .ok body
  | none => c.fail "negation is only allowed in queries"

/-- Reads a clause up to the point at its end. -/
def clause (c : Cursor) : Reading Clause c.size := do
  let ⟨head, c1, h1⟩ ← atom c
  match head with
  | .compare k => c1.fail ("clause head `" ++ k.text ++ "` is not a predicate")
  | .predicate p =>
    match ← c1.acceptToken .neck with
    | none => return ⟨.fact (.predicate p), c1, h1⟩
    | some ⟨_, c2, h2⟩ =>
      let ⟨g, c3, h3⟩ ← literals c2
      let body ← bodyAtoms c3 g
      return ⟨.rule (.predicate p) body, c3, by omega⟩

/-- Reads the point at the end of a statement; at the end of the text it may be missing. -/
def endOfStatement (c : Cursor) : Reading Unit (c.size + 1) := do
  match ← c.acceptToken .dot with
  | some p => return p.since (Nat.le_succ _)
  | none =>
    if c.current = .endOfText then return ⟨(), c, Nat.lt_succ_self _⟩
    else c.unexpected "'.'"

/-- Reads a section mark or a denial. -/
def neckStatement (c : Cursor) : Reading Statement c.size := do
  let ⟨_, c1, h1⟩ ← c.expect .neck
  let ⟨g, c2, h2⟩ ← literals c1
  let ⟨_, c3, h3⟩ ← endOfStatement c2
  let mark? : Option Statement := match g with
    | [.atom (.predicate ⟨name, []⟩)] =>
      (Section.ofBeginMark? name).map .enter <|> (Section.ofEndMark? name).map .leave
    | _ => none
  match mark? with
  | some s => return ⟨s, c3, by omega⟩
  | none =>
    let body ← bodyAtoms c3 g
    return ⟨.clause (.denial body), c3, by omega⟩

/-! ## Declarations -/

def name? : Token → Option String
  | .atom s => some s
  | _ => none

/-- A number of things, which is never negative. -/
def count? : Token → Option Nat
  | .int n => if 0 ≤ n then some n.toInt.toNat else none
  | _ => none

def recallOf? : Token → Option Recall
  | .op "*" => some .unbounded
  | t => (count? t).map .bounded

/-- A bare word, a number or a string, as text. -/
def value? : Token → Option String
  | .atom s => some s
  | .var s => some s
  | .string s => some s
  | .int n => some (toString n.toInt)
  | .float x => some x.plainText
  | _ => none

/-- Reads a name and an arity. -/
def signature (c : Cursor) : Reading Signature c.size := do
  let ⟨name, c1, h1⟩ ← c.require name? "predicate name"
  let ⟨_, c2, h2⟩ ← c1.expect (.op "/")
  let ⟨arity, c3, h3⟩ ← c2.require count? "arity"
  return ⟨⟨name, arity⟩, c3, by omega⟩

def moreSignatures (c : Cursor) : Reading (List Signature) (c.size + 1) := do
  match ← c.acceptToken .comma with
  | none => return ⟨[], c, Nat.lt_succ_self _⟩
  | some ⟨_, c1, h1⟩ =>
    let ⟨s, c2, h2⟩ ← signature c1
    let ⟨rest, c3, h3⟩ ← moreSignatures c2
    return ⟨s :: rest, c3, by omega⟩
termination_by c.size

/-- Reads the inside of a mode declaration. -/
def mode (kind : ModeKind) (c : Cursor) : Reading Statement c.size := do
  let ⟨recalls, c1, h1⟩ ← c.require recallOf? "recall (integer or '*')"
  let ⟨_, c2, h2⟩ ← c1.expect .comma
  let ⟨t, c3, h3⟩ ← term c2
  match t.asPredicate with
  | none => c3.fail (kind.keyword ++ " expects a predicate")
  | some p =>
    match Mode.make kind recalls p with
    | .error v => c3.fail (Failure.variableInMode v kind p).message
    | .ok m => return ⟨.mode m, c3, by omega⟩

/-- Reads the inside of a determination. -/
def determination (c : Cursor) : Reading Statement c.size := do
  let ⟨head, c1, h1⟩ ← signature c
  let ⟨body, c2, h2⟩ ← moreSignatures c1
  return ⟨.determination ⟨head, body⟩, c2, by omega⟩

/-- Reads the inside of an option setting. -/
def setting (c : Cursor) : Reading Statement c.size := do
  let ⟨key, c1, h1⟩ ← c.require value? "a value"
  let ⟨_, c2, h2⟩ ← c1.expect .comma
  let ⟨value, c3, h3⟩ ← c2.require value? "a value"
  return ⟨.set key value, c3, by omega⟩

/-- The words that open a declaration when a parenthesis follows. -/
inductive Declaration where
  | mode (kind : ModeKind)
  | determination
  | setting

def declaration? : Token → Option Declaration
  | .atom "modeh" => some (.mode .head)
  | .atom "modeb" => some (.mode .body)
  | .atom "determination" => some .determination
  | .atom "set" => some .setting
  | _ => none

/-- Reads a declaration after its opening parenthesis. -/
def declaration (kind : Declaration) (c : Cursor) : Reading Statement c.size := do
  let ⟨s, c1, h1⟩ ← match kind with
    | .mode kind => mode kind c
    | .determination => determination c
    | .setting => setting c
  let ⟨_, c2, h2⟩ ← c1.expect .rightParen
  let ⟨_, c3, h3⟩ ← endOfStatement c2
  return ⟨s, c3, by omega⟩

/-! ## Directives -/

def path? : Token → Option String
  | .string s => some s
  | .atom s => some s
  | _ => none

/-- Reads the file name of a directive. -/
def pathArgument (directive : String) (c : Cursor) : Reading String c.size := do
  match ← c.accept path? with
  | some p => return p
  | none => c.fail ("expected file name after :" ++ directive)

/-- Reads what a directive takes after its name. -/
def directiveArguments (name : String) (c : Cursor) : Reading Directive (c.size + 1) := do
  let plain (d : Directive) : Reading Directive (c.size + 1) := .ok ⟨d, c, Nat.lt_succ_self _⟩
  let withPath (d : String → Directive) : Reading Directive (c.size + 1) := do
    let ⟨path, c1, h1⟩ ← pathArgument name c
    return ⟨d path, c1, by omega⟩
  let withClause (d : Clause → Directive) : Reading Directive (c.size + 1) := do
    let ⟨k, c1, h1⟩ ← clause c
    return ⟨d k, c1, by omega⟩
  match name with
  | "load" => withPath .load
  | "save" => withPath .save
  | "set" =>
    let ⟨key, c1, h1⟩ ← c.require value? "a value"
    let ⟨value, c2, h2⟩ ← c1.require value? "a value"
    return ⟨.set key value, c2, by omega⟩
  | "pos" => withClause .pos
  | "neg" => withClause .neg
  | "verify" => withClause .verify
  | "induce" => plain .induce
  | "show" => plain .display
  | "log" => plain .log
  | "next" => plain .next
  | "quit" => plain .quit
  | _ => c.fail ("unknown directive: " ++ name)

/-- Reads a directive after its colon. -/
def directive (c : Cursor) : Reading Statement c.size := do
  match ← c.accept name? with
  | none => c.fail "expected directive name after ':'"
  | some ⟨name, c1, h1⟩ =>
    let ⟨d, c2, h2⟩ ← directiveArguments name c1
    let ⟨_, c3, h3⟩ ← endOfStatement c2
    return ⟨.directive d, c3, by omega⟩

/-! ## Statements and whole texts -/

/-- Reads a statement. -/
def statement (c : Cursor) : Reading Statement c.size := do
  match ← c.acceptCall declaration? with
  | some ⟨kind, c1, h1⟩ => return (← declaration kind c1).since (Nat.le_of_lt h1)
  | none =>
    match ← c.acceptToken .colon with
    | some ⟨_, c1, h1⟩ => return (← directive c1).since (Nat.le_of_lt h1)
    | none =>
      match ← c.acceptToken .query with
      | some ⟨_, c1, h1⟩ =>
        let ⟨g, c2, h2⟩ ← literals c1
        let ⟨_, c3, h3⟩ ← endOfStatement c2
        return ⟨.query g, c3, by omega⟩
      | none =>
        if c.current = .neck then neckStatement c
        else
          let ⟨k, c1, h1⟩ ← clause c
          let ⟨_, c2, h2⟩ ← endOfStatement c1
          return ⟨.clause k, c2, by omega⟩

/-- Reads statements to the end of the text. -/
def statements (c : Cursor) : Except Fault (List Statement) := do
  if c.current = .endOfText then return []
  else
    let ⟨s, c1, _h1⟩ ← statement c
    return s :: (← statements c1)
termination_by c.size

/-- Reads a whole text and gives faults their places. -/
def reading {α : Type} (source : String) (read : Cursor → Except Fault α) :
    Except ParseError α :=
  ((Cursor.start source).bind read).mapError fun f => f.locate source.toList

/-- Skips a token that may be missing. -/
def skipToken (c : Cursor) (t : Token) : Except Fault Cursor :=
  return ((← c.acceptToken t).map Parsed.rest).getD c

/-- The statements of a program text. -/
def parseStatements (source : String) : Except ParseError (List Statement) :=
  reading source statements

/-- A goal.  The sign before it and the point after it may be missing. -/
def parseGoal (source : String) : Except ParseError Goal :=
  reading source fun c => do
    let p ← literals (← skipToken c .query)
    (← skipToken p.rest .dot).expectEnd
    return p.value

/-- A clause.  The point after it may be missing. -/
def parseClause (source : String) : Except ParseError Clause :=
  reading source fun c => do
    let p ← clause c
    (← skipToken p.rest .dot).expectEnd
    return p.value

end Source
end Horn
