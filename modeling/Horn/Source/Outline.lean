import Horn.Source.Statement
import Horn.Text.Quoted

/-!
Structural descriptions of statements, as diagnostics show them when a statement is out of place:
every value with the name of its form and its parts.
-/

namespace Horn

/-- A structural description. -/
inductive Outline where
  | word (text : String)
  /-- A named form with parts in order, `Name(a, b)`. -/
  | form (name : String) (parts : List Outline)
  /-- A named form with named parts. -/
  | record (name : String) (fields : List (String × Outline))
  | list (items : List Outline)

namespace Outline

mutual
def text : Outline → String
  | .word s => s
  | .form name parts => name ++ "(" ++ textAll parts ++ ")"
  | .record name fields => name ++ " \x7b " ++ textFields fields ++ " \x7d"
  | .list items => "[" ++ textAll items ++ "]"

def textAll : List Outline → String
  | [] => ""
  | [o] => text o
  | o :: rest => text o ++ ", " ++ textAll rest

def textFields : List (String × Outline) → String
  | [] => ""
  | [(name, o)] => name ++ ": " ++ text o
  | (name, o) :: rest => name ++ ": " ++ text o ++ ", " ++ textFields rest
end

/-- A text in double quotes. -/
def quoted (s : String) : Outline := .word (Text.quote s)

def number (n : Nat) : Outline := .word (toString n)

def optional : Option Outline → Outline
  | none => .word "None"
  | some o => .form "Some" [o]

end Outline

def Constant.outline : Constant → Outline
  | .int n => .form "Int" [.word (toString n.toInt)]
  | .float x => .form "Float" [.word x.text]
  | .symbol s => .form "Symbol" [.quoted s]

def Var.outline (v : Var) : Outline :=
  .record "Var" [("symbol", .quoted v.symbol), ("tally", .number v.tally)]

def Sign.outline : Sign → Outline
  | .input => .word "Input"
  | .output => .word "Output"
  | .constant => .word "Constant"

def Placeholder.outline (p : Placeholder) : Outline :=
  .record "Placeholder" [("sign", p.sign.outline), ("type_name", .quoted p.typeName)]

namespace Term

mutual
def outline : Term → Outline
  | .const c => .form "Constant" [c.outline]
  | .var v => .form "Var" [v.outline]
  | .compound f args => .form "Compound" [.quoted f, .list (outlineAll args)]
  | .list items tail => .form "List" [.list (outlineAll items), .optional (outlineTail tail)]
  | .placeholder p => .form "Placeholder" [p.outline]

def outlineAll : List Term → List Outline
  | [] => []
  | t :: rest => outline t :: outlineAll rest

def outlineTail : Option Term → Option Outline
  | none => none
  | some t => some (outline t)
end

end Term

def BinOp.outline : BinOp → Outline
  | .add => .word "Add"
  | .sub => .word "Sub"
  | .mul => .word "Mul"
  | .div => .word "Div"
  | .intDiv => .word "IntDiv"
  | .mod => .word "Mod"
  | .pow => .word "Pow"

/-- A function is described by its name in title case. -/
def MathFn.outline (f : MathFn) : Outline := .word f.name.capitalize

def Expr.outline : Expr → Outline
  | .term t => .form "Term" [t.outline]
  | .binary op l r => .form "Binary" [op.outline, l.outline, r.outline]
  | .neg e => .form "Neg" [e.outline]
  | .call f e => .form "Call" [f.outline, e.outline]

def CompareOp.outline : CompareOp → Outline
  | .unify => .word "Unify"
  | .notUnify => .word "NotUnify"
  | .identical => .word "Identical"
  | .notIdentical => .word "NotIdentical"
  | .before => .word "Before"
  | .beforeEq => .word "BeforeEq"
  | .after => .word "After"
  | .afterEq => .word "AfterEq"
  | .arithEq => .word "ArithEq"
  | .arithNe => .word "ArithNe"
  | .less => .word "Less"
  | .lessEq => .word "LessEq"
  | .greater => .word "Greater"
  | .greaterEq => .word "GreaterEq"
  | .is => .word "Is"

def Comparison.outline (c : Comparison) : Outline :=
  .record "Comparison" [("op", c.op.outline), ("left", c.left.outline), ("right", c.right.outline)]

def Predicate.outline (p : Predicate) : Outline :=
  .record "Predicate" [("name", .quoted p.name), ("args", .list (Term.outlineAll p.args))]

def Atom.outline : Atom → Outline
  | .predicate p => .form "Predicate" [p.outline]
  | .compare c => .form "Compare" [c.outline]

def Clause.outline (c : Clause) : Outline :=
  .record "Clause" [("head", .optional (c.head.map Atom.outline)),
    ("body", .list (c.body.map Atom.outline))]

def Goal.outlineOf (literals : List Outline) : Outline :=
  .record "Goal" [("literals", .list literals)]

namespace Literal

mutual
def outline : Literal → Outline
  | .atom a => .form "Atom" [a.outline]
  | .not g => .form "Not" [Goal.outlineOf (outlineAll g)]

def outlineAll : List Literal → List Outline
  | [] => []
  | l :: rest => outline l :: outlineAll rest
end

end Literal

def Goal.outline (g : Goal) : Outline := Goal.outlineOf (Literal.outlineAll g)

def ModeKind.outline : ModeKind → Outline
  | .head => .word "Head"
  | .body => .word "Body"

def Recall.outline : Recall → Outline
  | .bounded n => .form "Bounded" [.number n]
  | .unbounded => .word "Unbounded"

def Mode.outline (m : Mode) : Outline :=
  .record "Mode" [("kind", m.kind.outline), ("recall", m.recall.outline), ("atom", m.atom.outline)]

def Signature.outline (s : Signature) : Outline :=
  .record "Signature" [("name", .quoted s.name), ("arity", .number s.arity)]

def Determination.outline (d : Determination) : Outline :=
  .record "Determination" [("head", d.head.outline), ("body", .list (d.body.map Signature.outline))]

def Section.outline : Section → Outline
  | .background => .word "Background"
  | .positive => .word "Positive"
  | .negative => .word "Negative"

def Directive.outline : Directive → Outline
  | .load path => .form "Load" [.quoted path]
  | .save path => .form "Save" [.quoted path]
  | .set key value => .form "Set" [.quoted key, .quoted value]
  | .induce => .word "Induce"
  | .pos c => .form "Pos" [c.outline]
  | .neg c => .form "Neg" [c.outline]
  | .verify c => .form "Verify" [c.outline]
  | .display => .word "Show"
  | .log => .word "Log"
  | .next => .word "Next"
  | .quit => .word "Quit"

def Statement.outline : Statement → Outline
  | .clause c => .form "Clause" [c.outline]
  | .query g => .form "Query" [g.outline]
  | .mode m => .form "Mode" [m.outline]
  | .determination d => .form "Determination" [d.outline]
  | .set key value => .form "Set" [.quoted key, .quoted value]
  | .enter b => .form "Begin" [b.outline]
  | .leave b => .form "End" [b.outline]
  | .directive d => .form "Directive" [d.outline]

end Horn
