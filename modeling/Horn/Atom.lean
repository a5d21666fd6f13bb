import Horn.Expression

/-!
Atoms: predicates, which are resolved against stored clauses, and comparisons, which are decided on
the spot.
-/

namespace Horn

/-- Name and arity of a predicate. -/
structure Signature where
  name : String
  arity : Nat
deriving DecidableEq, Hashable, Inhabited

namespace Signature

def text (s : Signature) : String := symbolText s.name ++ "/" ++ toString s.arity

/-- Signatures are ordered by name and then by arity. -/
def le (a b : Signature) : Bool :=
  if a.name == b.name then a.arity ≤ b.arity else decide (a.name < b.name)

end Signature

/-- `name(t1, ..., tn)`. -/
structure Predicate where
  name : String
  args : List Term
deriving DecidableEq, Hashable, Inhabited

namespace Predicate

def arity (p : Predicate) : Nat := p.args.length

def signature (p : Predicate) : Signature := ⟨p.name, p.args.length⟩

def text (p : Predicate) : String :=
  if p.args.isEmpty then symbolText p.name
  else symbolText p.name ++ "(" ++ Term.textAll p.args ++ ")"

end Predicate

instance : HasTerms Predicate where
  subterms p := HasTerms.subterms p.args
  rewrite f p := ⟨p.name, HasTerms.rewrite f p.args⟩

/-- How a comparison is decided. -/
inductive CompareKind where
  /-- Structurally: unification, identity, standard order of terms. -/
  | unification
  /-- By the numeric values of both sides. -/
  | arithmetic
  /-- By evaluating the right side and unifying with the left. -/
  | evaluation
deriving DecidableEq, Inhabited

/-- A comparison operator. -/
inductive CompareOp where
  | unify
  | notUnify
  | identical
  | notIdentical
  | before
  | beforeEq
  | after
  | afterEq
  | arithEq
  | arithNe
  | less
  | lessEq
  | greater
  | greaterEq
  | is
deriving DecidableEq, Hashable, Inhabited

namespace CompareOp

def symbol : CompareOp → String
  | .unify => "="
  | .notUnify => "\\="
  | .identical => "=="
  | .notIdentical => "\\=="
  | .before => "@<"
  | .beforeEq => "@=<"
  | .after => "@>"
  | .afterEq => "@>="
  | .arithEq => "=:="
  | .arithNe => "=\\="
  | .less => "<"
  | .lessEq => "=<"
  | .greater => ">"
  | .greaterEq => ">="
  | .is => "is"

def kind : CompareOp → CompareKind
  | .unify | .notUnify | .identical | .notIdentical | .before | .beforeEq | .after | .afterEq =>
    .unification
  | .is => .evaluation
  | .arithEq | .arithNe | .less | .lessEq | .greater | .greaterEq => .arithmetic

end CompareOp

/-- `left op right`. -/
structure Comparison where
  op : CompareOp
  left : Expr
  right : Expr
deriving DecidableEq, Hashable, Inhabited

namespace Comparison

def text (c : Comparison) : String := c.left.text ++ " " ++ c.op.symbol ++ " " ++ c.right.text

end Comparison

instance : HasTerms Comparison where
  subterms c := c.left.subterms ++ c.right.subterms
  rewrite f c := ⟨c.op, c.left.rewrite f, c.right.rewrite f⟩

/-- An atom of a clause body or a goal. -/
inductive Atom where
  | predicate (p : Predicate)
  | compare (c : Comparison)
deriving DecidableEq, Hashable, Inhabited

namespace Atom

def asPredicate : Atom → Option Predicate
  | .predicate p => some p
  | .compare _ => none

def text : Atom → String
  | .predicate p => p.text
  | .compare c => c.text

end Atom

instance : HasTerms Atom where
  subterms
    | .predicate p => HasTerms.subterms p
    | .compare c => HasTerms.subterms c
  rewrite f
    | .predicate p => .predicate (HasTerms.rewrite f p)
    | .compare c => .compare (HasTerms.rewrite f c)

end Horn
