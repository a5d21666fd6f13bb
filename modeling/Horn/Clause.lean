import Horn.Atom

/-!
Horn clauses and goals.  A clause without a head is a denial.  A goal is a conjunction of literals,
each an atom or a negated goal.
-/

namespace Horn

/-- `head :- b1, ..., bn`.  Clauses are compared structurally, so renaming a variable gives another
clause. -/
structure Clause where
  head : Option Atom
  body : List Atom
deriving DecidableEq, Hashable, Inhabited

/-- One conjunct of a goal. -/
inductive Literal where
  | atom (a : Atom)
  /-- Holds when the conjunction inside has no solution; it never binds. -/
  | not (literals : List Literal)
deriving Inhabited

/-- A conjunction, solved from left to right. -/
abbrev Goal := List Literal

/-- Texts separated by a comma and a blank. -/
def commaSeparated (parts : List String) : String := String.intercalate ", " parts

namespace Clause

def rule (head : Atom) (body : List Atom) : Clause := ⟨some head, body⟩

def fact (head : Atom) : Clause := ⟨some head, []⟩

def denial (body : List Atom) : Clause := ⟨none, body⟩

def isFact (c : Clause) : Bool := c.head.isSome && c.body.isEmpty

/-- The head, when it can be resolved against. -/
def headPredicate (c : Clause) : Option Predicate := c.head.bind Atom.asPredicate

/-- The clause with one more body atom at the end. -/
def extended (c : Clause) (a : Atom) : Clause := { c with body := c.body ++ [a] }

def bodyGoal (c : Clause) : Goal := c.body.map Literal.atom

def headGoal (c : Clause) : Option Goal := c.head.map fun h => [Literal.atom h]

def bodyText (c : Clause) : String := commaSeparated (c.body.map Atom.text)

def text (c : Clause) : String :=
  match c.head with
  | none => ":- " ++ c.bodyText
  | some h => if c.body.isEmpty then h.text else h.text ++ " :- " ++ c.bodyText

end Clause

instance : HasTerms Clause where
  subterms c := (c.head.map HasTerms.subterms).getD [] ++ HasTerms.subterms c.body
  rewrite f c := ⟨c.head.map (HasTerms.rewrite f), HasTerms.rewrite f c.body⟩

namespace Literal

def isNegation : Literal → Bool
  | .not _ => true
  | .atom _ => false

mutual
def text : Literal → String
  | .atom a => a.text
  | .not g => "not(" ++ textAll g ++ ")"

def textAll : List Literal → String
  | [] => ""
  | [l] => text l
  | l :: rest => text l ++ ", " ++ textAll rest
end

mutual
def subterms : Literal → List Term
  | .atom a => HasTerms.subterms a
  | .not g => subtermsAll g

def subtermsAll : List Literal → List Term
  | [] => []
  | l :: rest => subterms l ++ subtermsAll rest
end

mutual
def rewrite (f : Term → Option Term) : Literal → Literal
  | .atom a => .atom (HasTerms.rewrite f a)
  | .not g => .not (rewriteAll f g)

def rewriteAll (f : Term → Option Term) : List Literal → List Literal
  | [] => []
  | l :: rest => rewrite f l :: rewriteAll f rest
end

end Literal

instance : HasTerms Literal := ⟨Literal.subterms, Literal.rewrite⟩

namespace Goal

def text (g : Goal) : String := Literal.textAll g

/-- The negation of the body together with the negated head: it holds when no instance of the body
is provable without the head. -/
def verificationOf (c : Clause) : Goal :=
  let refuted := match c.head with
    | none => []
    | some h => [Literal.not [.atom h]]
  [.not (c.bodyGoal ++ refuted)]

end Goal
end Horn
