import Horn.Solutions

/-!
Examples.  An example is a clause whose head is the instance to be covered; its body atoms are facts
that count only while its bottom clause is built.
-/

namespace Horn

/-- Positive and negative examples in the order in which they were given. -/
structure Examples where
  positive : List Clause
  negative : List Clause
deriving DecidableEq

namespace Examples

def empty : Examples := ⟨[], []⟩

instance : Inhabited Examples := ⟨empty⟩

def size (e : Examples) : Nat := e.positive.length + e.negative.length

def isEmpty (e : Examples) : Bool := e.size == 0

/-- Refuses a clause that cannot be an example. -/
def check (c : Clause) : Except Failure Unit :=
  if c.headPredicate.isSome then .ok () else .error (.headlessExample c)

def addPositive (e : Examples) (c : Clause) : Except Failure Examples := do
  check c
  return { e with positive := e.positive ++ [c] }

def addNegative (e : Examples) (c : Clause) : Except Failure Examples := do
  check c
  return { e with negative := e.negative ++ [c] }

/-- All examples of both. -/
def append (e f : Examples) : Examples :=
  ⟨e.positive ++ f.positive, e.negative ++ f.negative⟩

end Examples

namespace Clause

/-- Whether the head of an example has an answer within so many steps. -/
def isCovered (c : Clause) (lookup : Lookup) (steps : Nat) : Bool :=
  c.headGoal.any fun g => g.succeeds lookup steps

end Clause
end Horn
