import Horn.Failure
import Horn.Store.Index

/-!
Clause stores.  A store is a set of clauses with predicate heads and without placeholders, kept in
the order of insertion.  Clauses are numbered as they come and a number is never used twice; an
index over the head arguments narrows a lookup to the clauses that may fit.
-/

namespace Horn

/-- A set of clauses in insertion order. -/
structure Store where
  clauseOf : Std.TreeMap Nat Clause
  idOf : Std.HashMap Clause Nat
  index : Std.HashMap Signature (FunctorIndex ArgumentIndex)
  nextId : Nat

namespace Store

def empty : Store := ⟨∅, ∅, ∅, 0⟩

instance : Inhabited Store := ⟨empty⟩

/-- The clauses in the order in which they were added. -/
def clauses (s : Store) : List Clause := s.clauseOf.values

def size (s : Store) : Nat := s.clauseOf.size

def isEmpty (s : Store) : Bool := s.clauseOf.isEmpty

def contains (s : Store) (c : Clause) : Bool := s.idOf.contains c

/-- The clauses whose heads may fit a predicate, in insertion order.  No clause whose head unifies
with it is missing. -/
def candidates (s : Store) (p : Predicate) : List Clause :=
  match s.index[p.signature]? with
  | none => []
  | some b => (b.agreeing p.args).toList.filterMap fun id => s.clauseOf[id]?

/-- Stores a clause under the next number and files it under its head. -/
def insertNew (s : Store) (c : Clause) (head : Predicate) : Store :=
  let old := s.index.getD head.signature (FunctorIndex.empty head.arity)
  { clauseOf := s.clauseOf.insert s.nextId c
    idOf := s.idOf.insert c s.nextId
    index := s.index.insert head.signature (old.insert s.nextId head.args)
    nextId := s.nextId + 1 }

/-- Tries to add a clause.  The answer tells whether it was new, or why it was refused, and comes with
the store as it is then. -/
def tryAdd (s : Store) (c : Clause) : Except Failure Bool × Store :=
  match c.headPredicate with
  | none => (.error (.headlessClause c), s)
  | some head =>
    if hasPlaceholders c then (.error (.placeholderInClause c), s)
    else if s.contains c then (.ok false, s)
    else (.ok true, s.insertNew c head)

/-- Adds a clause, or fails.  The answer tells whether it was new. -/
def add (s : Store) (c : Clause) : Except Failure (Bool × Store) :=
  let (answer, t) := s.tryAdd c
  answer.map fun isNew => (isNew, t)

def addAll (s : Store) (cs : List Clause) : Except Failure Store :=
  cs.foldlM (fun s c => (s.add c).map Prod.snd) s

def ofClauses (cs : List Clause) : Except Failure Store := empty.addAll cs

/-- Takes a head out of the index. -/
def unfile (s : Store) (id : Nat) (head : Predicate) :
    Std.HashMap Signature (FunctorIndex ArgumentIndex) :=
  match s.index[head.signature]? with
  | none => s.index
  | some b =>
    let left := b.remove id head.args
    if left.all.isEmpty then s.index.erase head.signature
    else s.index.insert head.signature left

/-- Removes a clause.  The answer tells whether it was there. -/
def remove (s : Store) (c : Clause) : Bool × Store :=
  match s.idOf[c]? with
  | none => (false, s)
  | some id =>
    (true,
      { s with
        clauseOf := s.clauseOf.erase id
        idOf := s.idOf.erase c
        index := match c.headPredicate with
          | none => s.index
          | some head => s.unfile id head })

/-- The predicates that have clauses, by name and then by arity. -/
def signatures (s : Store) : List Signature := s.index.keys.mergeSort Signature.le

end Store
end Horn
