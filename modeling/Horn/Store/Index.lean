import Horn.Atom
import Std.Data.HashMap
import Std.Data.TreeSet

/-!
Argument indexes.  A predicate's clauses are filed under the shapes of their head arguments: by
constant, by functor and, below a functor, by the shapes of its arguments in turn.  Lists are filed
together without looking inside.  A lookup keeps the clauses whose shapes agree with the arguments
asked for, where a variable on either side agrees with everything.
-/

namespace Horn

/-- The numbers under which clauses are stored. -/
abbrev IdSet := Std.TreeSet Nat

/-- The clauses with one functor at some place, and the indexes of the functor's arguments. -/
structure FunctorIndex (α : Type) where
  all : IdSet
  args : List α

/-- The clauses by the term at one argument place. -/
structure ArgumentIndex where
  constants : Std.HashMap Constant IdSet
  vars : IdSet
  /-- Lists, which are not told apart. -/
  lists : IdSet
  nested : List (Signature × FunctorIndex ArgumentIndex)

namespace ArgumentIndex

def empty : ArgumentIndex := ⟨∅, ∅, ∅, []⟩

end ArgumentIndex

namespace FunctorIndex

def empty (arity : Nat) : FunctorIndex ArgumentIndex :=
  ⟨∅, List.replicate arity ArgumentIndex.empty⟩

end FunctorIndex

/-- The key of a compound term in an index. -/
def functorKey (f : String) (args : List Term) : Signature := ⟨f, args.length⟩

/-- Sets the value of a key, which moves to the front. -/
def assign {κ ν : Type} [BEq κ] (key : κ) (value : ν) (entries : List (κ × ν)) : List (κ × ν) :=
  (key, value) :: entries.filter fun e => !(e.1 == key)

/-- Drops a key. -/
def unassign {κ ν : Type} [BEq κ] (key : κ) (entries : List (κ × ν)) : List (κ × ν) :=
  entries.filter fun e => !(e.1 == key)

namespace ArgumentIndex

mutual
/-- Files a clause under the term it has at this place. -/
def insert (id : Nat) (ix : ArgumentIndex) : Term → ArgumentIndex
  | .var _ => { ix with vars := ix.vars.insert id }
  | .const c =>
    { ix with constants := ix.constants.insert c ((ix.constants.getD c ∅).insert id) }
  | .compound f args =>
    let key := functorKey f args
    let old := (ix.nested.lookup key).getD (FunctorIndex.empty args.length)
    { ix with nested := assign key ⟨old.all.insert id, insertAll id old.args args⟩ ix.nested }
  | .list _ _ | .placeholder _ => { ix with lists := ix.lists.insert id }

/-- Files a clause under its terms at consecutive places. -/
def insertAll (id : Nat) : List ArgumentIndex → List Term → List ArgumentIndex
  | ix :: more, t :: rest => insert id ix t :: insertAll id more rest
  | more, [] => more
  | [], _ => []
end

mutual
/-- Takes out a clause that was filed under this term.  Keys left without clauses go too. -/
def remove (id : Nat) (ix : ArgumentIndex) : Term → ArgumentIndex
  | .var _ => { ix with vars := ix.vars.erase id }
  | .const c =>
    let left := (ix.constants.getD c ∅).erase id
    { ix with
      constants := if left.isEmpty then ix.constants.erase c else ix.constants.insert c left }
  | .compound f args =>
    let key := functorKey f args
    match ix.nested.lookup key with
    | none => ix
    | some old =>
      let left := old.all.erase id
      { ix with
        nested := if left.isEmpty then unassign key ix.nested
          else assign key ⟨left, removeAll id old.args args⟩ ix.nested }
  | .list _ _ | .placeholder _ => { ix with lists := ix.lists.erase id }

def removeAll (id : Nat) : List ArgumentIndex → List Term → List ArgumentIndex
  | ix :: more, t :: rest => remove id ix t :: removeAll id more rest
  | more, [] => more
  | [], _ => []
end

mutual
/-- The clauses whose term here agrees in shape with the given one, or none when a variable asks for
all of them. -/
def agreeing (ix : ArgumentIndex) : Term → Option IdSet
  | .var _ => none
  | .const c => some (ix.vars ∪ ix.constants.getD c ∅)
  | .compound f args =>
    match ix.nested.lookup (functorKey f args) with
    | none => some ix.vars
    | some b => some (ix.vars ∪ narrow b.all b.args args)
  | .list _ _ | .placeholder _ => some (ix.vars ∪ ix.lists)

/-- Keeps the clauses that agree with the terms at consecutive places. -/
def narrow (ids : IdSet) : List ArgumentIndex → List Term → IdSet
  | ix :: more, t :: rest =>
    match agreeing ix t with
    | none => narrow ids more rest
    | some found => narrow (ids ∩ found) more rest
  | _, _ => ids
end

end ArgumentIndex

namespace FunctorIndex

def insert (b : FunctorIndex ArgumentIndex) (id : Nat) (args : List Term) :
    FunctorIndex ArgumentIndex :=
  ⟨b.all.insert id, ArgumentIndex.insertAll id b.args args⟩

def remove (b : FunctorIndex ArgumentIndex) (id : Nat) (args : List Term) :
    FunctorIndex ArgumentIndex :=
  ⟨b.all.erase id, ArgumentIndex.removeAll id b.args args⟩

/-- The clauses whose arguments agree in shape with the given ones. -/
def agreeing (b : FunctorIndex ArgumentIndex) (args : List Term) : IdSet :=
  ArgumentIndex.narrow b.all b.args args

end FunctorIndex
end Horn
