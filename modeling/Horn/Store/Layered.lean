import Horn.Store

/-!
Layered stores.  Several stores are searched as one: in the order of the layers, leaving out what an
earlier layer has already given.  Clauses are added to the first layer only, and layers that are
shared with others are never changed.
-/

namespace Horn

/-- How a layer holds its store. -/
inductive Ownership where
  /-- A store of the layer's own. -/
  | owned
  /-- A store lent by someone who sees the changes. -/
  | borrowed
  /-- A store that only may be read. -/
  | shared
deriving DecidableEq, Inhabited

structure Layer where
  ownership : Ownership
  store : Store

namespace Layer

def isWritable (l : Layer) : Bool := l.ownership != .shared

end Layer

/-- Stores searched one after the other. -/
structure LayeredStore where
  layers : List Layer

namespace LayeredStore

def ofLayers (layers : List (Ownership × Store)) : LayeredStore :=
  ⟨layers.map fun l => ⟨l.1, l.2⟩⟩

/-- The layered store of a single store that is only read. -/
def ofStore (s : Store) : LayeredStore := ⟨[⟨.shared, s⟩]⟩

instance : Coe Store LayeredStore := ⟨ofStore⟩

/-- The layers below a new first one, to be read only. -/
def under (s : LayeredStore) (ownership : Ownership) (first : Store) : LayeredStore :=
  ⟨⟨ownership, first⟩ :: s.layers.map fun l => { l with ownership := .shared }⟩

/-- The clauses of all layers, each at its first place. -/
def union (s : LayeredStore) (part : Store → List Clause) : List Clause :=
  (s.layers.flatMap fun l => part l.store).eraseDups

def candidates (s : LayeredStore) (p : Predicate) : List Clause :=
  s.union fun k => k.candidates p

def clauses (s : LayeredStore) : List Clause := s.union Store.clauses

def size (s : LayeredStore) : Nat := s.clauses.length

def isEmpty (s : LayeredStore) : Bool := s.size == 0

def contains (s : LayeredStore) (c : Clause) : Bool := s.layers.any fun l => l.store.contains c

/-- Tries to add a clause to the first layer.  The answer comes with the layers as they are then. -/
def tryAdd (s : LayeredStore) (c : Clause) : Except Failure Bool × LayeredStore :=
  match s.layers with
  | [] => (.error .readOnlyStore, s)
  | l :: rest =>
    if l.isWritable then
      let (answer, store) := l.store.tryAdd c
      (answer, ⟨{ l with store := store } :: rest⟩)
    else (.error .readOnlyStore, s)

/-- Adds a clause to the first layer, or fails. -/
def add (s : LayeredStore) (c : Clause) : Except Failure (Bool × LayeredStore) :=
  let (answer, t) := s.tryAdd c
  answer.map fun isNew => (isNew, t)

/-- Removes a clause from every layer that may be changed. -/
def remove (s : LayeredStore) (c : Clause) : Bool × LayeredStore :=
  let removed := s.layers.any fun l => l.isWritable && l.store.contains c
  (removed, ⟨s.layers.map fun l =>
    if l.isWritable then { l with store := (l.store.remove c).2 } else l⟩)

end LayeredStore
end Horn
