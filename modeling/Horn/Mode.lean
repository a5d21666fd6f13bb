import Horn.Substitution
import Horn.Clause

/-!
Mode declarations.  A mode describes how a predicate may be called in a learned clause: an atom
whose arguments are typed placeholders or ground terms, with a bound on the answers it contributes.
A determination lists the body predicates allowed under a head.
-/

namespace Horn

/-- Whether a mode describes clause heads or body atoms. -/
inductive ModeKind where
  | head
  | body
deriving DecidableEq, Inhabited

namespace ModeKind

def keyword : ModeKind → String
  | .head => "modeh"
  | .body => "modeb"

end ModeKind

/-- How many answers a mode contributes for one choice of inputs. -/
inductive Recall where
  | bounded (n : Nat)
  | unbounded
deriving DecidableEq, Inhabited

namespace Recall

/-- The bound in force; an unbounded mode takes the given one. -/
def limit (r : Recall) (most : Nat) : Nat :=
  match r with
  | .bounded n => n
  | .unbounded => most

def text : Recall → String
  | .bounded n => toString n
  | .unbounded => "*"

end Recall

/-- A mode declaration.  Its atom has placeholders and ground terms but no variables. -/
structure Mode where
  kind : ModeKind
  «recall» : Recall
  atom : Predicate
  closed : «variables» atom = []
deriving DecidableEq

namespace Mode

/-- A mode over an atom, or the first variable that stands in the way. -/
def make (kind : ModeKind) (recalls : Recall) (atom : Predicate) : Except Var Mode :=
  match h : «variables» atom with
  | [] => .ok ⟨kind, recalls, atom, h⟩
  | v :: _ => .error v

def signature (m : Mode) : Signature := m.atom.signature

def text (m : Mode) : String :=
  m.kind.keyword ++ "(" ++ m.recall.text ++ ", " ++ m.atom.text ++ ")"

end Mode

/-- A variable that stands for a placeholder. -/
structure Slot where
  var : Var
  placeholder : Placeholder
deriving DecidableEq

/-- The slots opened so far, the newest first, over the substitution that supplies their
variables. -/
structure SlotSupply where
  slots : List Slot
  state : Substitution

namespace SlotSupply

/-- Opens a slot named after the type of the placeholder. -/
def take (s : SlotSupply) (p : Placeholder) : Var × SlotSupply :=
  let (v, σ) := s.state.fresh (Term.placeholder p).variableSymbol
  (v, ⟨⟨v, p⟩ :: s.slots, σ⟩)

end SlotSupply

namespace Term

mutual
/-- Replaces each placeholder by a variable of its own, from left to right. -/
def openSlots (s : SlotSupply) : Term → Term × SlotSupply
  | .placeholder p =>
    let (v, s) := s.take p
    (.var v, s)
  | .compound f args =>
    let (args, s) := openSlotsAll s args
    (.compound f args, s)
  | .list items tail =>
    let (items, s) := openSlotsAll s items
    let (tail, s) := openSlotsTail s tail
    (listOf items tail, s)
  | t => (t, s)

def openSlotsAll (s : SlotSupply) : List Term → List Term × SlotSupply
  | [] => ([], s)
  | t :: rest =>
    let (t, s) := openSlots s t
    let (rest, s) := openSlotsAll s rest
    (t :: rest, s)

def openSlotsTail (s : SlotSupply) : Option Term → Option Term × SlotSupply
  | none => (none, s)
  | some t =>
    let (t, s) := openSlots s t
    (some t, s)
end

end Term

/-- A mode atom whose placeholders are replaced by variables, with the slots in the order of the
arguments. -/
structure Template where
  atom : Predicate
  slots : List Slot

namespace Mode

/-- Opens the mode's placeholders with variables fresh in the given substitution. -/
def instantiate (m : Mode) (σ : Substitution) : Template × Substitution :=
  let (args, s) := Term.openSlotsAll ⟨[], σ⟩ m.atom.args
  (⟨⟨m.atom.name, args⟩, s.slots.reverse⟩, s.state)

end Mode

/-- The body predicates allowed under a head predicate. -/
structure Determination where
  head : Signature
  body : List Signature
deriving DecidableEq, Inhabited

namespace Determination

def text (d : Determination) : String :=
  "determination(" ++ commaSeparated ((d.head :: d.body).map Signature.text) ++ ")"

end Determination
end Horn
