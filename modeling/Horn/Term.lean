import Horn.Number.Double

/-!
First-order terms: constants, variables, compound terms, lists that may be open at the end, and
the typed placeholders of mode declarations.  Terms are compared structurally, numbers by their
words.
-/

namespace Horn

/-- A constant value. -/
inductive Constant where
  | int (value : Int64)
  | float (value : Double)
  | symbol (name : String)
deriving DecidableEq, Hashable, Inhabited

/-- A logic variable.  Its identity is the pair; variables renamed apart share a symbol and differ
in their tally. -/
structure Var where
  symbol : String
  tally : Nat
deriving DecidableEq, Hashable, Inhabited

/-- Variables are ordered by symbol and then by tally. -/
instance : Ord Var where
  compare := compareLex (compareOn Var.symbol) (compareOn Var.tally)

instance : Std.TransOrd Var :=
  inferInstanceAs (Std.TransCmp (compareLex (compareOn Var.symbol) (compareOn Var.tally)))

instance : Std.LawfulEqOrd Var where
  eq_of_compare {v w} h := by
    obtain ⟨s, n⟩ := v
    obtain ⟨t, m⟩ := w
    have h' : (compare s t).then (compare n m) = .eq := h
    rw [Ordering.then_eq_eq] at h'
    rw [Std.LawfulEqOrd.eq_of_compare h'.1, Std.LawfulEqOrd.eq_of_compare h'.2]

/-- The direction of an argument in a mode declaration. -/
inductive Sign where
  /-- Bound when the atom is called. -/
  | input
  /-- Produced by the call. -/
  | output
  /-- A ground term kept as it is. -/
  | constant
deriving DecidableEq, Hashable, Inhabited

/-- A typed argument of a mode declaration, such as `+person`. -/
structure Placeholder where
  sign : Sign
  typeName : String
deriving DecidableEq, Hashable, Inhabited

/-- A first-order term.  A list without a tail is closed. -/
inductive Term where
  | const (c : Constant)
  | var (v : Var)
  | compound (functor : String) (args : List Term)
  | list (items : List Term) (tail : Option Term)
  | placeholder (p : Placeholder)
deriving Inhabited

namespace Var

def named (symbol : String) : Var := ⟨symbol, 0⟩

end Var

namespace Term

def symbol (name : String) : Term := .const (.symbol name)

def int (value : Int64) : Term := .const (.int value)

def float (value : Double) : Term := .const (.float value)

/-- The empty closed list. -/
def emptyList : Term := .list [] none

/-- A compound term; a functor without arguments is a symbol. -/
def app (functor : String) (args : List Term) : Term :=
  if args.isEmpty then symbol functor else .compound functor args

/-- A list in normal form: a tail that is a list is spliced in, and no items before a tail leave
the tail alone. -/
def listOf (items : List Term) : Option Term → Term
  | none => .list items none
  | some (.list rest tail) => listOf (items ++ rest) tail
  | some t => if items.isEmpty then t else .list items (some t)

def asVar : Term → Option Var
  | .var v => some v
  | _ => none

def asList : Term → Option (List Term × Option Term)
  | .list items tail => some (items, tail)
  | _ => none

mutual
/-- Structural equality, decided by recursion over both terms. -/
def same : Term → Term → Bool
  | .const c, .const d => c == d
  | .var v, .var w => v == w
  | .compound f xs, .compound g ys => f == g && sameAll xs ys
  | .list xs s, .list ys t => sameAll xs ys && sameTail s t
  | .placeholder p, .placeholder q => p == q
  | _, _ => false

def sameAll : List Term → List Term → Bool
  | [], [] => true
  | x :: xs, y :: ys => same x y && sameAll xs ys
  | _, _ => false

def sameTail : Option Term → Option Term → Bool
  | none, none => true
  | some s, some t => same s t
  | _, _ => false
end

mutual
theorem same_iff_eq : ∀ s t : Term, same s t = true ↔ s = t
  | .const c, t => by cases t <;> simp [same]
  | .var v, t => by cases t <;> simp [same]
  | .placeholder p, t => by cases t <;> simp [same]
  | .compound f xs, t => by
    cases t with
    | compound g ys => simp [same, sameAll_iff_eq xs ys]
    | _ => simp [same]
  | .list xs s, t => by
    cases t with
    | list ys t => simp [same, sameAll_iff_eq xs ys, sameTail_iff_eq s t]
    | _ => simp [same]

theorem sameAll_iff_eq : ∀ xs ys : List Term, sameAll xs ys = true ↔ xs = ys
  | [], ys => by cases ys <;> simp [sameAll]
  | x :: xs, ys => by
    cases ys with
    | nil => simp [sameAll]
    | cons y ys => simp [sameAll, same_iff_eq x y, sameAll_iff_eq xs ys]

theorem sameTail_iff_eq : ∀ s t : Option Term, sameTail s t = true ↔ s = t
  | none, t => by cases t <;> simp [sameTail]
  | some s, t => by
    cases t with
    | none => simp [sameTail]
    | some t => simp [sameTail, same_iff_eq s t]
end

instance : DecidableEq Term := fun s t =>
  decidable_of_iff (same s t = true) (same_iff_eq s t)

mutual
def hashCode : Term → UInt64
  | .const c => mixHash 3 (hash c)
  | .var v => mixHash 5 (hash v)
  | .compound f xs => mixHash (mixHash 7 (hash f)) (hashAll xs)
  | .list xs t => mixHash (mixHash 11 (hashAll xs)) (hashTail t)
  | .placeholder p => mixHash 13 (hash p)

def hashAll : List Term → UInt64
  | [] => 17
  | x :: xs => mixHash (hashCode x) (hashAll xs)

def hashTail : Option Term → UInt64
  | none => 19
  | some t => hashCode t
end

instance : Hashable Term := ⟨hashCode⟩

end Term
end Horn
