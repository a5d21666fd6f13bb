import Horn.Term.Printed
import Horn.Term.Traversal
import Std.Data.TreeMap
import Std.Data.TreeSet

/-!
The names in use around a substitution.  A scope keeps the variables met so far together with their
texts, because two variables can have one text and a fresh variable must differ from every other in
print.  It also remembers for each symbol the tally to try next.
-/

namespace Horn

/-- The variables in use, their texts, and the next tally of each symbol. -/
structure Scope where
  vars : Std.TreeSet Var
  names : Std.TreeSet String
  tallies : Std.TreeMap String Nat

namespace Scope

def empty : Scope := ⟨∅, ∅, ∅⟩

/-- Enters a variable. -/
def register (s : Scope) (v : Var) : Scope :=
  { s with vars := s.vars.insert v, names := s.names.insert v.text }

def registerAll (s : Scope) (vs : List Var) : Scope := vs.foldl register s

/-- Enters every variable of a form. -/
def addVariables {α : Type} [HasTerms α] (s : Scope) (x : α) : Scope := s.registerAll («variables» x)

/-- The first tally from the given one on whose variable has a free name.  Tallies give different
texts, so a name that was taken cannot come up again and may be forgotten; the names left over
bound the search. -/
def firstFree (symbol : String) (names : Std.TreeSet String) (tally : Nat) : Nat :=
  if (Var.text ⟨symbol, tally⟩) ∈ names then
    firstFree symbol (names.erase (Var.text ⟨symbol, tally⟩)) (tally + 1)
  else tally
termination_by names.size
decreasing_by
  rename_i h
  have hpos : names.size ≠ 0 := by
    intro h0
    have hempty : names.isEmpty = true := by simp [Std.TreeSet.isEmpty_eq_size_eq_zero, h0]
    exact Std.TreeSet.not_mem_of_isEmpty hempty h
  rw [Std.TreeSet.size_erase, if_pos (Std.TreeSet.contains_iff_mem.mpr h)]
  omega

/-- A variable with the given symbol whose text no other variable has. -/
def fresh (s : Scope) (symbol : String) : Var × Scope :=
  let tally := firstFree symbol s.names (s.tallies.getD symbol 0)
  let v : Var := ⟨symbol, tally⟩
  (v, { s.register v with tallies := s.tallies.insert symbol (tally + 1) })

end Scope
end Horn
