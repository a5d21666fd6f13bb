import Horn.Clause
import Horn.Substitution.Renaming
import Std.Data.TreeMap

/-!
Bottom clauses: the most specific clause for an example, together with the flow of variables through
its atoms.  Each atom takes some variables as inputs and provides others as outputs.  From this flow
every variable gets a depth, the least number of atoms in a chain that provides it from the inputs
of the head, and a choice of atoms gets an estimate of how many more it needs.
-/

namespace Horn

/-- The variables that an atom takes and provides. -/
structure Link where
  inputs : List Var
  outputs : List Var
deriving DecidableEq, Inhabited

namespace Link

/-- Renames the variables that have an image. -/
def rename (l : Link) (ρ : Renaming) : Link :=
  let image (v : Var) : Var := (ρ.lookup v).getD v
  ⟨l.inputs.map image, l.outputs.map image⟩

end Link

/-- The depths of variables. -/
abbrev Depths := Std.TreeMap Var Nat

namespace Depths

/-- Gives a depth to the variables that have none. -/
def fill (depths : Depths) (vs : List Var) (depth : Nat) : Depths :=
  vs.foldl (fun d v => if d.contains v then d else d.insert v depth) depths

/-- What the atoms provide whose inputs all have depths. -/
def provided (depths : Depths) (links : List Link) : List Var :=
  (links.filter fun l => l.inputs.all depths.contains).flatMap Link.outputs

/-- Rounds of filling.  A variable gets the number of the first round that can provide it. -/
def grow (links : List Link) (depths : Depths) (depth : Nat) : Nat → Depths
  | 0 => depths
  | rounds + 1 => grow links (depths.fill (depths.provided links) (depth + 1)) (depth + 1) rounds

/-- The depths that links give to variables.  A round without a new variable is followed by none
with one, and a round with one needs an atom that could not be used before, so as many rounds as
there are atoms are enough. -/
def ofLinks (head : Link) (links : List Link) : Depths :=
  grow links (fill ∅ head.inputs 0) 0 links.length

end Depths

/-- A clause with the flow of variables through its head and its body atoms. -/
structure BottomClause where
  clause : Clause
  head : Link
  links : List Link

namespace BottomClause

def text (b : BottomClause) : String := b.clause.text

def body (b : BottomClause) : List Atom := b.clause.body

def depths (b : BottomClause) : Depths := Depths.ofLinks b.head b.links

/-- The links of the chosen atoms. -/
def chosenLinks (b : BottomClause) (chosen : List Nat) : List Link :=
  chosen.filterMap fun k => b.links[k]?

/-- The variables that a choice of atoms still needs: outputs of the head and inputs of chosen
atoms that neither the head's inputs nor a chosen atom provide. -/
def unresolved (b : BottomClause) (chosen : List Nat) : List Var :=
  let links := b.chosenLinks chosen
  let available := b.head.inputs ++ links.flatMap Link.outputs
  (b.head.outputs ++ links.flatMap Link.inputs).filter fun v => !available.contains v

/-- An optimistic count of the atoms that a choice still needs: the least depth of a variable it
needs, at least one, and zero when it needs none. -/
def remainingDepth (b : BottomClause) (depths : Depths) (chosen : List Nat) : Nat :=
  match b.unresolved chosen with
  | [] => 0
  | needed => max 1 ((needed.filterMap fun v => depths[v]?).min?.getD 1)

/-- The same clause with its variables named `A`, `B` and so on. -/
def withGenericNames (b : BottomClause) : BottomClause :=
  let ρ := genericRenaming («variables» b.clause)
  ⟨ρ.apply b.clause, b.head.rename ρ, b.links.map fun l => l.rename ρ⟩

end BottomClause
end Horn
