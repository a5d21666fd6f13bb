import Horn.Substitution

/-!
Renaming variables.  A clause is renamed apart before it is used: each of its variables, in the
order of first occurrence, gets a fresh variable of the same symbol.  The renaming is kept, so that
several forms can share one.  Generic names replace variables by `A`, `B` and so on.
-/

namespace Horn

/-- Images of variables, the newest first. -/
abbrev Renaming := List (Var × Var)

namespace Renaming

/-- Replaces the variables that have an image. -/
def apply {α : Type} [HasTerms α] (ρ : Renaming) (x : α) : α :=
  replaceVars (fun v => (ρ.lookup v).map Term.var) x

end Renaming

namespace Substitution

/-- Gives a variable a fresh image unless it has one. -/
def renameVar (state : Renaming × Substitution) (v : Var) : Renaming × Substitution :=
  if (state.1.lookup v).isSome then state
  else
    let (image, σ) := state.2.fresh v.symbol
    ((v, image) :: state.1, σ)

/-- Renames a form apart from everything in scope, extending the given renaming. -/
def rename {α : Type} [HasTerms α] (σ : Substitution) (ρ : Renaming) (x : α) :
    α × Renaming × Substitution :=
  let (ρ, σ) := («variables» x).foldl renameVar (ρ, σ)
  (ρ.apply x, ρ, σ)

/-- Renames a form by the given renaming alone. -/
def renameKnown {α : Type} [HasTerms α] (ρ : Renaming) (x : α) : Except UnifyFailure α :=
  match («variables» x).find? fun v => (ρ.lookup v).isNone with
  | some v => .error (.unmappedVariable v)
  | none => .ok (ρ.apply x)

end Substitution

/-- The letters of a position in the sequence `A`, ..., `Z`, `AA`, `AB` and so on, the last letter
first: digits in base 26 without a zero. -/
def genericLetters (index : Nat) : List Char :=
  let letter := Char.ofNat ('A'.toNat + index % 26)
  if index < 26 then [letter] else letter :: genericLetters (index / 26 - 1)

def genericName (index : Nat) : String := String.ofList (genericLetters index).reverse

/-- The renaming of variables to generic names in the given order. -/
def genericRenaming (vs : List Var) : Renaming :=
  vs.mapIdx fun i v => (v, Var.named (genericName i))

/-- Renames the variables of a form to `A`, `B` and so on by first occurrence. -/
def withGenericNames {α : Type} [HasTerms α] (x : α) : α :=
  (genericRenaming («variables» x)).apply x

end Horn
