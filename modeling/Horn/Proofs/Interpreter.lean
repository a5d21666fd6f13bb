import Horn.Resolution

/-!
The meaning of a search, by recursion instead of a stack.

The interpreter solves a conjunction from the left and is told what to do with each solution: keep
it as an answer, or go on with the literals that follow.  The answers, the steps left and the cut
flag travel through the recursion in the order of the search, so what one alternative has spent is
gone for the next.  A run is stopped when no more answers are wanted or when a clause was due and
no step was left; whoever resumes with a stopped run leaves its own alternatives alone.

A clause body is solved one level further down.  The levels are bounded by the steps, since each
costs one, and `solve_level` says that the bound is never felt.
-/

namespace Horn
namespace Interpreter

/-- The progress of a run. -/
structure Run where
  answers : List Substitution
  steps : Nat
  /-- Whether a clause was due when no step was left. -/
  cut : Bool
  /-- Whether everything that is pending is left alone. -/
  stopped : Bool

namespace Run

def spend (r : Run) : Run := { r with steps := r.steps - 1 }

def giveUp (r : Run) : Run := { r with cut := true, stopped := true }

/-- The run of a negated goal: no answers yet, on the same steps. -/
def nested (r : Run) : Run := { r with answers := [], stopped := false }

/-- The run after a nested one, which took its steps from the same counter. -/
def after (r inner : Run) : Run := { r with steps := inner.steps, cut := inner.cut }

end Run

/-- What is done with a solution. -/
abbrev Follow := Substitution → Run → Run

/-- Keeps a solution as an answer; the run is stopped when it was the last one wanted. -/
def answer (wanted : Option Nat) : Follow := fun σ r =>
  { r with
    answers := r.answers ++ [σ]
    stopped := wanted == some (r.answers.length + 1) }

/-- The body of a clause and the substitution when its head, renamed apart, unifies with a call. -/
def resolvent? (p : Predicate) (c : Clause) (σ : Substitution) : Option (Goal × Substitution) :=
  let (renamed, _, σ) := σ.rename [] c
  match renamed.headPredicate with
  | none => none
  | some head => (σ.unifyPredicates p head).toOption.map fun τ => (renamed.bodyGoal, τ)

/-- Tries one candidate for a call: one step is spent, or everything is given up. -/
def tryClause (inside : Goal → Follow → Follow) (p : Predicate) (σ : Substitution) (k : Follow) (r : Run)
    (c : Clause) : Run :=
  if r.stopped then r
  else if r.steps = 0 then r.giveUp
  else
    match resolvent? p c σ with
    | none => r.spend
    | some (body, τ) => inside body k τ r.spend

def solveAtom (lookup : Lookup) (inside : Goal → Follow → Follow) (a : Atom) (k : Follow) : Follow :=
  fun σ r =>
    match σ.apply a with
    | .compare c =>
      match c.solution? σ with
      | none => r
      | some τ => k τ r
    | .predicate p =>
      match builtin? p with
      | some true => k σ r
      | some false => r
      | none => (lookup p).foldl (tryClause inside p σ k) r

mutual
/-- Solves a literal.  A negated goal is run to its first answer; without one the literal holds and
binds nothing. -/
def solveLiteral (lookup : Lookup) (inside : Goal → Follow → Follow) : Literal → Follow → Follow
  | .atom a, k => solveAtom lookup inside a k
  | .not g, k => fun σ r =>
    let inner := solveGoal lookup inside g (answer (some 1)) (σ.addVariables g) r.nested
    if inner.answers.isEmpty then k σ (r.after inner) else r.after inner

/-- Solves the literals of a goal from the left. -/
def solveGoal (lookup : Lookup) (inside : Goal → Follow → Follow) : List Literal → Follow → Follow
  | [], k => k
  | l :: rest, k => solveLiteral lookup inside l (solveGoal lookup inside rest k)
end

/-- The interpreter on so many levels of clause bodies; on none it does nothing. -/
def solve (lookup : Lookup) : Nat → Goal → Follow → Follow
  | 0 => fun _ _ _ r => r
  | level + 1 => solveGoal lookup (solve lookup level)

/-- Runs a goal from given bindings to its end or until so many answers are found. -/
def run (lookup : Lookup) (g : Goal) (σ : Substitution) (steps : Nat) (wanted : Option Nat) : Run :=
  if wanted = some 0 then ⟨[], steps, false, true⟩
  else solve lookup (steps + 1) g (answer wanted) (σ.addVariables g) ⟨[], steps, false, false⟩

/-! ## Levels -/

/-- No step is ever given back. -/
def Frugal (k : Follow) : Prop := ∀ σ r, (k σ r).steps ≤ r.steps

theorem answer_frugal (wanted : Option Nat) : Frugal (answer wanted) :=
  fun _ _ => Nat.le_refl _

theorem spend_steps_le (r : Run) : r.spend.steps ≤ r.steps := Nat.sub_le _ _

/-- Every way of going on with a clause body keeps the steps from growing. -/
def FrugalInside (inside : Goal → Follow → Follow) : Prop := ∀ g k, Frugal k → Frugal (inside g k)

theorem tryClause_steps_le {inside : Goal → Follow → Follow} (hi : FrugalInside inside)
    (p : Predicate) (σ : Substitution) {k : Follow} (hk : Frugal k) (r : Run) (c : Clause) :
    (tryClause inside p σ k r c).steps ≤ r.steps := by
  unfold tryClause
  split
  · exact Nat.le_refl _
  · split
    · exact Nat.le_refl _
    · split
      · exact spend_steps_le r
      · exact Nat.le_trans (hi _ _ hk _ _) (spend_steps_le r)

theorem foldl_tryClause_steps_le {inside : Goal → Follow → Follow} (hi : FrugalInside inside)
    (p : Predicate) (σ : Substitution) {k : Follow} (hk : Frugal k) (cs : List Clause) (r : Run) :
    (cs.foldl (tryClause inside p σ k) r).steps ≤ r.steps := by
  induction cs generalizing r with
  | nil => exact Nat.le_refl _
  | cons c cs ih => exact Nat.le_trans (ih _) (tryClause_steps_le hi p σ hk r c)

theorem solveAtom_frugal (lookup : Lookup) {inside : Goal → Follow → Follow} (hi : FrugalInside inside)
    (a : Atom) {k : Follow} (hk : Frugal k) : Frugal (solveAtom lookup inside a k) := by
  intro σ r
  unfold solveAtom
  split
  · split
    · exact Nat.le_refl _
    · exact hk _ _
  · split
    · exact hk _ _
    · exact Nat.le_refl _
    · exact foldl_tryClause_steps_le hi _ _ hk _ _

mutual
theorem solveLiteral_frugal (lookup : Lookup) {inside : Goal → Follow → Follow}
    (hi : FrugalInside inside) : ∀ (l : Literal) {k : Follow}, Frugal k →
      Frugal (solveLiteral lookup inside l k)
  | .atom a, k, hk => by
    rw [solveLiteral]
    exact solveAtom_frugal lookup hi a hk
  | .not g, k, hk => by
    intro σ r
    rw [solveLiteral]
    have hinner := solveGoal_frugal lookup hi g (answer_frugal (some 1)) (σ.addVariables g) r.nested
    dsimp only
    split
    · exact Nat.le_trans (hk _ _) hinner
    · exact hinner

theorem solveGoal_frugal (lookup : Lookup) {inside : Goal → Follow → Follow}
    (hi : FrugalInside inside) : ∀ (g : List Literal) {k : Follow}, Frugal k →
      Frugal (solveGoal lookup inside g k)
  | [], k, hk => by
    rw [solveGoal]
    exact hk
  | l :: rest, k, hk => by
    rw [solveGoal]
    exact solveLiteral_frugal lookup hi l (solveGoal_frugal lookup hi rest hk)
end

theorem solve_frugal (lookup : Lookup) (level : Nat) : FrugalInside (solve lookup level) := by
  induction level with
  | zero => exact fun _ _ _ _ _ => Nat.le_refl _
  | succ level ih =>
    intro g k hk
    exact solveGoal_frugal lookup ih g hk

/-- Two ways to go on that do the same with so many steps at most. -/
def Agree (m : Nat) (k k' : Follow) : Prop := ∀ σ r, r.steps ≤ m → k σ r = k' σ r

theorem Agree.mono {m n : Nat} {k k' : Follow} (h : Agree m k k') (hn : n ≤ m) : Agree n k k' :=
  fun σ r hr => h σ r (Nat.le_trans hr hn)

def AgreeInside (m : Nat) (inside inside' : Goal → Follow → Follow) : Prop :=
  ∀ g k k', Frugal k → Agree m k k' → Agree m (inside g k) (inside' g k')

/-- Two ways into clause bodies that agree with fewer than so many steps. -/
structure Alike (m : Nat) (inside inside' : Goal → Follow → Follow) : Prop where
  frugal : FrugalInside inside
  agree : ∀ n < m, AgreeInside n inside inside'

theorem tryClause_congr {m : Nat} {inside inside' : Goal → Follow → Follow}
    (h : Alike m inside inside') (p : Predicate) (σ : Substitution) {k k' : Follow}
    (hk : Frugal k) (hkk : Agree m k k') {r : Run} (hr : r.steps ≤ m) (c : Clause) :
    tryClause inside p σ k r c = tryClause inside' p σ k' r c := by
  unfold tryClause
  by_cases hstop : r.stopped = true
  · rw [if_pos hstop, if_pos hstop]
  · rw [if_neg hstop, if_neg hstop]
    by_cases h0 : r.steps = 0
    · rw [if_pos h0, if_pos h0]
    · rw [if_neg h0, if_neg h0]
      cases resolvent? p c σ with
      | none => rfl
      | some b =>
        have hlt : r.steps - 1 < m := by omega
        exact h.agree _ hlt b.1 k k' hk (hkk.mono (Nat.le_of_lt hlt)) b.2 r.spend (Nat.le_refl _)

theorem foldl_tryClause_congr {m : Nat} {inside inside' : Goal → Follow → Follow}
    (h : Alike m inside inside') (p : Predicate) (σ : Substitution) {k k' : Follow}
    (hk : Frugal k) (hkk : Agree m k k') (cs : List Clause) {r : Run} (hr : r.steps ≤ m) :
    cs.foldl (tryClause inside p σ k) r = cs.foldl (tryClause inside' p σ k') r := by
  induction cs generalizing r with
  | nil => rfl
  | cons c cs ih =>
    have hle := tryClause_steps_le h.frugal p σ hk r c
    rw [List.foldl_cons, List.foldl_cons, ← tryClause_congr h p σ hk hkk hr c]
    exact ih (Nat.le_trans hle hr)

theorem solveAtom_agree {m : Nat} {inside inside' : Goal → Follow → Follow}
    (h : Alike m inside inside') (lookup : Lookup) (a : Atom) {k k' : Follow} (hk : Frugal k)
    (hkk : Agree m k k') :
    Agree m (solveAtom lookup inside a k) (solveAtom lookup inside' a k') := by
  intro σ r hr
  unfold solveAtom
  split
  · split
    · rfl
    · exact hkk _ _ hr
  · split
    · exact hkk _ _ hr
    · rfl
    · exact foldl_tryClause_congr h _ _ hk hkk _ hr

mutual
theorem solveLiteral_agree {m : Nat} {inside inside' : Goal → Follow → Follow}
    (h : Alike m inside inside') (lookup : Lookup) : ∀ (l : Literal) {k k' : Follow}, Frugal k →
      Agree m k k' → Agree m (solveLiteral lookup inside l k) (solveLiteral lookup inside' l k')
  | .atom a, k, k', hk, hkk => by
    rw [solveLiteral, solveLiteral]
    exact solveAtom_agree h lookup a hk hkk
  | .not g, k, k', hk, hkk => by
    intro σ r hr
    have hinner := solveGoal_agree h lookup g (answer_frugal (some 1)) (fun _ _ _ => rfl)
      (σ.addVariables g) r.nested hr
    have hle := solveGoal_frugal lookup h.frugal g (answer_frugal (some 1)) (σ.addVariables g)
      r.nested
    rw [solveLiteral, solveLiteral]
    dsimp only
    rw [← hinner]
    split
    · exact hkk _ _ (Nat.le_trans hle hr)
    · rfl

theorem solveGoal_agree {m : Nat} {inside inside' : Goal → Follow → Follow}
    (h : Alike m inside inside') (lookup : Lookup) : ∀ (g : List Literal) {k k' : Follow},
      Frugal k → Agree m k k' →
        Agree m (solveGoal lookup inside g k) (solveGoal lookup inside' g k')
  | [], k, k', _, hkk => by
    rw [solveGoal, solveGoal]
    exact hkk
  | l :: rest, k, k', hk, hkk => by
    rw [solveGoal, solveGoal]
    exact solveLiteral_agree h lookup l (solveGoal_frugal lookup h.frugal rest hk)
      (solveGoal_agree h lookup rest hk hkk)
end

/-- Levels beyond the steps make no difference. -/
theorem solve_agree (lookup : Lookup) (m : Nat) : ∀ {i j : Nat}, m < i → m < j →
    AgreeInside m (solve lookup i) (solve lookup j) := by
  induction m using Nat.strongRecOn with
  | _ m ih =>
    intro i j hmi hmj g k k' hk hkk
    obtain ⟨i, rfl⟩ : ∃ n, i = n + 1 := ⟨i - 1, by omega⟩
    obtain ⟨j, rfl⟩ : ∃ n, j = n + 1 := ⟨j - 1, by omega⟩
    have halike : Alike m (solve lookup i) (solve lookup j) :=
      ⟨solve_frugal lookup i, fun n hn => ih n hn (by omega) (by omega)⟩
    exact solveGoal_agree halike lookup g hk hkk

end Interpreter
end Horn
