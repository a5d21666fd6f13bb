import Horn.Evaluation
import Horn.Store.Layered
import Horn.Substitution.Renaming

/-!
Depth-first resolution under a step budget.  A search is a stack of branches: goals still to be
solved and calls with clauses still to be tried.  Trying a clause costs one step, negated goals
included, since a negated goal is searched with the steps of the search around it.  When a clause is
due and no step is left, everything pending is given up and the search says so.  Steps never grow
and everything else makes the pending goals smaller, so every search ends.
-/

namespace Horn

/-- Where the clauses for a predicate come from. -/
abbrev Lookup := Predicate → List Clause

/-- A part of the search that is still to be explored. -/
inductive Branch where
  /-- Literals to be solved from the front. -/
  | goal (todo : List Literal) (σ : Substitution)
  /-- A call with the clauses left for it, and the literals that follow it. -/
  | call (p : Predicate) (clauses : List Clause) (todo : List Literal) (σ : Substitution)

/-- The state of a search. -/
structure Search where
  /-- The branches to be explored, the next one first. -/
  branches : List Branch
  /-- How many clauses may still be tried. -/
  steps : Nat
  /-- Whether a branch was given up for want of steps. -/
  cut : Bool

/-- The goals that always and never hold. -/
def builtin? (p : Predicate) : Option Bool :=
  if p.args.isEmpty then
    if p.name = "true" then some true
    else if p.name = "fail" ∨ p.name = "false" then some false
    else none
  else none

namespace Literal

mutual
/-- The size of a literal; an atom outweighs the call it turns into. -/
def weight : Literal → Nat
  | .atom _ => 2
  | .not g => 2 + weightAll g

def weightAll : List Literal → Nat
  | [] => 0
  | l :: rest => weight l + weightAll rest
end

end Literal

namespace Branch

def weight : Branch → Nat
  | .goal todo _ => Literal.weightAll todo + 1
  | .call _ _ todo _ => Literal.weightAll todo + 2

def weightAll : List Branch → Nat
  | [] => 0
  | b :: rest => b.weight + weightAll rest

/-- Resolves a call with one clause: the clause is renamed apart, its head unified with the call and
its body put in front of what follows. -/
def resolve? (p : Predicate) (c : Clause) (todo : List Literal) (σ : Substitution) :
    Option Branch :=
  let (renamed, _, σ) := σ.rename [] c
  match renamed.headPredicate with
  | none => none
  | some head =>
    match σ.unifyPredicates p head with
    | .error _ => none
    | .ok τ => some (.goal (renamed.bodyGoal ++ todo) τ)

end Branch

namespace Search

def weight (s : Search) : Nat := Branch.weightAll s.branches

/-- The search for a goal from given bindings. -/
def start (g : Goal) (σ : Substitution) (steps : Nat) : Search :=
  ⟨[.goal g (σ.addVariables g)], steps, false⟩

/-- The same search with other branches. -/
def withBranches (s : Search) (branches : List Branch) : Search := { s with branches := branches }

/-- A search gives up all its branches. -/
def giveUp (s : Search) : Search := { s with branches := [], cut := true }

/-- The search inside a negated goal. -/
def inside (s : Search) (g : Goal) (σ : Substitution) : Search :=
  s.withBranches [.goal g (σ.addVariables g)]

/-- The search after one inside it, which took its steps from the same budget. -/
def resumed (s inner : Search) (branches : List Branch) : Search :=
  ⟨branches, min s.steps inner.steps, inner.cut⟩

/-- The search after trying one of a call's clauses; the call stays with the others. -/
def tried (s : Search) (p : Predicate) (c : Clause) (left : List Clause) (todo : List Literal)
    (σ : Substitution) (rest : List Branch) : Search :=
  { s with
    branches := (Branch.resolve? p c todo σ).toList ++ .call p left todo σ :: rest
    steps := s.steps - 1 }

/-- A search that has less left to do: fewer steps, or no more steps and smaller goals. -/
def Before (t s : Search) : Prop :=
  t.steps < s.steps ∨ t.steps ≤ s.steps ∧ t.weight < s.weight

theorem Before.steps_le {s t : Search} (h : Before t s) : t.steps ≤ s.steps := by
  rcases h with h | h
  · exact Nat.le_of_lt h
  · exact h.1

theorem Before.trans {s t u : Search} (h : Before u t) (h' : Before t s) : Before u s := by
  unfold Before at *
  omega

/-- The lexicographic order behind `Before`. -/
theorem Before.lex {s t : Search} (h : Before t s) :
    Prod.Lex (· < ·) (· < ·) (t.steps, t.weight) (s.steps, s.weight) := by
  rw [Prod.lex_def]
  unfold Before at h
  simp only
  omega

theorem weight_eq {s : Search} {b : Branch} {rest : List Branch} (h : s.branches = b :: rest) :
    s.weight = b.weight + Branch.weightAll rest := by
  rw [weight, h, Branch.weightAll]

theorem weight_withBranches (s : Search) (branches : List Branch) :
    (s.withBranches branches).weight = Branch.weightAll branches := rfl

theorem before_rest {s : Search} {b : Branch} {rest : List Branch} (h : s.branches = b :: rest) :
    Before (s.withBranches rest) s := by
  refine .inr ⟨Nat.le_refl _, ?_⟩
  rw [weight_eq h, weight_withBranches]
  cases b <;> simp only [Branch.weight] <;> omega

theorem before_replace {s : Search} {b b' : Branch} {rest : List Branch}
    (h : s.branches = b :: rest) (hb : b'.weight < b.weight) :
    Before (s.withBranches (b' :: rest)) s := by
  refine .inr ⟨Nat.le_refl _, ?_⟩
  rw [weight_eq h, weight_withBranches, Branch.weightAll]
  omega

theorem before_tried {s : Search} (h : s.steps ≠ 0) (p : Predicate) (c : Clause)
    (left : List Clause) (todo : List Literal) (σ : Substitution) (rest : List Branch) :
    Before (s.tried p c left todo σ rest) s :=
  .inl (Nat.sub_lt (Nat.pos_of_ne_zero h) Nat.one_pos)

theorem before_inside {s : Search} {g : Goal} {todo : List Literal} {σ : Substitution}
    {rest : List Branch} (h : s.branches = .goal (.not g :: todo) σ :: rest) :
    Before (s.inside g σ) s := by
  refine .inr ⟨Nat.le_refl _, ?_⟩
  rw [weight_eq h, inside, weight_withBranches]
  simp only [Branch.weightAll, Branch.weight, Literal.weightAll, Literal.weight]
  omega

theorem before_resumed {s : Search} {branches : List Branch}
    (h : (s.withBranches branches).weight < s.weight) (inner : Search) :
    Before (s.resumed inner branches) s :=
  .inr ⟨Nat.min_le_left _ _, h⟩

theorem weight_after_atom (a : Atom) (todo : List Literal) (σ τ : Substitution) :
    (Branch.goal todo τ).weight < (Branch.goal (.atom a :: todo) σ).weight := by
  simp only [Branch.weight, Literal.weightAll, Literal.weight]
  omega

theorem weight_call (a : Atom) (p : Predicate) (clauses : List Clause) (todo : List Literal)
    (σ τ : Substitution) :
    (Branch.call p clauses todo τ).weight < (Branch.goal (.atom a :: todo) σ).weight := by
  simp only [Branch.weight, Literal.weightAll, Literal.weight]
  omega

theorem weight_after_not {s : Search} {g : Goal} {todo : List Literal} {σ : Substitution}
    {rest : List Branch} (h : s.branches = .goal (.not g :: todo) σ :: rest) (found : Bool) :
    (s.withBranches (if found then rest else .goal todo σ :: rest)).weight < s.weight := by
  rw [weight_eq h, weight_withBranches]
  cases found <;>
    simp only [Bool.false_eq_true, ↓reduceIte, Branch.weightAll, Branch.weight,
      Literal.weightAll, Literal.weight] <;> omega

/-! ## Running -/

/-- Runs a search to its next answer. -/
def next (lookup : Lookup) (s : Search) : Option Substitution × Search :=
  match h : s.branches with
  | [] => (none, s)
  | .call _ [] _ _ :: rest =>
    have := before_rest h
    next lookup (s.withBranches rest)
  | .call p (c :: left) todo σ :: rest =>
    if hs : s.steps = 0 then (none, s.giveUp)
    else
      have := before_tried hs p c left todo σ rest
      next lookup (s.tried p c left todo σ rest)
  | .goal [] σ :: rest => (some σ, s.withBranches rest)
  | .goal (.atom a :: todo) σ :: rest =>
    match σ.apply a with
    | .compare c =>
      match c.solution? σ with
      | none =>
        have := before_rest h
        next lookup (s.withBranches rest)
      | some τ =>
        have := before_replace h (weight_after_atom a todo σ τ)
        next lookup (s.withBranches (.goal todo τ :: rest))
    | .predicate p =>
      match builtin? p with
      | some true =>
        have := before_replace h (weight_after_atom a todo σ σ)
        next lookup (s.withBranches (.goal todo σ :: rest))
      | some false =>
        have := before_rest h
        next lookup (s.withBranches rest)
      | none =>
        have := before_replace h (weight_call a p (lookup p) todo σ σ)
        next lookup (s.withBranches (.call p (lookup p) todo σ :: rest))
  | .goal (.not g :: todo) σ :: rest =>
    have := before_inside h
    let (answer, inner) := next lookup (s.inside g σ)
    have := before_resumed (weight_after_not h answer.isSome) inner
    next lookup (s.resumed inner (if answer.isSome then rest else .goal todo σ :: rest))
termination_by (s.steps, s.weight)
decreasing_by all_goals exact Before.lex this

/-- The result of a search leaves less to do, except when there is no answer. -/
def Leaves (r : Option Substitution × Search) (s : Search) : Prop :=
  Before r.2 s ∨ r.1 = none ∧ r.2.steps ≤ s.steps

theorem Before.leaves {s t : Search} {r : Option Substitution × Search} (ht : Before t s)
    (h : Leaves r t) : Leaves r s := by
  rcases h with h | ⟨h, hle⟩
  · exact .inl (h.trans ht)
  · exact .inr ⟨h, Nat.le_trans hle ht.steps_le⟩

theorem next_leaves (lookup : Lookup) (s : Search) : Leaves (next lookup s) s := by
  fun_induction next lookup s with
  | case1 s => exact .inr ⟨rfl, Nat.le_refl _⟩
  | case2 s _ _ _ _ _ hb ih => exact hb.leaves ih
  | case3 s => exact .inr ⟨rfl, Nat.le_refl _⟩
  | case4 s _ _ _ _ _ _ _ _ hb ih => exact hb.leaves ih
  | case5 s σ rest h => exact .inl (before_rest h)
  | case6 s _ _ _ _ _ _ _ _ hb ih => exact hb.leaves ih
  | case7 s _ _ _ _ _ _ _ _ _ hb ih => exact hb.leaves ih
  | case8 s _ _ _ _ _ _ _ _ hb ih => exact hb.leaves ih
  | case9 s _ _ _ _ _ _ _ _ hb ih => exact hb.leaves ih
  | case10 s _ _ _ _ _ _ _ _ hb ih => exact hb.leaves ih
  | case11 s _ _ _ _ _ _ _ _ _ hb _ ih => exact hb.leaves ih

/-- After an answer there is less left to do. -/
theorem before_of_next {lookup : Lookup} {s t : Search} {σ : Substitution}
    (h : next lookup s = (some σ, t)) : Before t s := by
  rcases next_leaves lookup s with hb | ⟨hn, _⟩
  · simpa [h] using hb
  · simp [h] at hn

/-- All further answers of a search, and the search when it has ended. -/
def rest (lookup : Lookup) (s : Search) : List Substitution × Search :=
  match h : next lookup s with
  | (none, t) => ([], t)
  | (some σ, t) =>
    have := before_of_next h
    let (more, ended) := rest lookup t
    (σ :: more, ended)
termination_by (s.steps, s.weight)
decreasing_by exact Before.lex this

/-- The next answers of a search, at most the given number of them. -/
def take (lookup : Lookup) (s : Search) : Nat → List Substitution × Search
  | 0 => ([], s)
  | n + 1 =>
    match next lookup s with
    | (none, t) => ([], t)
    | (some σ, t) =>
      let (more, t) := take lookup t n
      (σ :: more, t)

end Search

namespace Goal

/-- The answers of a search, restricted to the goal's variables. -/
def restricted (g : Goal) (answers : List Substitution) : List Substitution :=
  answers.map fun σ => σ.restrict («variables» g)

/-- All answers from given bindings, or as many as wanted, and the search after the last of them. -/
def answersFrom (g : Goal) (lookup : Lookup) (steps : Nat) (σ : Substitution) (most : Option Nat) :
    List Substitution × Search :=
  let s := Search.start g σ steps
  let (answers, s) := match most with
    | none => s.rest lookup
    | some n => s.take lookup n
  (g.restricted answers, s)

end Goal
end Horn
