import Horn.Proofs.FrameSearch
import Horn.Proofs.Interpreter
import Horn.Proofs.MostGeneral
import Horn.Proofs.SearchStep

/-!
The search does what the interpreter says: the one with a stack of branches, and with it the one by
frames.

A stack stands for the runs of its branches one after the other.  One move of the search changes
the stack and keeps this run, so the answers, the steps left and the cut flag come out the same.
-/

namespace Horn
namespace Interpreter

/-- The run of one branch.  A call on the stack goes on with the clauses left for it. -/
def runBranch (lookup : Lookup) (level : Nat) (k : Follow) : Branch → Run → Run
  | .goal todo σ, r => solve lookup (level + 1) todo k σ r
  | .call p clauses todo σ, r =>
    clauses.foldl (tryClause (solve lookup level) p σ (solve lookup (level + 1) todo k)) r

/-- The run of a stack: a branch is left alone once the run is stopped. -/
def runBranches (lookup : Lookup) (level : Nat) (k : Follow) : List Branch → Run → Run
  | [], r => r
  | b :: rest, r =>
    if r.stopped then r else runBranches lookup level k rest (runBranch lookup level k b r)

/-- The run that a search stands for, with the answers it has given already. -/
def runSearch (lookup : Lookup) (level : Nat) (wanted : Option Nat) (answers : List Substitution)
    (s : Search) : Run :=
  runBranches lookup level (answer wanted) s.branches ⟨answers, s.steps, s.cut, false⟩

/-- What a run is compared by. -/
def Run.outcome (r : Run) : List Substitution × Nat × Bool := (r.answers, r.steps, r.cut)

theorem runBranches_stopped (lookup : Lookup) (level : Nat) (k : Follow) (bs : List Branch)
    {r : Run} (h : r.stopped = true) : runBranches lookup level k bs r = r := by
  cases bs with
  | nil => rfl
  | cons b rest => rw [runBranches, if_pos h]

theorem runBranches_cons (lookup : Lookup) (level : Nat) (k : Follow) (b : Branch)
    (rest : List Branch) {r : Run} (h : r.stopped = false) :
    runBranches lookup level k (b :: rest) r =
      runBranches lookup level k rest (runBranch lookup level k b r) := by
  rw [runBranches, if_neg (by simp [h])]

theorem foldl_tryClause_stopped (inside : Goal → Follow → Follow) (p : Predicate)
    (σ : Substitution) (k : Follow) (cs : List Clause) {r : Run} (h : r.stopped = true) :
    cs.foldl (tryClause inside p σ k) r = r := by
  induction cs with
  | nil => rfl
  | cons c cs ih =>
    have hc : tryClause inside p σ k r c = r := by rw [tryClause, if_pos h]
    rw [List.foldl_cons, hc, ih]

/-- A call that is due runs like a branch even when the run is stopped. -/
theorem runBranches_call (lookup : Lookup) (level : Nat) (k : Follow) (p : Predicate)
    (cs : List Clause) (todo : List Literal) (σ : Substitution) (rest : List Branch) (r : Run) :
    runBranches lookup level k (.call p cs todo σ :: rest) r =
      runBranches lookup level k rest (runBranch lookup level k (.call p cs todo σ) r) := by
  cases h : r.stopped with
  | false => exact runBranches_cons lookup level k _ rest h
  | true =>
    have hcall : runBranch lookup level k (.call p cs todo σ) r = r :=
      foldl_tryClause_stopped _ _ _ _ cs h
    rw [hcall, runBranches_stopped lookup level k _ h, runBranches_stopped lookup level k _ h]

theorem resolve?_eq_resolvent? (p : Predicate) (c : Clause) (todo : List Literal)
    (σ : Substitution) :
    Branch.resolve? p c todo σ =
      (resolvent? p c σ).map fun b => .goal (b.1 ++ todo) b.2 := by
  unfold Branch.resolve? resolvent?
  dsimp only
  cases (σ.rename [] c).1.headPredicate with
  | none => rfl
  | some head =>
    dsimp only
    cases Substitution.unifyPredicates _ p head <;> rfl

theorem solveGoal_append (lookup : Lookup) (inside : Goal → Follow → Follow) (g h : List Literal)
    (k : Follow) :
    solveGoal lookup inside (g ++ h) k =
      solveGoal lookup inside g (solveGoal lookup inside h k) := by
  induction g with
  | nil => rfl
  | cons l g ih => rw [List.cons_append, solveGoal, solveGoal, ih]

/-- A clause body on the stack runs one level higher than the interpreter puts it; the steps do not
reach that far. -/
theorem runBranch_body (lookup : Lookup) {level : Nat} {k : Follow} (hk : Frugal k) (body : Goal)
    (todo : List Literal) (τ : Substitution) {r : Run} (hr : r.steps < level) :
    runBranch lookup level k (.goal (body ++ todo) τ) r =
      solve lookup level body (solve lookup (level + 1) todo k) τ r := by
  have hrest : Frugal (solve lookup (level + 1) todo k) := solve_frugal lookup (level + 1) todo k hk
  show solveGoal lookup (solve lookup level) (body ++ todo) k τ r = _
  rw [solveGoal_append]
  exact solve_agree lookup r.steps (Nat.lt_succ_of_lt hr) hr body _ _ hrest (fun _ _ _ => rfl) τ r
    (Nat.le_refl _)

/-! ## Moves of the search -/

section

variable (lookup : Lookup) (level : Nat) (wanted : Option Nat) (answers : List Substitution)
  {s : Search}

theorem runSearch_nil (h : s.branches = []) :
    runSearch lookup level wanted answers s = ⟨answers, s.steps, s.cut, false⟩ := by
  rw [runSearch, h, runBranches]

/-- A branch whose run changes nothing can be dropped. -/
theorem runSearch_drop {b : Branch} {rest : List Branch} (h : s.branches = b :: rest)
    (hb : ∀ r, runBranch lookup level (answer wanted) b r = r) :
    runSearch lookup level wanted answers s =
      runSearch lookup level wanted answers (s.withBranches rest) := by
  rw [runSearch, h, runBranches_cons _ _ _ _ _ rfl, hb]
  rfl

/-- A branch can be replaced by one with the same run. -/
theorem runSearch_replace {b b' : Branch} {rest : List Branch} (h : s.branches = b :: rest)
    (hb : ∀ r, runBranch lookup level (answer wanted) b r =
      runBranch lookup level (answer wanted) b' r) :
    runSearch lookup level wanted answers s =
      runSearch lookup level wanted answers (s.withBranches (b' :: rest)) := by
  show _ = runBranches lookup level _ (b' :: rest) _
  rw [runSearch, h, runBranches_cons _ _ _ _ _ rfl, hb, runBranches_cons _ _ _ _ _ rfl]
  rfl

theorem runSearch_answer {σ : Substitution} {rest : List Branch}
    (h : s.branches = .goal [] σ :: rest) :
    runSearch lookup level wanted answers s =
      runBranches lookup level (answer wanted) rest
        (answer wanted σ ⟨answers, s.steps, s.cut, false⟩) := by
  rw [runSearch, h, runBranches_cons _ _ _ _ _ rfl]
  rfl

theorem runSearch_giveUp {p : Predicate} {c : Clause} {left : List Clause} {todo : List Literal}
    {σ : Substitution} {rest : List Branch} (h : s.branches = .call p (c :: left) todo σ :: rest)
    (h0 : s.steps = 0) :
    (runSearch lookup level wanted answers s).outcome = (answers, s.steps, true) := by
  rw [runSearch, h, runBranches_cons _ _ _ _ _ rfl, runBranch, List.foldl_cons]
  have hc : ∀ inside k, tryClause inside p σ k ⟨answers, s.steps, s.cut, false⟩ c =
      ⟨answers, s.steps, true, true⟩ := by
    intro inside k
    rw [tryClause, if_neg Bool.false_ne_true, if_pos h0]
    rfl
  rw [hc, foldl_tryClause_stopped _ _ _ _ left rfl, runBranches_stopped _ _ _ _ rfl]
  rfl

theorem runSearch_tried {p : Predicate} {c : Clause} {left : List Clause} {todo : List Literal}
    {σ : Substitution} {rest : List Branch} (h : s.branches = .call p (c :: left) todo σ :: rest)
    (h0 : s.steps ≠ 0) (hl : s.steps ≤ level) :
    runSearch lookup level wanted answers s =
      runSearch lookup level wanted answers (s.tried p c left todo σ rest) := by
  show _ = runBranches lookup level _
    ((Branch.resolve? p c todo σ).toList ++ .call p left todo σ :: rest)
    ⟨answers, s.steps - 1, s.cut, false⟩
  have hspend : (⟨answers, s.steps, s.cut, false⟩ : Run).spend =
      ⟨answers, s.steps - 1, s.cut, false⟩ := rfl
  rw [runSearch, h, runBranches_cons _ _ _ _ _ rfl, runBranch, List.foldl_cons, tryClause,
    if_neg Bool.false_ne_true, if_neg h0, resolve?_eq_resolvent?, hspend]
  cases resolvent? p c σ with
  | none =>
    show _ = runBranches lookup level _ (.call p left todo σ :: rest) _
    rw [runBranches_call]
    rfl
  | some b =>
    show _ = runBranches lookup level _ (.goal (b.1 ++ todo) b.2 :: .call p left todo σ :: rest) _
    have hlt : s.steps - 1 < level := by omega
    rw [runBranches_cons _ _ _ _ _ rfl, runBranches_call,
      runBranch_body lookup (answer_frugal wanted) b.1 todo b.2 hlt]
    rfl

end

/-! ## Runs of the search -/

/-- What a search gives next agrees with the run it stands for. -/
def Computes (lookup : Lookup) (level : Nat) (s : Search) : Option Substitution × Search → Prop
  | (none, t) => ∀ wanted answers,
    (runSearch lookup level wanted answers s).outcome = (answers, t.steps, t.cut)
  | (some τ, t) => ∀ wanted answers,
    runSearch lookup level wanted answers s =
      runBranches lookup level (answer wanted) t.branches
        (answer wanted τ ⟨answers, t.steps, t.cut, false⟩)

theorem Computes.of_eq {lookup : Lookup} {level : Nat} {s t : Search}
    {result : Option Substitution × Search} (h : Computes lookup level t result)
    (heq : ∀ wanted answers, runSearch lookup level wanted answers s =
      runSearch lookup level wanted answers t) : Computes lookup level s result := by
  obtain ⟨answer?, u⟩ := result
  cases answer? with
  | none =>
    intro wanted answers
    rw [heq]
    exact h wanted answers
  | some τ =>
    intro wanted answers
    rw [heq]
    exact h wanted answers

/-- The run inside a negated goal, by what the search inside it gives. -/
theorem solve_nested {lookup : Lookup} {level : Nat} {g : Goal} {σ : Substitution} {r : Run}
    {s : Search} (hr : r.nested = ⟨[], s.steps, s.cut, false⟩)
    {result : Option Substitution × Search}
    (h : Computes lookup level (s.inside g σ) result) :
    (solve lookup (level + 1) g (answer (some 1)) (σ.addVariables g) r.nested).outcome =
      (result.1.toList, result.2.steps, result.2.cut) := by
  have hrun : runSearch lookup level (some 1) [] (s.inside g σ) =
      solve lookup (level + 1) g (answer (some 1)) (σ.addVariables g) r.nested := by
    rw [hr]
    rfl
  obtain ⟨answer?, t⟩ := result
  cases answer? with
  | none =>
    rw [← hrun]
    exact h (some 1) []
  | some τ =>
    rw [← hrun, h (some 1) [], runBranches_stopped _ _ _ _ rfl]
    rfl

/-- After a negated goal the run goes on as the search does. -/
theorem runSearch_not {lookup : Lookup} {level : Nat} (wanted : Option Nat)
    (answers : List Substitution) {s : Search} {g : Goal} {todo : List Literal} {σ : Substitution}
    {rest : List Branch} (h : s.branches = .goal (.not g :: todo) σ :: rest)
    {result : Option Substitution × Search} (hle : result.2.steps ≤ s.steps)
    (hin : Computes lookup level (s.inside g σ) result) :
    runSearch lookup level wanted answers s =
      runSearch lookup level wanted answers
        (s.resumed result.2 (if result.1.isSome then rest else .goal todo σ :: rest)) := by
  have hinner := solve_nested (r := ⟨answers, s.steps, s.cut, false⟩) rfl hin
  rw [runSearch, h, runBranches_cons _ _ _ _ _ rfl]
  show runBranches lookup level _ rest
    (solveLiteral lookup (solve lookup level) (.not g) (solve lookup (level + 1) todo _) σ _) = _
  rw [solveLiteral]
  dsimp only
  generalize hi : solveGoal lookup (solve lookup level) g (answer (some 1)) (σ.addVariables g)
    (Run.nested ⟨answers, s.steps, s.cut, false⟩) = inner
  have hout : inner.outcome = (result.1.toList, result.2.steps, result.2.cut) := by
    rw [← hi]
    exact hinner
  obtain ⟨answer?, t⟩ := result
  obtain ⟨found, steps, cut, stopped⟩ := inner
  simp only [Run.outcome, Prod.mk.injEq] at hout
  obtain ⟨rfl, rfl, rfl⟩ := hout
  have hmin : min s.steps t.steps = t.steps := Nat.min_eq_right hle
  cases answer? with
  | none =>
    show runBranches lookup level _ rest (solve lookup (level + 1) todo _ σ
      ⟨answers, t.steps, t.cut, false⟩) = _
    simp only [runSearch, Search.resumed, hmin, Option.isSome_none, Bool.false_eq_true, if_false]
    rw [runBranches_cons _ _ _ _ _ rfl]
    rfl
  | some τ =>
    simp only [runSearch, Search.resumed, hmin, Option.isSome_some, if_true]
    rfl

theorem steps_next_le (lookup : Lookup) (s : Search) : (s.next lookup).2.steps ≤ s.steps := by
  rcases Search.next_leaves lookup s with h | ⟨-, h⟩
  · exact h.steps_le
  · exact h

theorem next_computes (lookup : Lookup) (s : Search) :
    ∀ level, s.steps ≤ level → Computes lookup level s (s.next lookup) := by
  fun_induction Search.next lookup s with
  | case1 s h =>
    intro level _ wanted answers
    show (runSearch lookup level wanted answers s).outcome = _
    rw [runSearch_nil _ _ _ _ h]
    rfl
  | case2 s p todo σ rest h hb ih =>
    intro level hl
    exact (ih level hl).of_eq fun wanted answers =>
      runSearch_drop lookup level wanted answers h fun _ => rfl
  | case3 s p c left todo σ rest h h0 =>
    intro level _ wanted answers
    exact runSearch_giveUp lookup level wanted answers h h0
  | case4 s p c left todo σ rest h h0 hb ih =>
    intro level hl
    exact (ih level (Nat.le_trans (Nat.sub_le _ _) hl)).of_eq fun wanted answers =>
      runSearch_tried lookup level wanted answers h h0 hl
  | case5 s σ rest h =>
    intro level _ wanted answers
    exact runSearch_answer lookup level wanted answers h
  | case6 s a todo σ rest h c hc hs hb ih =>
    intro level hl
    refine (ih level hl).of_eq fun wanted answers =>
      runSearch_drop lookup level wanted answers h fun r => ?_
    simp only [runBranch, solve, solveGoal, solveLiteral, solveAtom, hc, hs]
  | case7 s a todo σ rest h c hc τ hs hb ih =>
    intro level hl
    refine (ih level hl).of_eq fun wanted answers =>
      runSearch_replace lookup level wanted answers h fun r => ?_
    simp only [runBranch, solve, solveGoal, solveLiteral, solveAtom, hc, hs]
  | case8 s a todo σ rest h p hp hbuilt hb ih =>
    intro level hl
    refine (ih level hl).of_eq fun wanted answers =>
      runSearch_replace lookup level wanted answers h fun r => ?_
    simp only [runBranch, solve, solveGoal, solveLiteral, solveAtom, hp, hbuilt]
  | case9 s a todo σ rest h p hp hbuilt hb ih =>
    intro level hl
    refine (ih level hl).of_eq fun wanted answers =>
      runSearch_drop lookup level wanted answers h fun r => ?_
    simp only [runBranch, solve, solveGoal, solveLiteral, solveAtom, hp, hbuilt]
  | case10 s a todo σ rest h p hp hbuilt hb ih =>
    intro level hl
    refine (ih level hl).of_eq fun wanted answers =>
      runSearch_replace lookup level wanted answers h fun r => ?_
    simp only [runBranch, solve, solveGoal, solveLiteral, solveAtom, hp, hbuilt]
  | case11 s g todo σ rest h hb answer? inner hnext hb' ihin ih =>
    intro level hl
    have hin : Computes lookup level (s.inside g σ) (answer?, inner) := hnext ▸ ihin level hl
    have hle : inner.steps ≤ s.steps := by
      have := steps_next_le lookup (s.inside g σ)
      rw [hnext] at this
      exact this
    rw [dite_eq_ite] at ih
    exact (ih level (Nat.le_trans (Nat.min_le_left _ _) hl)).of_eq fun wanted answers =>
      runSearch_not wanted answers h hle hin

theorem Search.branches_of_next_none {lookup : Lookup} {s t : Search}
    (h : s.next lookup = (none, t)) : t.branches = [] := by
  fun_induction Search.next lookup s with
  | case1 s hs =>
    obtain ⟨-, rfl⟩ := Prod.mk.inj h
    exact hs
  | case3 =>
    obtain ⟨-, rfl⟩ := Prod.mk.inj h
    rfl
  | case5 => simp at h
  | case2 _ _ _ _ _ _ _ ih => exact ih h
  | case4 _ _ _ _ _ _ _ _ _ _ ih => exact ih h
  | case6 _ _ _ _ _ _ _ _ _ _ ih => exact ih h
  | case7 _ _ _ _ _ _ _ _ _ _ _ ih => exact ih h
  | case8 _ _ _ _ _ _ _ _ _ _ ih => exact ih h
  | case9 _ _ _ _ _ _ _ _ _ _ ih => exact ih h
  | case10 _ _ _ _ _ _ _ _ _ _ ih => exact ih h
  | case11 _ _ _ _ _ _ _ _ _ _ _ _ ih =>
    rw [dite_eq_ite] at ih
    exact ih h

/-- All answers of a search are those of its run, and it ends with nothing left to explore. -/
theorem rest_computes (lookup : Lookup) (s : Search) (level : Nat) (hl : s.steps ≤ level)
    (answers : List Substitution) :
    (runSearch lookup level none answers s).outcome =
        (answers ++ (s.rest lookup).1, (s.rest lookup).2.steps, (s.rest lookup).2.cut) ∧
      (s.rest lookup).2.branches = [] := by
  fun_induction Search.rest lookup s generalizing answers with
  | case1 s t h =>
    have hc := next_computes lookup s level hl
    rw [h] at hc
    exact ⟨by rw [hc none answers, List.append_nil], Search.branches_of_next_none h⟩
  | case2 s σ t h hb more ended hrest ih =>
    have hc := next_computes lookup s level hl
    rw [h] at hc
    obtain ⟨hrun, hend⟩ := ih (Nat.le_trans hb.steps_le hl) (answers ++ [σ])
    rw [hrest] at hrun hend
    refine ⟨?_, hend⟩
    rw [hc none answers, ← List.singleton_append, ← List.append_assoc]
    exact hrun

/-- Taking answers is the run that wants so many more. -/
theorem take_computes (lookup : Lookup) (level : Nat) (n : Nat) (s : Search)
    (hl : s.steps ≤ level) (answers : List Substitution) :
    (runSearch lookup level (some (answers.length + (n + 1))) answers s).outcome =
      (answers ++ (s.take lookup (n + 1)).1, (s.take lookup (n + 1)).2.steps,
        (s.take lookup (n + 1)).2.cut) := by
  induction n generalizing s answers with
  | zero =>
    have hc := next_computes lookup s level hl
    rw [Search.take]
    cases h : s.next lookup with
    | mk answer? t =>
      rw [h] at hc
      cases answer? with
      | none => rw [hc _ answers, List.append_nil]
      | some σ =>
        rw [hc _ answers, runBranches_stopped _ _ _ _ (by simp [answer])]
        rfl
  | succ n ih =>
    have hc := next_computes lookup s level hl
    rw [Search.take]
    cases h : s.next lookup with
    | mk answer? t =>
      rw [h] at hc
      cases answer? with
      | none => rw [hc _ answers, List.append_nil]
      | some σ =>
        have hb := Search.before_of_next h
        have hrun := ih t (Nat.le_trans hb.steps_le hl) (answers ++ [σ])
        have hlen : (answers ++ [σ]).length + (n + 1) = answers.length + (n + 1 + 1) := by
          rw [List.length_append, List.length_singleton]
          omega
        rw [hlen, List.append_assoc] at hrun
        rw [hc _ answers]
        have hgo : answer (some (answers.length + (n + 1 + 1))) σ
            ⟨answers, t.steps, t.cut, false⟩ = ⟨answers ++ [σ], t.steps, t.cut, false⟩ := by
          simp [answer]
        rw [hgo]
        exact hrun

/-- The one stack gives the answers of the interpreter, all of them or as many as wanted, and ends
with its steps and its cut flag. -/
theorem answersFrom_eq_run (lookup : Lookup) (g : Goal) (σ : Substitution) (steps : Nat) :
    (∀ wanted, let r := run lookup g σ steps wanted
      (g.answersFrom lookup steps σ wanted).1 = g.restricted r.answers ∧
      (g.answersFrom lookup steps σ wanted).2.steps = r.steps ∧
      (g.answersFrom lookup steps σ wanted).2.cut = r.cut) ∧
    (g.answersFrom lookup steps σ none).2.branches = [] := by
  have hstart : ∀ wanted, wanted ≠ some 0 → run lookup g σ steps wanted =
      runSearch lookup steps wanted [] (Search.start g σ steps) := by
    intro wanted h
    rw [run, if_neg h]
    rfl
  have hall := rest_computes lookup (Search.start g σ steps) steps (Nat.le_refl _) []
  refine ⟨fun wanted => ?_, hall.2⟩
  match wanted with
  | none =>
    have h := hall.1
    rw [← hstart none (by simp)] at h
    simp only [Run.outcome, Prod.mk.injEq, List.nil_append] at h
    obtain ⟨hanswers, hsteps, hcut⟩ := h
    exact ⟨congrArg g.restricted hanswers.symm, hsteps.symm, hcut.symm⟩
  | some 0 => exact ⟨rfl, rfl, rfl⟩
  | some (n + 1) =>
    have h := take_computes lookup steps n (Search.start g σ steps) (Nat.le_refl _) []
    rw [List.length_nil, Nat.zero_add, ← hstart (some (n + 1)) (by simp)] at h
    simp only [Run.outcome, Prod.mk.injEq, List.nil_append] at h
    obtain ⟨hanswers, hsteps, hcut⟩ := h
    exact ⟨congrArg g.restricted hanswers.symm, hsteps.symm, hcut.symm⟩

/-- Enumerating the answers of a goal by frames, all of them or as many as wanted, gives the answers
of the interpreter in its order and ends with its steps and its cut flag; when all are wanted no
frame is left. -/
theorem solutions_eq_run (lookup : Lookup) (g : Goal) {σ : Substitution} (hσ : σ.Reachable)
    (steps : Nat) :
    (∀ wanted, let r := run lookup g σ steps wanted
      (g.solutions lookup steps σ wanted).1 = g.restricted r.answers ∧
      (g.solutions lookup steps σ wanted).2.budget.remaining = r.steps ∧
      (g.solutions lookup steps σ wanted).2.budget.exhausted = r.cut) ∧
    (g.solutions lookup steps σ none).2.frames = [] := by
  obtain ⟨hframes, hend⟩ := g.solutions_eq_answersFrom lookup steps hσ
  obtain ⟨hrun, -⟩ := answersFrom_eq_run lookup g σ steps
  refine ⟨fun wanted => ?_, hend⟩
  obtain ⟨hanswers, hsteps, hcut⟩ := hframes wanted
  obtain ⟨hanswers', hsteps', hcut'⟩ := hrun wanted
  exact ⟨hanswers.trans hanswers', hsteps.trans hsteps', hcut.trans hcut'⟩

/-- The goal `p(X), not(q(X))`. -/
def unlessGoal : Goal :=
  [.atom (.predicate ⟨"p", [.var (.named "X")]⟩), .not [.atom (.predicate ⟨"q", [.var (.named "X")]⟩)]]

/-- The facts `p(b)`, `p(a)` and `q(b)`. -/
def unlessFacts (p : Predicate) : List Clause :=
  if p.name = "p" then [.fact (.predicate ⟨"p", [.symbol "b"]⟩), .fact (.predicate ⟨"p", [.symbol "a"]⟩)]
  else [.fact (.predicate ⟨"q", [.symbol "b"]⟩)]

/-- Where `X` is bound to `a`, the search passes over a fact, finds the other one, fails to answer the
negated goal and gives its one answer, after three steps. -/
theorem answersFrom_unless {σ : Substitution} (hσ : σ.apply (Term.var (.named "X")) = .symbol "a") :
    (unlessGoal.answersFrom unlessFacts 5 σ none).1 =
        unlessGoal.restricted [σ.addVariables unlessGoal] ∧
      (unlessGoal.answersFrom unlessFacts 5 σ none).2.steps = 2 ∧
      (unlessGoal.answersFrom unlessFacts 5 σ none).2.cut = false := by
  let τ := σ.addVariables unlessGoal
  let υ := τ.addVariables [Literal.atom (.predicate ⟨"q", [.var (.named "X")]⟩)]
  have hp : τ.apply (Atom.predicate ⟨"p", [.var (.named "X")]⟩) = .predicate ⟨"p", [.symbol "a"]⟩ :=
    congrArg (fun t => Atom.predicate ⟨"p", [t]⟩) hσ
  have hq : υ.apply (Atom.predicate ⟨"q", [.var (.named "X")]⟩) = .predicate ⟨"q", [.symbol "a"]⟩ :=
    congrArg (fun t => Atom.predicate ⟨"q", [t]⟩) hσ
  have hinner : Search.next unlessFacts
      ⟨[.goal [.atom (.predicate ⟨"q", [.var (.named "X")]⟩)] υ], 3, false⟩ =
        (none, ⟨[], 2, false⟩) := by
    rw [Search.next_call hq rfl]
    show Search.next unlessFacts ⟨[.call ⟨"q", [.symbol "a"]⟩ [.fact _] [] υ], 2 + 1, false⟩ = _
    rw [Search.next_tried, Branch.resolve?_symbol, if_neg (by decide)]
    show Search.next unlessFacts ⟨[.call _ [] [] υ], 2, false⟩ = _
    rw [Search.next_exhausted, Search.next_nil]
  have hnext : Search.next unlessFacts (Search.start unlessGoal σ 5) =
      (some τ, ⟨[.call ⟨"p", [.symbol "a"]⟩ [] [.not [.atom (.predicate ⟨"q", [.var (.named "X")]⟩)]] τ],
        2, false⟩) := by
    show Search.next unlessFacts ⟨[.goal (.atom _ :: _) τ], 5, false⟩ = _
    rw [Search.next_call hp rfl]
    show Search.next unlessFacts
      ⟨[.call ⟨"p", [.symbol "a"]⟩ [.fact (.predicate ⟨"p", [.symbol "b"]⟩), _] _ τ], 4 + 1, false⟩ = _
    rw [Search.next_tried, Branch.resolve?_symbol, if_neg (by decide)]
    show Search.next unlessFacts
      ⟨[.call ⟨"p", [.symbol "a"]⟩ [.fact (.predicate ⟨"p", [.symbol "a"]⟩)] _ τ], 3 + 1, false⟩ = _
    rw [Search.next_tried, Branch.resolve?_symbol, if_pos rfl]
    show Search.next unlessFacts ⟨.goal (.not _ :: []) τ :: _, 3, false⟩ = _
    rw [Search.next_not, hinner]
    exact Search.next_answer
  have hend : Search.next unlessFacts
      ⟨[.call ⟨"p", [.symbol "a"]⟩ [] [.not [.atom (.predicate ⟨"q", [.var (.named "X")]⟩)]] τ], 2,
        false⟩ = (none, ⟨[], 2, false⟩) := by
    rw [Search.next_exhausted, Search.next_nil]
  have hrest := (Search.rest_of_next_some hnext).trans
    (congrArg (fun r => (τ :: r.1, r.2)) (Search.rest_of_next_none hend))
  have hanswers : unlessGoal.answersFrom unlessFacts 5 σ none =
      (unlessGoal.restricted [τ], ⟨[], 2, false⟩) := by
    show (unlessGoal.restricted _, _) = _
    rw [hrest]
  rw [hanswers]
  exact ⟨rfl, rfl, rfl⟩

/-- With `X` bound to `a` both machines give one answer and have two of five steps left. -/
theorem solutions_unless : ∃ σ : Substitution,
    Substitution.empty.unify (.var (.named "X")) (.symbol "a") = .ok σ ∧ σ.Reachable ∧
      (unlessGoal.solutions unlessFacts 5 σ none).1 =
        unlessGoal.restricted [σ.addVariables unlessGoal] ∧
      (unlessGoal.solutions unlessFacts 5 σ none).2.budget.remaining = 2 ∧
      (unlessGoal.solutions unlessFacts 5 σ none).2.budget.exhausted = false ∧
      (unlessGoal.solutions unlessFacts 5 σ none).2.frames = [] ∧
      unlessGoal.restricted (run unlessFacts unlessGoal σ 5 none).answers =
        unlessGoal.restricted [σ.addVariables unlessGoal] ∧
      (run unlessFacts unlessGoal σ 5 none).steps = 2 ∧
      (run unlessFacts unlessGoal σ 5 none).cut = false := by
  obtain ⟨σ, hσ⟩ : ∃ σ, Substitution.empty.unify (.var (.named "X")) (.symbol "a") = .ok σ :=
    Substitution.exists_unify (θ := ⟨fun _ => .symbol "a", fun _ => rfl⟩)
      Substitution.Reachable.empty.isNormal rfl rfl (fun _ => rfl) rfl
  have hreachable : σ.Reachable := .unify .empty hσ
  have hnormal := hreachable.isNormal
  have hvalue := ((Substitution.respects_of_unify hσ).1
    (Substitution.valuation_respects hnormal)).2
  rw [Substitution.valuation_apply, Substitution.valuation_apply] at hvalue
  obtain ⟨hflat, hsteps, hcut⟩ := answersFrom_unless (hvalue.trans rfl)
  obtain ⟨hrun, hframes⟩ := solutions_eq_run unlessFacts unlessGoal hreachable 5
  obtain ⟨hanswers, hleft, hended⟩ := hrun none
  obtain ⟨hstack, -⟩ := answersFrom_eq_run unlessFacts unlessGoal σ 5
  obtain ⟨hanswers', hleft', hended'⟩ := hstack none
  have hruns := hanswers'.symm.trans hflat
  have hspent := hleft'.symm.trans hsteps
  have huncut := hended'.symm.trans hcut
  exact ⟨σ, hσ, hreachable, hanswers.trans hruns, hleft.trans hspent, hended.trans huncut, hframes,
    hruns, hspent, huncut⟩

end Interpreter
end Horn
