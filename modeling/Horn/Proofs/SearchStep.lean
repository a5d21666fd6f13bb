import Horn.Resolution

/-!
A search one step at a time: what `next` makes of the first branch, and what becomes of a call
with a clause.  What every step hands on from a branch to those that replace it holds on the way to
every answer.
-/

namespace Horn
namespace Search

variable {lookup : Lookup} {a : Atom} {p : Predicate} {c : Clause} {todo : List Literal}
  {σ : Substitution} {rest : List Branch} {left : List Clause} {steps : Nat} {cut : Bool}

theorem next_answer :
    next lookup ⟨.goal [] σ :: rest, steps, cut⟩ = (some σ, ⟨rest, steps, cut⟩) := by
  rw [next]
  rfl

theorem next_tried :
    next lookup ⟨.call p (c :: left) todo σ :: rest, steps + 1, cut⟩ =
      next lookup
        ⟨(Branch.resolve? p c todo σ).toList ++ .call p left todo σ :: rest, steps, cut⟩ := by
  rw [next]
  rfl

theorem next_call (ha : σ.apply a = .predicate p) (hp : builtin? p = none) :
    next lookup ⟨.goal (.atom a :: todo) σ :: rest, steps, cut⟩ =
      next lookup ⟨.call p (lookup p) todo σ :: rest, steps, cut⟩ := by
  rw [next]
  dsimp only
  rw [ha]
  dsimp only
  rw [hp]
  rfl

theorem next_true (ha : σ.apply a = .predicate p) (hp : builtin? p = some true) :
    next lookup ⟨.goal (.atom a :: todo) σ :: rest, steps, cut⟩ =
      next lookup ⟨.goal todo σ :: rest, steps, cut⟩ := by
  rw [next]
  dsimp only
  rw [ha]
  dsimp only
  rw [hp]
  rfl

theorem next_fail (ha : σ.apply a = .predicate p) (hp : builtin? p = some false) :
    next lookup ⟨.goal (.atom a :: todo) σ :: rest, steps, cut⟩ = next lookup ⟨rest, steps, cut⟩ := by
  rw [next]
  dsimp only
  rw [ha]
  dsimp only
  rw [hp]
  rfl

theorem next_compare {d : Comparison} (ha : σ.apply a = .compare d) :
    next lookup ⟨.goal (.atom a :: todo) σ :: rest, steps, cut⟩ =
      next lookup ⟨(d.solution? σ).toList.map (.goal todo) ++ rest, steps, cut⟩ := by
  rw [next]
  dsimp only
  rw [ha]
  dsimp only
  cases d.solution? σ <;> rfl

theorem next_not {g : Goal} :
    next lookup ⟨.goal (.not g :: todo) σ :: rest, steps, cut⟩ =
      let (answer, inner) := next lookup ⟨[.goal g (σ.addVariables g)], steps, cut⟩
      next lookup
        ⟨if answer.isSome then rest else .goal todo σ :: rest, min steps inner.steps, inner.cut⟩ := by
  rw [next]
  rfl

theorem next_exhausted :
    next lookup ⟨.call p [] todo σ :: rest, steps, cut⟩ = next lookup ⟨rest, steps, cut⟩ := by
  rw [next]
  rfl

theorem next_giveUp :
    next lookup ⟨.call p (c :: left) todo σ :: rest, 0, cut⟩ = (none, ⟨[], 0, true⟩) := by
  rw [next]
  rfl

theorem next_no_steps {clauses : List Clause} :
    (next lookup ⟨[.call p clauses todo σ], 0, cut⟩).1 = none := by
  cases clauses with
  | nil =>
    rw [next_exhausted, next]
  | cons c left => rw [next_giveUp]

theorem next_nil : next lookup ⟨[], steps, cut⟩ = (none, ⟨[], steps, cut⟩) := by
  rw [next]

theorem rest_of_next_none {s t : Search} (h : next lookup s = (none, t)) :
    Search.rest lookup s = ([], t) := by
  rw [Search.rest]
  split
  · rename_i u hu
    rw [h] at hu
    rw [(Prod.mk.inj hu).2]
  · rename_i τ u hu
    rw [h] at hu
    cases hu

theorem rest_of_next_some {s t : Search} (h : next lookup s = (some σ, t)) :
    Search.rest lookup s = (σ :: (Search.rest lookup t).1, (Search.rest lookup t).2) := by
  rw [Search.rest]
  split
  · rename_i u hu
    rw [h] at hu
    cases hu
  · rename_i τ u hu
    rw [h] at hu
    obtain ⟨hτ, rfl⟩ := Prod.mk.inj hu
    rw [Option.some.inj hτ]

theorem rest_congr {s t : Search} (h : next lookup s = next lookup t) :
    Search.rest lookup s = Search.rest lookup t := by
  cases ht : next lookup t with
  | mk found u =>
    cases found with
    | none => rw [rest_of_next_none (h.trans ht), rest_of_next_none ht]
    | some σ => rw [rest_of_next_some (h.trans ht), rest_of_next_some ht]

/-- A call has the answers that its clauses give, when each gives one, at a step for each clause. -/
theorem rest_of_facts {clauses : List Clause} {answer : Clause → Substitution}
    (h : ∀ c ∈ clauses, Branch.resolve? p c [] σ = some (.goal [] (answer c))) :
    Search.rest lookup ⟨[.call p clauses [] σ], steps + clauses.length, cut⟩ =
      (clauses.map answer, ⟨[], steps, cut⟩) := by
  induction clauses with
  | nil => exact rest_of_next_none (next_exhausted.trans next_nil)
  | cons c left ih =>
    obtain ⟨hc, hleft⟩ := List.forall_mem_cons.1 h
    have hnext : next lookup ⟨[.call p (c :: left) [] σ], steps + left.length + 1, cut⟩ =
        (some (answer c), ⟨[.call p left [] σ], steps + left.length, cut⟩) := by
      rw [next_tried, hc]
      exact next_answer
    refine (rest_of_next_some hnext).trans ?_
    rw [ih hleft]
    rfl

/-- A call for which there is one clause, which answers it, has one answer. -/
theorem rest_of_fact {τ : Substitution} (ha : σ.apply a = .predicate p) (hp : builtin? p = none)
    (hlookup : lookup p = [c]) (hresolve : Branch.resolve? p c [] σ = some (.goal [] τ)) :
    Search.rest lookup ⟨[.goal [.atom a] σ], steps + 1, cut⟩ = ([τ], ⟨[], steps, cut⟩) := by
  rw [rest_congr (next_call ha hp), hlookup]
  have hclauses : ∀ d ∈ [c], Branch.resolve? p d [] σ = some (.goal [] τ) :=
    List.forall_mem_singleton.2 hresolve
  exact rest_of_facts hclauses

/-! ## Invariants of branches -/

/-- What holds of a branch holds of the branches that it is replaced with, and an answer has another
property. -/
structure Kept (lookup : Lookup) (P : Branch → Prop) (Q : Substitution → Prop) : Prop where
  answer : ∀ {σ}, P (.goal [] σ) → Q σ
  skip : ∀ {p c left todo σ}, P (.call p (c :: left) todo σ) → P (.call p left todo σ)
  resolve : ∀ {p c left todo σ b}, P (.call p (c :: left) todo σ) →
    Branch.resolve? p c todo σ = some b → P b
  compare : ∀ {a todo σ c τ}, P (.goal (.atom a :: todo) σ) → σ.apply a = .compare c →
    c.solution? σ = some τ → P (.goal todo τ)
  builtin : ∀ {a todo σ p}, P (.goal (.atom a :: todo) σ) → σ.apply a = .predicate p →
    builtin? p = some true → P (.goal todo σ)
  call : ∀ {a todo σ p}, P (.goal (.atom a :: todo) σ) → σ.apply a = .predicate p →
    builtin? p = none → P (.call p (lookup p) todo σ)
  negation : ∀ {g todo σ}, P (.goal (.not g :: todo) σ) → P (.goal todo σ)

theorem forall_branches {P : Branch → Prop} {s : Search} {b : Branch}
    (hs : ∀ b ∈ s.branches, P b) (h : s.branches = b :: rest) :
    P b ∧ ∀ b ∈ (s.withBranches rest).branches, P b := by
  rw [h] at hs
  exact List.forall_mem_cons.1 hs

/-- An invariant of branches holds of what is left after the next answer. -/
theorem Kept.next {P : Branch → Prop} {Q : Substitution → Prop} (hP : Kept lookup P Q) (s : Search)
    (hs : ∀ b ∈ s.branches, P b) :
    (∀ σ, (next lookup s).1 = some σ → Q σ) ∧ ∀ b ∈ (next lookup s).2.branches, P b := by
  fun_induction Search.next lookup s with
  | case1 s h => exact ⟨fun _ hσ => (Option.some_ne_none _ hσ.symm).elim, hs⟩
  | case2 s p todo σ rest h hb ih => exact ih (forall_branches hs h).2
  | case3 s p c left todo σ rest h h0 =>
    exact ⟨fun _ hσ => (Option.some_ne_none _ hσ.symm).elim, List.forall_mem_nil _⟩
  | case4 s p c left todo σ rest h h0 hb ih =>
    obtain ⟨hcall, hrest⟩ := forall_branches hs h
    refine ih (List.forall_mem_append.2 ⟨fun b hb => ?_, List.forall_mem_cons.2 ⟨?_, hrest⟩⟩)
    · exact hP.resolve hcall (Option.mem_toList.1 hb)
    · exact hP.skip hcall
  | case5 s σ rest h =>
    obtain ⟨hanswer, hrest⟩ := forall_branches hs h
    exact ⟨fun τ hτ => Option.some.inj hτ ▸ hP.answer hanswer, hrest⟩
  | case6 s a todo σ rest h c hc hnone hb ih => exact ih (forall_branches hs h).2
  | case7 s a todo σ rest h c hc τ hτ hb ih =>
    obtain ⟨hgoal, hrest⟩ := forall_branches hs h
    exact ih (List.forall_mem_cons.2 ⟨hP.compare hgoal hc hτ, hrest⟩)
  | case8 s a todo σ rest h p hp hbuilt hb ih =>
    obtain ⟨hgoal, hrest⟩ := forall_branches hs h
    exact ih (List.forall_mem_cons.2 ⟨hP.builtin hgoal hp hbuilt, hrest⟩)
  | case9 s a todo σ rest h p hp hbuilt hb ih => exact ih (forall_branches hs h).2
  | case10 s a todo σ rest h p hp hbuilt hb ih =>
    obtain ⟨hgoal, hrest⟩ := forall_branches hs h
    exact ih (List.forall_mem_cons.2 ⟨hP.call hgoal hp hbuilt, hrest⟩)
  | case11 s g todo σ rest h hb answer? inner hnext hb' ihin ih =>
    rw [dite_eq_ite] at ih
    obtain ⟨hgoal, hrest⟩ := forall_branches hs h
    refine ih ?_
    show ∀ b ∈ (if answer?.isSome then rest else .goal todo σ :: rest), P b
    split
    · exact hrest
    · exact List.forall_mem_cons.2 ⟨hP.negation hgoal, hrest⟩

/-! ## All answers -/

section

variable {P : Substitution → Prop} {Q : Search → Prop}
  (hnext : ∀ s, Q s → (∀ σ, (next lookup s).1 = some σ → P σ) ∧ Q (next lookup s).2)

include hnext

/-- What holds of the next answer of a search of some kind, when the search stays of that kind, holds
of all its answers. -/
theorem forall_rest {s : Search} (hs : Q s) : ∀ σ ∈ (Search.rest lookup s).1, P σ := by
  fun_induction Search.rest lookup s with
  | case1 s t h => exact nofun
  | case2 s σ t h hb more ended hrest ih =>
    have hfirst := hnext s hs
    rw [h] at hfirst
    rw [hrest] at ih
    exact List.forall_mem_cons.2 ⟨hfirst.1 σ rfl, ih hfirst.2⟩

theorem forall_take (n : Nat) {s : Search} (hs : Q s) : ∀ σ ∈ (take lookup s n).1, P σ := by
  induction n generalizing s with
  | zero => exact nofun
  | succ n ih =>
    have hfirst := hnext s hs
    rw [take]
    cases h : next lookup s with
    | mk found t =>
      rw [h] at hfirst
      cases found with
      | none => exact nofun
      | some σ => exact List.forall_mem_cons.2 ⟨hfirst.1 σ rfl, ih hfirst.2⟩

end

end Search

/-- A clause resolves with a call when its renamed head unifies with the call, and leaves its renamed
body in front of what follows. -/
theorem Branch.resolve?_eq_some_iff {p : Predicate} {c : Clause} {todo : List Literal}
    {σ : Substitution} {b : Branch} :
    resolve? p c todo σ = some b ↔ ∃ head τ, (σ.rename [] c).1.headPredicate = some head ∧
      (σ.rename [] c).2.2.unifyPredicates p head = .ok τ ∧
      b = .goal ((σ.rename [] c).1.bodyGoal ++ todo) τ := by
  unfold resolve?
  dsimp only
  constructor
  · intro h
    split at h
    · cases h
    · rename_i head hhead
      split at h
      · cases h
      · rename_i τ hunify
        exact ⟨head, τ, hhead, hunify, (Option.some.inj h).symm⟩
  · rintro ⟨head, τ, hhead, hunify, rfl⟩
    rw [hhead]
    dsimp only
    rw [hunify]

/-- A clause without variables is not changed by renaming, so only its head has to fit. -/
theorem Branch.resolve?_closed {p head : Predicate} {c : Clause} (todo : List Literal)
    {σ τ : Substitution} (hvars : «variables» c = []) (hsame : Renaming.apply [] c = c)
    (hhead : c.headPredicate = some head) (hunify : σ.unifyPredicates p head = .ok τ) :
    Branch.resolve? p c todo σ = some (.goal (c.bodyGoal ++ todo) τ) := by
  have hrename : σ.rename [] c = (c, [], σ) := by
    rw [Substitution.rename, hvars, List.foldl_nil]
    exact congrArg (·, [], σ) hsame
  refine resolve?_eq_some_iff.2 ⟨head, τ, ?_, ?_, ?_⟩ <;> rw [hrename]
  · exact hhead
  · exact hunify

/-- Constants unify when they are the same, and bind nothing. -/
theorem Substitution.unifyPredicates_symbol (σ : Substitution) (name a b : String) :
    (σ.unifyPredicates ⟨name, [.symbol a]⟩ ⟨name, [.symbol b]⟩).toOption =
      if a = b then some σ else none := by
  have hdemands : predicateDemands ⟨name, [.symbol a]⟩ ⟨name, [.symbol b]⟩ =
      [.equal (.symbol a) (.symbol b)] := by
    rw [predicateDemands, if_neg (fun h => h rfl), if_neg (fun h => h rfl)]
    rfl
  have hstep : σ.step (.symbol a) (.symbol b) =
      if Constant.symbol a = .symbol b then .ok (σ, []) else .error (clash (.symbol a) (.symbol b)) :=
    rfl
  rw [unifyPredicates, hdemands, solve]
  by_cases hab : a = b
  · rw [if_pos (congrArg Constant.symbol hab)] at hstep
    rw [if_pos hab]
    split
    · rename_i h
      cases hstep.symm.trans h
    · rename_i h
      obtain ⟨rfl, rfl⟩ := Prod.mk.inj (Except.ok.inj (hstep.symm.trans h))
      rw [List.append_nil, solve]
      rfl
  · rw [if_neg fun h => hab (Constant.symbol.inj h)] at hstep
    rw [if_neg hab]
    split
    · rfl
    · rename_i h
      cases hstep.symm.trans h

/-- A call with a constant is resolved by a fact with the same one. -/
theorem Branch.resolve?_symbol (name a b : String) (todo : List Literal) (σ : Substitution) :
    Branch.resolve? ⟨name, [.symbol a]⟩ (.fact (.predicate ⟨name, [.symbol b]⟩)) todo σ =
      if a = b then some (.goal todo σ) else none := by
  have hrename : σ.rename [] (Clause.fact (.predicate ⟨name, [.symbol b]⟩)) =
      (.fact (.predicate ⟨name, [.symbol b]⟩), [], σ) := rfl
  have hhead : (Clause.fact (.predicate ⟨name, [.symbol b]⟩)).headPredicate =
      some ⟨name, [.symbol b]⟩ := rfl
  have hunify := σ.unifyPredicates_symbol name a b
  unfold Branch.resolve?
  rw [hrename]
  dsimp only
  rw [hhead]
  dsimp only
  cases hu : σ.unifyPredicates ⟨name, [.symbol a]⟩ ⟨name, [.symbol b]⟩ with
  | error why =>
    rw [hu] at hunify
    by_cases hab : a = b
    · rw [if_pos hab] at hunify
      cases hunify
    · rw [if_neg hab]
  | ok τ =>
    rw [hu] at hunify
    by_cases hab : a = b
    · rw [if_pos hab] at hunify ⊢
      rw [Option.some.inj hunify]
      rfl
    · rw [if_neg hab] at hunify
      cases hunify

end Horn
