import Horn.Proofs.SearchStep

/-!
The clauses that a search tries.  A derivation has one rule for each thing a search can do to its first
branch, and keeps a record of every call and clause for which a step is spent, those inside negated
goals among them.  Every search has such a derivation, so it comes to an answer or an end, and the
record together with the steps left over makes up the steps at the start.  An answer takes a goal off
the stack and only a tried clause puts one there, which bounds the answers.
-/

namespace Horn
namespace Search

variable {lookup : Lookup}

/-- A search comes to its next answer, or to its end, and tries these clauses on the way. -/
inductive Attempts (lookup : Lookup) :
    Search → List (Predicate × Clause) → Option Substitution × Search → Prop where
  | ended {steps cut} : Attempts lookup ⟨[], steps, cut⟩ [] (none, ⟨[], steps, cut⟩)
  | exhausted {p todo σ rest steps cut cs r} (h : Attempts lookup ⟨rest, steps, cut⟩ cs r) :
    Attempts lookup ⟨.call p [] todo σ :: rest, steps, cut⟩ cs r
  | gaveUp {p c left todo σ rest cut} :
    Attempts lookup ⟨.call p (c :: left) todo σ :: rest, 0, cut⟩ [] (none, ⟨[], 0, true⟩)
  | tried {p c left todo σ rest steps cut cs r}
    (h : Attempts lookup
      ⟨(Branch.resolve? p c todo σ).toList ++ .call p left todo σ :: rest, steps, cut⟩ cs r) :
    Attempts lookup ⟨.call p (c :: left) todo σ :: rest, steps + 1, cut⟩ ((p, c) :: cs) r
  | answered {σ rest steps cut} :
    Attempts lookup ⟨.goal [] σ :: rest, steps, cut⟩ [] (some σ, ⟨rest, steps, cut⟩)
  | compared {a d todo σ rest steps cut cs r} (ha : σ.apply a = .compare d)
    (h : Attempts lookup ⟨(d.solution? σ).toList.map (.goal todo) ++ rest, steps, cut⟩ cs r) :
    Attempts lookup ⟨.goal (.atom a :: todo) σ :: rest, steps, cut⟩ cs r
  | passed {a p todo σ rest steps cut cs r} (ha : σ.apply a = .predicate p)
    (hp : builtin? p = some true) (h : Attempts lookup ⟨.goal todo σ :: rest, steps, cut⟩ cs r) :
    Attempts lookup ⟨.goal (.atom a :: todo) σ :: rest, steps, cut⟩ cs r
  | failed {a p todo σ rest steps cut cs r} (ha : σ.apply a = .predicate p)
    (hp : builtin? p = some false) (h : Attempts lookup ⟨rest, steps, cut⟩ cs r) :
    Attempts lookup ⟨.goal (.atom a :: todo) σ :: rest, steps, cut⟩ cs r
  | called {a p todo σ rest steps cut cs r} (ha : σ.apply a = .predicate p)
    (hp : builtin? p = none)
    (h : Attempts lookup ⟨.call p (lookup p) todo σ :: rest, steps, cut⟩ cs r) :
    Attempts lookup ⟨.goal (.atom a :: todo) σ :: rest, steps, cut⟩ cs r
  /-- The search inside a negated goal spends the steps of the search around it. -/
  | negated {g todo σ rest steps cut cs answer inner ds r}
    (hin : Attempts lookup ⟨[.goal g (σ.addVariables g)], steps, cut⟩ cs (answer, inner))
    (hout : Attempts lookup
      ⟨if answer.isSome then rest else .goal todo σ :: rest, inner.steps, inner.cut⟩ ds r) :
    Attempts lookup ⟨.goal (.not g :: todo) σ :: rest, steps, cut⟩ (cs ++ ds) r

/-- A search comes to these answers one after the other and then ends. -/
inductive Runs (lookup : Lookup) :
    Search → List (Predicate × Clause) → List Substitution × Search → Prop where
  | ended {s cs t} (h : Attempts lookup s cs (none, t)) : Runs lookup s cs ([], t)
  | answered {s cs σ t ds more ended} (h : Attempts lookup s cs (some σ, t))
    (hmore : Runs lookup t ds (more, ended)) : Runs lookup s (cs ++ ds) (σ :: more, ended)

/-! ## Accounting -/

/-- Every tried clause is paid for by one step, and nothing else costs any. -/
theorem Attempts.steps {s : Search} {cs : List (Predicate × Clause)}
    {r : Option Substitution × Search} (h : Attempts lookup s cs r) :
    cs.length + r.2.steps = s.steps := by
  induction h with
  | ended => exact Nat.zero_add _
  | exhausted _ ih => exact ih
  | gaveUp => rfl
  | tried _ ih =>
    show _ + 1 + _ = _ + 1
    have hsteps := ih
    dsimp only at hsteps
    omega
  | answered => exact Nat.zero_add _
  | compared _ _ ih => exact ih
  | passed _ _ _ ih => exact ih
  | failed _ _ _ ih => exact ih
  | called _ _ _ ih => exact ih
  | negated _ _ ihin ihout =>
    dsimp only at ihin ihout ⊢
    rw [List.length_append]
    omega

theorem Runs.steps {s : Search} {cs : List (Predicate × Clause)} {r : List Substitution × Search}
    (h : Runs lookup s cs r) : cs.length + r.2.steps = s.steps := by
  induction h with
  | ended h => exact h.steps
  | answered h _ ih =>
    have hfirst := h.steps
    dsimp only at hfirst ih ⊢
    rw [List.length_append]
    omega

/-! ## Derivations and runs -/

theorem next_of_branches_eq_nil {s : Search} (h : s.branches = []) : s.next lookup = (none, s) := by
  obtain ⟨branches, steps, cut⟩ := s
  obtain rfl : branches = [] := h
  exact next_nil

/-- What is derived is what the search does. -/
theorem Attempts.next_eq {s : Search} {cs : List (Predicate × Clause)}
    {r : Option Substitution × Search} (h : Attempts lookup s cs r) : s.next lookup = r := by
  induction h with
  | ended => exact next_nil
  | exhausted _ ih => exact next_exhausted.trans ih
  | gaveUp =>
    rw [next]
    rfl
  | tried _ ih => exact next_tried.trans ih
  | answered => exact next_answer
  | compared ha _ ih => exact (next_compare ha).trans ih
  | passed ha hp _ ih => exact (next_true ha hp).trans ih
  | failed ha hp _ ih => exact (next_fail ha hp).trans ih
  | called ha hp _ ih => exact (next_call ha hp).trans ih
  | negated hin _ ihin ihout =>
    have hle := hin.steps
    dsimp only at hle
    rw [next_not, ihin]
    dsimp only
    rw [Nat.min_eq_right (by omega)]
    exact ihout

theorem exists_attempts (lookup : Lookup) (s : Search) :
    ∃ cs, Attempts lookup s cs (s.next lookup) := by
  fun_induction next lookup s with
  | case1 s hb =>
    obtain ⟨branches, steps, cut⟩ := s
    subst hb
    exact ⟨[], .ended⟩
  | case2 s p todo σ rest hb _ ih =>
    obtain ⟨branches, steps, cut⟩ := s
    subst hb
    obtain ⟨cs, h⟩ := ih
    exact ⟨cs, .exhausted h⟩
  | case3 s p c left todo σ rest hb h0 =>
    obtain ⟨branches, steps, cut⟩ := s
    subst hb
    obtain rfl : steps = 0 := h0
    exact ⟨[], .gaveUp⟩
  | case4 s p c left todo σ rest hb h0 _ ih =>
    obtain ⟨branches, steps, cut⟩ := s
    obtain ⟨n, rfl⟩ := Nat.exists_eq_succ_of_ne_zero h0
    subst hb
    obtain ⟨cs, h⟩ := ih
    exact ⟨(p, c) :: cs, .tried h⟩
  | case5 s σ rest hb =>
    obtain ⟨branches, steps, cut⟩ := s
    subst hb
    exact ⟨[], .answered⟩
  | case6 s a todo σ rest hb c hc hnone _ ih =>
    obtain ⟨branches, steps, cut⟩ := s
    subst hb
    obtain ⟨cs, h⟩ := ih
    exact ⟨cs, .compared hc (by rw [hnone]; exact h)⟩
  | case7 s a todo σ rest hb c hc τ hτ _ ih =>
    obtain ⟨branches, steps, cut⟩ := s
    subst hb
    obtain ⟨cs, h⟩ := ih
    exact ⟨cs, .compared hc (by rw [hτ]; exact h)⟩
  | case8 s a todo σ rest hb p hp hbuilt _ ih =>
    obtain ⟨branches, steps, cut⟩ := s
    subst hb
    obtain ⟨cs, h⟩ := ih
    exact ⟨cs, .passed hp hbuilt h⟩
  | case9 s a todo σ rest hb p hp hbuilt _ ih =>
    obtain ⟨branches, steps, cut⟩ := s
    subst hb
    obtain ⟨cs, h⟩ := ih
    exact ⟨cs, .failed hp hbuilt h⟩
  | case10 s a todo σ rest hb p hp hbuilt _ ih =>
    obtain ⟨branches, steps, cut⟩ := s
    subst hb
    obtain ⟨cs, h⟩ := ih
    exact ⟨cs, .called hp hbuilt h⟩
  | case11 s g todo σ rest hb _ answer inner hnext hb' ihin ih =>
    obtain ⟨branches, steps, cut⟩ := s
    subst hb
    obtain ⟨cs, hin⟩ := ihin
    obtain ⟨ds, hout⟩ := ih
    rw [hnext] at hin
    have hle := hin.steps
    have hsteps : min steps inner.steps = inner.steps := Nat.min_eq_right (by
      change cs.length + inner.steps = steps at hle
      omega)
    refine ⟨cs ++ ds, .negated hin ?_⟩
    rw [← hsteps]
    exact hout

theorem attempts_iff {s : Search} {r : Option Substitution × Search} :
    (∃ cs, Attempts lookup s cs r) ↔ s.next lookup = r := by
  constructor
  · rintro ⟨cs, h⟩
    exact h.next_eq
  · rintro rfl
    exact exists_attempts lookup s

theorem exists_runs (lookup : Lookup) (s : Search) : ∃ cs, Runs lookup s cs (s.rest lookup) := by
  fun_induction Search.rest lookup s with
  | case1 s t hnext =>
    obtain ⟨cs, h⟩ := attempts_iff.2 hnext
    exact ⟨cs, .ended h⟩
  | case2 s σ t hnext _ more ended hrest ih =>
    obtain ⟨cs, h⟩ := attempts_iff.2 hnext
    obtain ⟨ds, hmore⟩ := ih
    rw [hrest] at hmore
    exact ⟨cs ++ ds, .answered h hmore⟩

/-! ## Counting the answers -/

/-- How many goals wait on a stack. -/
def waiting (branches : List Branch) : Nat :=
  branches.countP fun b => match b with
    | .goal .. => true
    | .call .. => false

theorem waiting_goal {todo : List Literal} {σ : Substitution} {rest : List Branch} :
    waiting (.goal todo σ :: rest) = waiting rest + 1 := by
  simp [waiting]

theorem waiting_call {p : Predicate} {clauses : List Clause} {todo : List Literal}
    {σ : Substitution} {rest : List Branch} :
    waiting (.call p clauses todo σ :: rest) = waiting rest := by
  simp [waiting]

theorem waiting_append_le (bs rest : List Branch) :
    waiting (bs ++ rest) ≤ waiting rest + bs.length := by
  have hle : waiting bs ≤ bs.length := List.countP_le_length
  have happend : waiting (bs ++ rest) = waiting bs + waiting rest := List.countP_append
  omega

theorem length_toList_le {α : Type} (o : Option α) : o.toList.length ≤ 1 := by
  cases o <;> simp

/-- An answer uses up a waiting goal, and only a tried clause brings another. -/
theorem Attempts.waiting_le {s : Search} {cs : List (Predicate × Clause)}
    {r : Option Substitution × Search} (h : Attempts lookup s cs r) :
    waiting r.2.branches + r.1.toList.length ≤ waiting s.branches + cs.length := by
  induction h with
  | ended => exact Nat.le_refl _
  | exhausted _ ih =>
    dsimp only at ih ⊢
    rwa [waiting_call]
  | gaveUp => exact Nat.zero_le _
  | @tried p c left todo σ rest _ _ _ _ _ ih =>
    have hnew := waiting_append_le (Branch.resolve? p c todo σ).toList (.call p left todo σ :: rest)
    have hone := length_toList_le (Branch.resolve? p c todo σ)
    dsimp only at ih ⊢
    rw [waiting_call] at hnew ⊢
    rw [List.length_cons]
    omega
  | answered =>
    dsimp only
    rw [waiting_goal]
    exact Nat.le_refl _
  | @compared a d todo σ rest _ _ _ _ _ _ ih =>
    have hnew := waiting_append_le ((d.solution? σ).toList.map (.goal todo)) rest
    have hone := length_toList_le (d.solution? σ)
    rw [List.length_map] at hnew
    dsimp only at ih ⊢
    rw [waiting_goal]
    omega
  | passed _ _ _ ih =>
    dsimp only at ih ⊢
    rw [waiting_goal] at ih ⊢
    exact ih
  | failed _ _ _ ih =>
    dsimp only at ih ⊢
    rw [waiting_goal]
    omega
  | called _ _ _ ih =>
    dsimp only at ih ⊢
    rw [waiting_call] at ih
    rw [waiting_goal]
    omega
  | @negated g todo σ rest _ _ _ answer _ _ _ _ _ _ ihout =>
    have hleft : waiting (if answer.isSome then rest else .goal todo σ :: rest) ≤ waiting rest + 1 := by
      split
      · omega
      · exact Nat.le_of_eq waiting_goal
    dsimp only at ihout ⊢
    rw [waiting_goal, List.length_append]
    omega

/-- One goal and nothing else, or nothing at all. -/
def IsSingle (s : Search) : Prop :=
  s.branches = [] ∨ ∃ todo σ, s.branches = [.goal todo σ]

theorem IsSingle.rest_eq_nil {b : Branch} {rest : List Branch} {steps : Nat} {cut : Bool}
    (h : IsSingle ⟨b :: rest, steps, cut⟩) : rest = [] := by
  obtain h | ⟨todo, σ, h⟩ := h
  · cases h
  · exact (List.cons.inj h).2

theorem not_isSingle_call {p : Predicate} {clauses : List Clause} {todo : List Literal}
    {σ : Substitution} {rest : List Branch} {steps : Nat} {cut : Bool} :
    ¬ IsSingle ⟨.call p clauses todo σ :: rest, steps, cut⟩ := by
  simp [IsSingle]

/-- From a single goal either no clause is tried before the answer, and then nothing is left, or the
first of them pays for that goal. -/
theorem Attempts.of_single {s : Search} {cs : List (Predicate × Clause)}
    {r : Option Substitution × Search} (h : Attempts lookup s cs r) (hs : s.IsSingle) :
    r.2.branches = [] ∨ waiting r.2.branches + r.1.toList.length ≤ cs.length := by
  induction h with
  | ended => exact .inl rfl
  | exhausted | gaveUp | tried => exact absurd hs not_isSingle_call
  | answered => exact .inl hs.rest_eq_nil
  | @compared a d todo σ _ _ _ _ _ _ _ ih =>
    obtain rfl := hs.rest_eq_nil
    refine ih ?_
    cases d.solution? σ with
    | none => exact .inl rfl
    | some τ => exact .inr ⟨todo, τ, rfl⟩
  | @passed a p todo σ _ _ _ _ _ _ _ _ ih =>
    obtain rfl := hs.rest_eq_nil
    exact ih (.inr ⟨todo, σ, rfl⟩)
  | failed _ _ _ ih =>
    obtain rfl := hs.rest_eq_nil
    exact ih (.inl rfl)
  | called _ _ h =>
    -- a call is no goal, so nothing waits until a clause is tried
    obtain rfl := hs.rest_eq_nil
    have hle := h.waiting_le
    dsimp only at hle
    rw [waiting_call] at hle
    exact .inr (Nat.le_trans hle (Nat.le_of_eq (Nat.zero_add _)))
  | @negated g todo σ _ _ _ _ answer inner _ _ _ _ _ ihout =>
    obtain rfl := hs.rest_eq_nil
    have hleft : IsSingle
        ⟨if answer.isSome then [] else [.goal todo σ], inner.steps, inner.cut⟩ := by
      cases answer with
      | none => exact .inr ⟨todo, σ, rfl⟩
      | some τ => exact .inl rfl
    refine (ihout hleft).imp_right fun hle => Nat.le_trans hle ?_
    rw [List.length_append]
    omega

theorem Runs.length_le {s : Search} {cs : List (Predicate × Clause)}
    {r : List Substitution × Search} (h : Runs lookup s cs r) :
    r.1.length ≤ waiting s.branches + s.steps := by
  induction h with
  | ended => exact Nat.zero_le _
  | answered h _ ih =>
    have hsteps := h.steps
    have hwaiting := h.waiting_le
    dsimp only [Option.toList_some, List.length_singleton] at hsteps hwaiting ih ⊢
    rw [List.length_cons]
    omega

theorem Runs.length_le_of_single {todo : List Literal} {σ : Substitution} {steps : Nat} {cut : Bool}
    {cs : List (Predicate × Clause)} {r : List Substitution × Search}
    (h : Runs lookup ⟨[.goal todo σ], steps, cut⟩ cs r) : r.1.length ≤ max 1 steps := by
  cases h with
  | ended => exact Nat.zero_le _
  | @answered _ cs τ t ds more _ h hmore =>
    rw [List.length_cons]
    rcases h.of_single (.inr ⟨todo, σ, rfl⟩) with hnil | hpaid
    · cases hmore with
      | ended => exact Nat.le_max_left _ _
      | answered h' => cases (next_of_branches_eq_nil hnil).symm.trans h'.next_eq
    · have hsteps := h.steps
      have hmore := hmore.length_le
      dsimp only [Option.toList_some, List.length_singleton] at hsteps hpaid hmore
      omega

/-- A search that has ended has nothing left to explore. -/
theorem Attempts.branches_eq_nil {s t : Search} {cs : List (Predicate × Clause)}
    (h : Attempts lookup s cs (none, t)) : t.branches = [] := by
  generalize hr : (none, t) = r at h
  induction h generalizing t with
  | ended | gaveUp =>
    obtain ⟨-, rfl⟩ := Prod.mk.inj hr
    rfl
  | answered => cases hr
  | exhausted _ ih => exact ih hr
  | tried _ ih => exact ih hr
  | compared _ _ ih => exact ih hr
  | passed _ _ _ ih => exact ih hr
  | failed _ _ _ ih => exact ih hr
  | called _ _ _ ih => exact ih hr
  | negated _ _ _ ihout => exact ihout hr

theorem Runs.branches_eq_nil {s : Search} {cs : List (Predicate × Clause)}
    {r : List Substitution × Search} (h : Runs lookup s cs r) : r.2.branches = [] := by
  induction h with
  | ended h => exact h.branches_eq_nil
  | answered _ _ ih => exact ih

end Search

/-- A query ends within its steps: each call for an answer is derived, all of them together give at
most one answer or as many as there are steps, and what was tried was paid for. -/
theorem Goal.answersFrom_within (g : Goal) (lookup : Lookup) (σ : Substitution) (steps : Nat) :
    (∀ s r, (∃ tried, Search.Attempts lookup s tried r) ↔ s.next lookup = r) ∧
    ∃ found tried ended,
      Search.Runs lookup (Search.start g σ steps) tried (found, ended) ∧
      g.answersFrom lookup steps σ none = (g.restricted found, ended) ∧
      ended.next lookup = (none, ended) ∧
      found.length ≤ max 1 steps ∧ tried.length + ended.steps = steps := by
  refine ⟨fun s r => Search.attempts_iff, ?_⟩
  obtain ⟨tried, hruns⟩ := Search.exists_runs lookup (Search.start g σ steps)
  exact ⟨_, tried, _, hruns, rfl, Search.next_of_branches_eq_nil hruns.branches_eq_nil,
    hruns.length_le_of_single, hruns.steps⟩

end Horn
