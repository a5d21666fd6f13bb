import Horn.Proofs.Reachable

/-!
The unifier as calls.  Unification is three procedures that call each other: two terms are unified
by binding a variable or by unifying their parts, two lists by unifying items and what is left, and
a bound variable is bound again by unifying its old value with the new one.  The arguments do not get
smaller: a variable is followed to its value, and what is left of a list is put together anew.  The
solver does the same work with one list of demands, whose measure falls with every step.  Read back
as calls, its run says that every call returns, after how many calls in all, and with what.
-/

namespace Horn
namespace Substitution

/-! ## The procedures -/

inductive Call where
  /-- Makes two terms equal. -/
  | terms (s t : Term)
  /-- Makes two lists equal, given by their items and tails. -/
  | lists (xs : List Term) (s : Option Term) (ys : List Term) (t : Option Term)
  /-- Gives a variable a value. -/
  | bind (v : Var) (t : Term)

/-- What a procedure does next: it makes a call and fails with it, or it returns. -/
inductive Task where
  | call (c : Call)
  | leave (r : Except UnifyFailure Substitution)

def Demand.task : Demand → Task
  | .equal s t => .call (.terms s t)
  | .refuse why => .leave (.error why)

/-- The tasks for two terms that have been followed to their values.  What is neither a variable nor a
pair of lists is compared, and the arguments of compound terms are left to do. -/
def tasksResolved (σ : Substitution) (s t : Term) : List Task :=
  match s, t with
  | s, .var y => if s = .var y then [] else [.call (.bind y s)]
  | .var x, t => [.call (.bind x t)]
  | .list xs s, .list ys t => [.call (.lists xs s ys t)]
  | s, t =>
    match σ.stepResolved s t with
    | .error why => [.leave (.error why)]
    | .ok (_, demands) => demands.map Demand.task

/-- The body of a procedure, for the arguments that it is called with. -/
def tasks (σ : Substitution) : Call → List Task
  | .terms s t => σ.tasksResolved (σ.resolve s) (σ.resolve t)
  | .lists xs s ys t => (listDemands xs s ys t).map Demand.task
  | .bind v t =>
    match σ.bindings[v]? with
    | some u => [.call (.terms u t)]
    | none => [.leave (σ.bindUnbound v t)]

mutual
/-- The call returns with the result, and this takes as many calls as given, itself included. -/
inductive Returns : Substitution → Call → Nat → Except UnifyFailure Substitution → Prop where
  | enter {σ c n r} (h : ReturnsAll σ (σ.tasks c) n r) : Returns σ c (n + 1) r

/-- The tasks are done from left to right, with so many calls. -/
inductive ReturnsAll : Substitution → List Task → Nat → Except UnifyFailure Substitution → Prop where
  | done {σ} : ReturnsAll σ [] 0 (.ok σ)
  | leave {σ r rest} : ReturnsAll σ (.leave r :: rest) 0 r
  | fail {σ c n why rest} (h : Returns σ c n (.error why)) :
    ReturnsAll σ (.call c :: rest) n (.error why)
  | next {σ τ c n m r rest} (h : Returns σ c n (.ok τ)) (hrest : ReturnsAll τ rest m r) :
    ReturnsAll σ (.call c :: rest) (n + m) r
end

/-- What the solver says of a call. -/
def Call.result (σ : Substitution) : Call → Except UnifyFailure Substitution
  | .terms s t => σ.unify s t
  | .lists xs s ys t => σ.solve (listDemands xs s ys t)
  | .bind v t => σ.bind v t

/-! ## One way to return -/

mutual
theorem Returns.unique {σ : Substitution} {c : Call} {n m : Nat}
    {r r' : Except UnifyFailure Substitution} : Returns σ c n r → Returns σ c m r' → n = m ∧ r = r'
  | .enter h, .enter h' => (h.unique h').imp_left (congrArg (· + 1))

theorem ReturnsAll.unique {σ : Substitution} {ts : List Task} {n m : Nat}
    {r r' : Except UnifyFailure Substitution} :
    ReturnsAll σ ts n r → ReturnsAll σ ts m r' → n = m ∧ r = r'
  | .done, .done => ⟨rfl, rfl⟩
  | .leave, .leave => ⟨rfl, rfl⟩
  | .fail h, .fail h' => h.unique h'
  | .fail h, .next h' _ => by cases (h.unique h').2
  | .next h _, .fail h' => by cases (h.unique h').2
  | .next h hrest, .next h' hrest' => by
    obtain ⟨rfl, heq⟩ := h.unique h'
    obtain rfl := Except.ok.inj heq
    obtain ⟨rfl, rfl⟩ := hrest.unique hrest'
    exact ⟨rfl, rfl⟩
end

/-! ## Steps as calls -/

section

variable {σ τ : Substitution} {s t : Term} {new : List Demand} {n : Nat}
  {r : Except UnifyFailure Substitution}

/-- A variable without a value on the right is bound, unless it is the left side as well. -/
theorem tasksResolved_var {y : Var} (hy : σ.bindings[y]? = none) :
    (σ.tasksResolved s (.var y) = [.call (.bind y s)] ∧
      σ.stepResolved s (.var y) = (σ.bindUnbound y s).map fun τ => (τ, [])) ∨
    (σ.tasksResolved s (.var y) = [] ∧ σ.stepResolved s (.var y) = .ok (σ, [])) := by
  have hstep : σ.stepResolved s (.var y) = (σ.bindUnbound y s).map fun τ => (τ, []) := by
    cases s <;> rfl
  have htasks : σ.tasksResolved s (.var y) = if s = .var y then [] else [.call (.bind y s)] := by
    cases s <;> rfl
  by_cases hsame : s = .var y
  · have hvalue : σ.apply (Term.var y) = .var y := valueOf_of_unbound hy
    have hself : σ.bindUnbound y s = .ok σ := by
      rw [hsame]
      exact if_pos hvalue
    rw [hself] at hstep
    exact .inr ⟨htasks.trans (if_pos hsame), hstep⟩
  · exact .inl ⟨htasks.trans (if_neg hsame), hstep⟩

/-- Comparing two terms that are not variables binds nothing, and its demands are the tasks. -/
theorem tasksResolved_compared (hs : ∀ v, s ≠ .var v) (ht : ∀ v, t ≠ .var v)
    (h : σ.tasksResolved s t = match σ.stepResolved s t with
      | .error why => [.leave (.error why)]
      | .ok (_, demands) => demands.map Demand.task) :
    (∃ why, σ.tasksResolved s t = [.leave (.error why)] ∧ σ.stepResolved s t = .error why) ∨
    ∃ demands, σ.tasksResolved s t = demands.map Demand.task ∧
      σ.stepResolved s t = .ok (σ, demands) := by
  cases hstep : σ.stepResolved s t with
  | error why => exact .inl ⟨why, by rw [h, hstep], rfl⟩
  | ok left =>
    obtain ⟨τ, demands⟩ := left
    obtain ⟨y, hy, -⟩ | ⟨x, hx, -⟩ | ⟨rfl, -⟩ := stepResolved_cases hstep
    · exact absurd hy (ht y)
    · exact absurd hx (hs x)
    · exact .inr ⟨demands, by rw [h, hstep], rfl⟩

/-- The tasks for two terms next to the step of the solver on them. -/
theorem tasksResolved_cases (hs : ∀ v, s = .var v → σ.bindings[v]? = none)
    (ht : ∀ v, t = .var v → σ.bindings[v]? = none) :
    (∃ v u, σ.bindings[v]? = none ∧ σ.tasksResolved s t = [.call (.bind v u)] ∧
      σ.stepResolved s t = (σ.bindUnbound v u).map fun τ => (τ, [])) ∨
    (∃ xs xt ys yt, σ.tasksResolved s t = [.call (.lists xs xt ys yt)] ∧
      σ.stepResolved s t = .ok (σ, listDemands xs xt ys yt)) ∨
    (∃ why, σ.tasksResolved s t = [.leave (.error why)] ∧ σ.stepResolved s t = .error why) ∨
    ∃ demands, σ.tasksResolved s t = demands.map Demand.task ∧
      σ.stepResolved s t = .ok (σ, demands) := by
  cases t with
  | var y =>
    obtain ⟨htasks, hstep⟩ | ⟨htasks, hstep⟩ := tasksResolved_var (s := s) (ht y rfl)
    · exact .inl ⟨y, s, ht y rfl, htasks, hstep⟩
    · exact .inr (.inr (.inr ⟨[], htasks, hstep⟩))
  | list ys yt =>
    cases s with
    | var x => exact .inl ⟨x, _, hs x rfl, rfl, rfl⟩
    | list xs xt => exact .inr (.inl ⟨xs, xt, ys, yt, rfl, rfl⟩)
    | _ => exact .inr (.inr (tasksResolved_compared (by rintro v ⟨⟩) (by rintro v ⟨⟩) rfl))
  | _ =>
    cases s with
    | var x => exact .inl ⟨x, _, hs x rfl, rfl, rfl⟩
    | _ => exact .inr (.inr (tasksResolved_compared (by rintro v ⟨⟩) (by rintro v ⟨⟩) rfl))

/-- Binding an unbound variable takes one call. -/
theorem returns_bind {v : Var} {u : Term} (h : σ.bindings[v]? = none) :
    Returns σ (.bind v u) 1 (σ.bindUnbound v u) := by
  refine .enter ?_
  rw [tasks, h]
  exact .leave

/-- A single call is done with its result. -/
theorem returnsAll_single {c : Call} (h : Returns σ c n r) : ReturnsAll σ [.call c] n r := by
  cases r with
  | error why => exact .fail h
  | ok τ => exact .next h .done

theorem returns_of_step_error {why : UnifyFailure} (h : σ.step s t = .error why) :
    ∃ m, Returns σ (.terms s t) m (.error why) := by
  have hcases := tasksResolved_cases (σ := σ) (s := σ.resolve s) (t := σ.resolve t)
    (fun v => unbound_of_resolve) fun v => unbound_of_resolve
  rw [step] at h
  rw [h] at hcases
  obtain ⟨v, u, hfree, htasks, hstep⟩ | ⟨_, _, _, _, _, hstep⟩ | ⟨_, htasks, hstep⟩ | ⟨_, _, hstep⟩ :=
    hcases
  · have hfails : σ.bindUnbound v u = .error why := by
      cases hb : σ.bindUnbound v u with
      | error why' =>
        rw [hb] at hstep
        exact congrArg Except.error (Except.error.inj hstep).symm
      | ok τ =>
        rw [hb] at hstep
        cases hstep
    refine ⟨2, .enter ?_⟩
    rw [tasks, htasks]
    exact returnsAll_single (hfails ▸ returns_bind hfree)
  · cases hstep
  · obtain rfl := Except.error.inj hstep
    refine ⟨1, .enter ?_⟩
    rw [tasks, htasks]
    exact .leave
  · cases hstep

/-- A call on two terms returns with what the step of the solver leaves to do. -/
theorem returns_of_step (h : σ.step s t = .ok (τ, new))
    (hnew : ReturnsAll τ (new.map Demand.task) n r) : ∃ m, Returns σ (.terms s t) m r := by
  have hcases := tasksResolved_cases (σ := σ) (s := σ.resolve s) (t := σ.resolve t)
    (fun v => unbound_of_resolve) fun v => unbound_of_resolve
  rw [step] at h
  rw [h] at hcases
  obtain ⟨v, u, hfree, htasks, hstep⟩ | ⟨xs, xt, ys, yt, htasks, hstep⟩ | ⟨_, _, hstep⟩ |
    ⟨demands, htasks, hstep⟩ := hcases
  · obtain ⟨ρ, hbind, heq⟩ := exists_of_map_eq_ok hstep.symm
    obtain ⟨rfl, rfl⟩ := Prod.mk.inj heq
    cases hnew
    refine ⟨2, .enter ?_⟩
    rw [tasks, htasks]
    exact returnsAll_single (hbind ▸ returns_bind hfree)
  · obtain ⟨rfl, rfl⟩ := Prod.mk.inj (Except.ok.inj hstep)
    refine ⟨n + 2, .enter ?_⟩
    rw [tasks, htasks]
    exact returnsAll_single (.enter hnew)
  · cases hstep
  · obtain ⟨rfl, rfl⟩ := Prod.mk.inj (Except.ok.inj hstep)
    refine ⟨n + 1, .enter ?_⟩
    rw [tasks, htasks]
    exact hnew

/-- What is done for two lists of demands is done for the first, and for the second unless that
fails. -/
theorem ReturnsAll.append_cases {ds es : List Demand}
    (h : ReturnsAll σ ((ds ++ es).map Demand.task) n r) :
    (∃ why, r = .error why ∧ ReturnsAll σ (ds.map Demand.task) n r) ∨
      ∃ ρ k m, ReturnsAll σ (ds.map Demand.task) k (.ok ρ) ∧
        ReturnsAll ρ (es.map Demand.task) m r := by
  induction ds generalizing σ n with
  | nil => exact .inr ⟨σ, 0, n, .done, h⟩
  | cons d ds ih =>
    cases d with
    | refuse why =>
      cases h
      exact .inl ⟨why, rfl, .leave⟩
    | equal s t =>
      cases h with
      | fail hfirst => exact .inl ⟨_, rfl, .fail hfirst⟩
      | next hfirst hrest =>
        obtain ⟨why, hr, hds⟩ | ⟨ρ, k, m, hds, hes⟩ := ih hrest
        · exact .inl ⟨why, hr, .next hfirst hds⟩
        · exact .inr ⟨ρ, _, m, .next hfirst hds, hes⟩

/-! ## Every call returns -/

/-- The run of the solver, read back as calls. -/
theorem exists_returnsAll (σ : Substitution) (demands : List Demand) :
    ∃ n, ReturnsAll σ (demands.map Demand.task) n (σ.solve demands) := by
  fun_induction solve σ demands with
  | case1 σ => exact ⟨0, .done⟩
  | case2 σ why rest => exact ⟨0, .leave⟩
  | case3 σ s t rest why hstep =>
    obtain ⟨m, hfirst⟩ := returns_of_step_error hstep
    exact ⟨m, .fail hfirst⟩
  | case4 σ s t rest τ new hstep ih =>
    obtain ⟨n, hall⟩ := ih
    obtain ⟨why, hr, hnew⟩ | ⟨ρ, k, m, hnew, hrest⟩ := hall.append_cases
    · obtain ⟨j, hfirst⟩ := returns_of_step hstep hnew
      rw [hr] at hfirst ⊢
      exact ⟨j, .fail hfirst⟩
    · obtain ⟨j, hfirst⟩ := returns_of_step hstep hnew
      exact ⟨j + m, .next hfirst hrest⟩

theorem exists_returns_terms (σ : Substitution) (s t : Term) :
    ∃ n, Returns σ (.terms s t) n (σ.unify s t) := by
  obtain ⟨n, hall⟩ := exists_returnsAll σ [.equal s t]
  generalize hr : σ.solve [.equal s t] = r at hall
  rw [unify, hr]
  cases hall with
  | fail h => exact ⟨n, h⟩
  | next h hrest =>
    cases hrest
    exact ⟨_, h⟩

end

/-- Whatever the substitution and the arguments are, a call of the unifier returns after finitely many
calls, with what the solver says, and in no other way. -/
theorem exists_returns (σ : Substitution) (c : Call) :
    ∃ n, Returns σ c n (c.result σ) ∧ ∀ m r, Returns σ c m r → m = n ∧ r = c.result σ := by
  have hreturns : ∃ n, Returns σ c n (c.result σ) := by
    cases c with
    | terms s t => exact exists_returns_terms σ s t
    | lists xs s ys t =>
      obtain ⟨n, hall⟩ := exists_returnsAll σ (listDemands xs s ys t)
      exact ⟨n + 1, .enter hall⟩
    | bind v t =>
      cases hv : σ.bindings[v]? with
      | none =>
        have hbind : σ.bind v t = σ.bindUnbound v t := by rw [Substitution.bind, hv]
        refine ⟨1, ?_⟩
        rw [Call.result, hbind]
        exact returns_bind hv
      | some u =>
        have hbind : σ.bind v t = σ.unify u t := by rw [Substitution.bind, hv]
        obtain ⟨n, hterms⟩ := exists_returns_terms σ u t
        refine ⟨n + 1, .enter ?_⟩
        rw [Call.result, hbind, tasks, hv]
        exact returnsAll_single hterms
  obtain ⟨n, h⟩ := hreturns
  exact ⟨n, h, fun m r hr => hr.unique h⟩

end Substitution
end Horn
