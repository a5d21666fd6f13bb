import Horn.Proofs.Freshness

/-!
The domain of a substitution: the variables that it has met.  Every operation enters the variables that
it binds or puts into a value, each together with its text.  So whatever is called, and whether or not
the calls succeed, bound variables and the variables of values are in the domain, and the names in use
are the texts of the domain.
-/

namespace Horn

namespace Scope

/-- The names in use are the texts of the variables. -/
def IsNamed (s : Scope) : Prop := ∀ name, name ∈ s.names ↔ ∃ v ∈ s.vars, v.text = name

section

variable {s : Scope}

theorem mem_vars_register {v w : Var} : w ∈ (s.register v).vars ↔ w = v ∨ w ∈ s.vars := by
  rw [register, Std.TreeSet.mem_insert, Std.LawfulEqOrd.compare_eq_iff_eq, eq_comm]

theorem mem_vars_registerAll {vs : List Var} {w : Var} :
    w ∈ (s.registerAll vs).vars ↔ w ∈ vs ∨ w ∈ s.vars := by
  induction vs generalizing s with
  | nil => simp [registerAll]
  | cons v vs ih =>
    show w ∈ ((s.register v).registerAll vs).vars ↔ _
    rw [ih, mem_vars_register, List.mem_cons, or_left_comm, or_assoc]

theorem registerAll_append (vs ws : List Var) :
    s.registerAll (vs ++ ws) = (s.registerAll vs).registerAll ws :=
  List.foldl_append

theorem isNamed_empty : empty.IsNamed := fun name => by simp [empty]

theorem IsNamed.register (h : s.IsNamed) (v : Var) : (s.register v).IsNamed := by
  intro name
  rw [mem_names_register, h name]
  constructor
  · rintro (hv | ⟨w, hw, rfl⟩)
    · exact ⟨v, mem_vars_register.2 (.inl rfl), hv⟩
    · exact ⟨w, mem_vars_register.2 (.inr hw), rfl⟩
  · rintro ⟨w, hw, rfl⟩
    rcases mem_vars_register.1 hw with rfl | hw
    · exact .inl rfl
    · exact .inr ⟨w, hw, rfl⟩

theorem IsNamed.registerAll (h : s.IsNamed) (vs : List Var) : (s.registerAll vs).IsNamed := by
  induction vs generalizing s with
  | nil => exact h
  | cons v vs ih => exact ih (h.register v)

end
end Scope

namespace Substitution

def domain (σ : Substitution) : Std.TreeSet Var := σ.scope.vars

/-- Bound variables and the variables of values are in the domain, and the names are its texts. -/
structure IsClosed (σ : Substitution) : Prop where
  bound : ∀ (v : Var) (t : Term), σ.bindings[v]? = some t → v ∈ σ.domain
  values : ∀ (v : Var) (t : Term), σ.bindings[v]? = some t → ∀ w, t.occurs w = true → w ∈ σ.domain
  named : σ.scope.IsNamed

section

variable {σ τ : Substitution}

theorem isClosed_empty : empty.IsClosed :=
  ⟨fun v t h => by simp [empty] at h, fun v t h => by simp [empty] at h, Scope.isNamed_empty⟩

/-- More variables in the domain do no harm. -/
theorem IsClosed.grow (h : σ.IsClosed) (hb : τ.bindings = σ.bindings)
    (hdomain : ∀ v ∈ σ.domain, v ∈ τ.domain) (hnamed : τ.scope.IsNamed) : τ.IsClosed := by
  refine ⟨fun v t hv => ?_, fun v t hv w hw => ?_, hnamed⟩
  · rw [hb] at hv
    exact hdomain v (h.bound v t hv)
  · rw [hb] at hv
    exact hdomain w (h.values v t hv w hw)

theorem IsClosed.addVariables {α : Type} [HasTerms α] (h : σ.IsClosed) (x : α) :
    (σ.addVariables x).IsClosed :=
  h.grow rfl (fun _ hv => Scope.mem_vars_registerAll.2 (.inr hv)) (h.named.registerAll _)

theorem IsClosed.fresh (h : σ.IsClosed) (symbol : String) : (σ.fresh symbol).2.IsClosed :=
  h.grow rfl (fun _ hv => Scope.mem_vars_register.2 (.inr hv)) (h.named.register _)

/-! ## Binding -/

theorem IsClosed.extend {v : Var} {u : Term} {hu : ∀ w, u.occurs w = true → σ.bindings[w]? = none}
    {hv : u.occurs v = false} (h : σ.IsClosed) : (σ.extend v u hu hv).IsClosed := by
  have hdomain : ∀ w, w ∈ (σ.extend v u hu hv).domain ↔ u.occurs w = true ∨ w = v ∨ w ∈ σ.domain := by
    intro w
    show w ∈ ((σ.scope.register v).registerAll («variables» u)).vars ↔ _
    rw [Scope.mem_vars_registerAll, Scope.mem_vars_register, Term.mem_variables]
    rfl
  refine ⟨fun x t hx => ?_, fun x t hx w hw => ?_, (h.named.register v).registerAll _⟩
  · rcases extend_cases hx with ⟨rfl, -⟩ | ⟨s, hs, -⟩
    · exact (hdomain x).2 (.inr (.inl rfl))
    · exact (hdomain x).2 (.inr (.inr (h.bound x s hs)))
  · rcases extend_cases hx with ⟨-, rfl⟩ | ⟨s, hs, rfl⟩
    · exact (hdomain w).2 (.inl hw)
    · rcases occurs_replaceIn hw with ⟨hws, -⟩ | ⟨-, hwu⟩
      · exact (hdomain w).2 (.inr (.inr (h.values x s hs w hws)))
      · exact (hdomain w).2 (.inl hwu)

theorem IsClosed.solve {demands : List Demand} (h : σ.IsClosed) (hs : σ.solve demands = .ok τ) :
    τ.IsClosed :=
  solve_induction IsClosed.extend h hs

theorem IsClosed.bind {v : Var} {t : Term} (h : σ.IsClosed) (hb : σ.bind v t = .ok τ) :
    τ.IsClosed :=
  bind_induction IsClosed.extend h hb

/-! ## Renaming -/

theorem IsClosed.renameVar {state : Renaming × Substitution} (h : state.2.IsClosed) (v : Var) :
    (Substitution.renameVar state v).2.IsClosed := by
  unfold Substitution.renameVar
  split
  · exact h
  · exact h.fresh v.symbol

theorem IsClosed.foldl_renameVar {state : Renaming × Substitution} (h : state.2.IsClosed)
    (vs : List Var) : (vs.foldl Substitution.renameVar state).2.IsClosed := by
  induction vs generalizing state with
  | nil => exact h
  | cons v vs ih => exact ih (h.renameVar v)

theorem IsClosed.rename {α : Type} [HasTerms α] (h : σ.IsClosed) (ρ : Renaming) (x : α) :
    (σ.rename ρ x).2.2.IsClosed := by
  have hstart : ((ρ, σ) : Renaming × Substitution).2.IsClosed := h
  exact hstart.foldl_renameVar («variables» x)

/-! ## Restricting -/

/-- What a restriction to some variables enters, in this order. -/
def restrictedVars (σ : Substitution) (vs : List Var) : List Var :=
  vs.flatMap fun v => v :: (σ.bindings[v]?).elim [] «variables»

theorem mem_restrictedVars {vs : List Var} {w : Var} :
    w ∈ σ.restrictedVars vs ↔
      w ∈ vs ∨ ∃ v ∈ vs, ∃ t, σ.bindings[v]? = some t ∧ t.occurs w = true := by
  have hvalue : ∀ v : Var, w ∈ (σ.bindings[v]?).elim [] «variables» ↔
      ∃ t, σ.bindings[v]? = some t ∧ t.occurs w = true := by
    intro v
    cases σ.bindings[v]? <;> simp [Term.mem_variables]
  simp only [restrictedVars, List.mem_flatMap, List.mem_cons, hvalue, and_or_left, exists_or]
  simp

theorem scope_restrict (vs : List Var) :
    (σ.restrict vs).scope = Scope.empty.registerAll (σ.restrictedVars vs) := by
  unfold restrict restrictedVars
  dsimp only
  generalize Scope.empty = s
  induction vs generalizing s with
  | nil => rfl
  | cons v vs ih =>
    rw [List.foldl_cons, List.flatMap_cons, Scope.registerAll_append, ih]
    cases σ.bindings[v]? <;> rfl

theorem mem_domain_restrict {vs : List Var} {w : Var} :
    w ∈ (σ.restrict vs).domain ↔
      w ∈ vs ∨ ∃ v ∈ vs, ∃ t, σ.bindings[v]? = some t ∧ t.occurs w = true := by
  show w ∈ (σ.restrict vs).scope.vars ↔ _
  rw [scope_restrict, Scope.mem_vars_registerAll, mem_restrictedVars]
  simp [Scope.empty]

theorem mem_of_foldl_copyBinding {vs : List Var} {m : Std.TreeMap Var Term} {w : Var} {t : Term}
    (h : (vs.foldl σ.copyBinding m)[w]? = some t) : w ∈ vs ∨ m[w]? = some t := by
  induction vs generalizing m with
  | nil => exact .inr h
  | cons v vs ih =>
    rcases ih h with hw | hw
    · exact .inl (List.mem_cons_of_mem v hw)
    · by_cases hwv : w = v
      · exact .inl (hwv ▸ List.mem_cons_self)
      · have hne : compare v w ≠ .eq := fun heq => hwv (Std.LawfulEqOrd.eq_of_compare heq).symm
        unfold copyBinding at hw
        split at hw
        · rw [Std.TreeMap.getElem?_insert, if_neg hne] at hw
          exact .inr hw
        · exact .inr hw

theorem mem_of_restrictedBindings {vs : List Var} {w : Var} {t : Term}
    (h : (σ.restrictedBindings vs)[w]? = some t) : w ∈ vs :=
  (mem_of_foldl_copyBinding h).resolve_right (by simp)

/-- A restriction starts a new scope, so what is closed before does not matter. -/
theorem isClosed_restrict (vs : List Var) : (σ.restrict vs).IsClosed := by
  refine ⟨fun v t hv => ?_, fun v t hv w hw => ?_, ?_⟩
  · exact mem_domain_restrict.2 (.inl (mem_of_restrictedBindings hv))
  · have hσ := getElem?_of_restrictedBindings hv
    exact mem_domain_restrict.2 (.inr ⟨v, mem_of_restrictedBindings hv, t, hσ, hw⟩)
  · rw [scope_restrict]
    exact Scope.isNamed_empty.registerAll _

/-! ## Sequences of operations -/

theorem Reachable.isClosed (h : σ.Reachable) : σ.IsClosed := by
  induction h with
  | empty => exact isClosed_empty
  | addVariables x _ ih => exact ih.addVariables x
  | fresh symbol _ ih => exact ih.fresh symbol
  | bind _ h ih => exact ih.bind h
  | unify _ h ih => exact ih.solve h
  | unifyAtoms _ h ih => exact ih.solve h
  | rename ρ x _ ih => exact ih.rename ρ x
  | restrict vs _ _ => exact isClosed_restrict vs

/-- The values mention no bound variable and are normal, so applying once more changes nothing. -/
theorem IsNormal.apply_apply {α : Type} [HasTerms α] [LawfulTerms α] (h : σ.IsNormal) (x : α) :
    σ.apply (σ.apply x) = σ.apply x := by
  have hsame := (valuation_respects h).apply x
  rwa [valuation_apply, valuation_apply] at hsame

end

/-- One call of an operation. -/
inductive Operation : Type 1 where
  | addVariables {α : Type} [HasTerms α] (x : α)
  | fresh (symbol : String)
  | bind (v : Var) (t : Term)
  | unify (s t : Term)
  | unifyAtoms (a b : Atom)
  | rename {α : Type} [HasTerms α] (ρ : Renaming) (x : α)
  | renameKnown {α : Type} [HasTerms α] (ρ : Renaming) (x : α)
  | restrict (vs : List Var)

namespace Operation

def result (σ : Substitution) : Operation → Except UnifyFailure Substitution
  | addVariables x => .ok (σ.addVariables x)
  | fresh symbol => .ok (σ.fresh symbol).2
  | bind v t => σ.bind v t
  | unify s t => σ.unify s t
  | unifyAtoms a b => σ.unifyAtoms a b
  | rename ρ x => .ok (σ.rename ρ x).2.2
  | renameKnown ρ x => (Substitution.renameKnown ρ x).map fun _ => σ
  | restrict vs => .ok (σ.restrict vs)

/-- What the caller has after a call.  One that fails leaves the substitution as it was. -/
def after (σ : Substitution) (operation : Operation) : Substitution :=
  match operation.result σ with
  | .ok τ => τ
  | .error _ => σ

theorem reachable_of_result {σ τ : Substitution} {operation : Operation} (hσ : σ.Reachable)
    (h : operation.result σ = .ok τ) : τ.Reachable := by
  cases operation with
  | addVariables x => exact Except.ok.inj h ▸ .addVariables x hσ
  | fresh symbol => exact Except.ok.inj h ▸ .fresh symbol hσ
  | bind v t => exact .bind hσ h
  | unify s t => exact .unify hσ h
  | unifyAtoms a b => exact .unifyAtoms hσ h
  | rename ρ x => exact Except.ok.inj h ▸ .rename ρ x hσ
  | renameKnown ρ x =>
    obtain ⟨_, -, rfl⟩ := exists_of_map_eq_ok h
    exact hσ
  | restrict vs => exact Except.ok.inj h ▸ .restrict vs hσ

theorem reachable_after {σ : Substitution} (hσ : σ.Reachable) (operation : Operation) :
    (after σ operation).Reachable := by
  unfold after
  split
  · rename_i h
    exact reachable_of_result hσ h
  · exact hσ

theorem reachable_foldl_after {σ : Substitution} (hσ : σ.Reachable) (operations : List Operation) :
    (operations.foldl after σ).Reachable := by
  induction operations generalizing σ with
  | nil => exact hσ
  | cons operation operations ih => exact ih (reachable_after hσ operation)

/-- Whatever is called on the empty substitution, in whatever order and with whatever success. -/
theorem closed_foldl_after (operations : List Operation) :
    let σ := operations.foldl after empty
    (∀ v t, σ.lookup v = some t → v ∈ σ.domain ∧
      ∀ w, t.occurs w = true → w ∈ σ.domain ∧ σ.lookup w = none) ∧
    (∀ name, name ∈ σ.names ↔ ∃ v ∈ σ.domain, v.text = name) ∧
    ∀ t : Term, σ.apply (σ.apply t) = σ.apply t := by
  intro σ
  have hσ : σ.Reachable := reachable_foldl_after .empty operations
  have hclosed := hσ.isClosed
  refine ⟨fun v t hv => ⟨hclosed.bound v t hv, fun w hw => ?_⟩, hclosed.named, hσ.isNormal.apply_apply⟩
  exact ⟨hclosed.values v t hv w hw, σ.compressed v t hv w hw⟩

/-- `X = f(Y)`, then `Y = g(Y)`, which fails, then `Y = a`. -/
theorem closed_foldl_after_bind :
    let x : Var := .named "X"
    let y : Var := .named "Y"
    let operations : List Operation :=
      [.bind x (.compound "f" [.var y]), .bind y (.compound "g" [.var y]), .bind y (.symbol "a")]
    let σ := operations.foldl after empty
    σ.lookup x = some (.compound "f" [.symbol "a"]) ∧ x ∈ σ.domain ∧ y ∈ σ.domain ∧
      ∀ t : Term, σ.apply (σ.apply t) = σ.apply t := by
  intro x y operations σ
  obtain ⟨hclosed, -, hagain⟩ := closed_foldl_after operations
  have hx : σ.lookup x = some (.compound "f" [.symbol "a"]) := by decide +kernel
  have hy : σ.lookup y = some (.symbol "a") := by decide +kernel
  exact ⟨hx, (hclosed x _ hx).1, (hclosed y _ hy).1, hagain⟩

end Operation

end Substitution
end Horn
