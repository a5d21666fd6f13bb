import Horn.Proofs.Valuation

/-!
The substitutions that the operations can build, starting from the empty one.  Whatever terms the
operations are given, the values stay in list normal form, so every such substitution is itself a
valuation.
-/

namespace Horn

theorem exists_of_bind_eq_ok {ε α β : Type} {x : Except ε α} {f : α → Except ε β} {b : β}
    (h : x >>= f = .ok b) : ∃ a, x = .ok a ∧ f a = .ok b := by
  cases x with
  | error why => cases h
  | ok a => exact ⟨a, rfl, h⟩

theorem exists_of_map_eq_ok {ε α β : Type} {x : Except ε α} {f : α → β} {b : β}
    (h : x.map f = .ok b) : ∃ a, x = .ok a ∧ f a = b := by
  cases x with
  | error why => cases h
  | ok a => exact ⟨a, rfl, Except.ok.inj h⟩

namespace Substitution

/-- Every value is in list normal form. -/
def IsNormal (σ : Substitution) : Prop := ∀ v, (σ.valueOf v).isNormal = true

/-- The valuation that gives every variable its value, and an unbound one itself. -/
def valuation (σ : Substitution) (h : σ.IsNormal) : Valuation := ⟨σ.valueOf, h⟩

theorem apply_eq_instantiate {α : Type} [HasTerms α] [LawfulTerms α] (σ : Substitution) (x : α) :
    σ.apply x = instantiate σ.valueOf x :=
  replaceVars_eq_instantiate _ x

theorem valuation_apply {α : Type} [HasTerms α] [LawfulTerms α] {σ : Substitution}
    (h : σ.IsNormal) (x : α) : (σ.valuation h).apply x = σ.apply x :=
  (apply_eq_instantiate σ x).symm

theorem isNormal_apply {σ : Substitution} (h : σ.IsNormal) (t : Term) :
    (σ.apply t).isNormal = true := by
  rw [← valuation_apply h]
  exact Term.isNormal_apply _ t

theorem isNormal_iff {σ : Substitution} :
    σ.IsNormal ↔ ∀ (v : Var) (t : Term), σ.bindings[v]? = some t → t.isNormal = true := by
  constructor
  · intro h v t hv
    simpa [valueOf, hv] using h v
  · intro h v
    cases hv : σ.bindings[v]? with
    | none => simp [valueOf, hv, Term.isNormal]
    | some t => simpa [valueOf, hv] using h v t hv

/-! ## Extending -/

theorem valueOf_extend {σ : Substitution} {v : Var} {u : Term}
    {hu : ∀ w, u.occurs w = true → σ.bindings[w]? = none} {hv : u.occurs v = false} (x : Var) :
    (σ.extend v u hu hv).valueOf x = if x = v then u else replaceIn v u (σ.valueOf x) := by
  simp only [valueOf, extend]
  rw [Std.TreeMap.getElem?_insert]
  by_cases hx : x = v
  · rw [if_pos hx, hx, if_pos (by simp)]
    rfl
  · have hne : compare v x ≠ .eq := fun h => hx (Std.LawfulEqOrd.eq_of_compare h).symm
    rw [if_neg hx, if_neg hne, getElem?_replacedBindings]
    cases σ.bindings[x]? with
    | none => simp [replaceIn, Term.occurs, hx]
    | some t => rfl

/-- The values after a variable got one: its own, and the old ones in which it is replaced. -/
theorem extend_cases {σ : Substitution} {v : Var} {u : Term}
    {hu : ∀ w, u.occurs w = true → σ.bindings[w]? = none} {hv : u.occurs v = false} {x : Var}
    {t : Term} (hx : (σ.extend v u hu hv).bindings[x]? = some t) :
    x = v ∧ t = u ∨ ∃ s, σ.bindings[x]? = some s ∧ t = replaceIn v u s := by
  simp only [extend, Std.TreeMap.getElem?_insert] at hx
  by_cases hvx : compare v x = .eq
  · rw [if_pos hvx] at hx
    exact .inl ⟨(Std.LawfulEqOrd.eq_of_compare hvx).symm, (Option.some.inj hx).symm⟩
  · rw [if_neg hvx, getElem?_replacedBindings] at hx
    obtain ⟨s, hs, rfl⟩ := Option.map_eq_some_iff.1 hx
    exact .inr ⟨s, hs, rfl⟩

/-- What a substituted variable leaves behind is normal when the value and the term are. -/
theorem isNormal_replaceIn {v : Var} {u t : Term} (hu : u.isNormal = true)
    (ht : t.isNormal = true) : (replaceIn v u t).isNormal = true := by
  unfold replaceIn
  split
  · rw [Term.replaceVars_eq]
    refine Term.isNormal_apply ⟨_, fun w => ?_⟩ t
    by_cases hw : w = v <;> simp [hw, hu, Term.isNormal]
  · exact ht

theorem IsNormal.extend {σ : Substitution} (h : σ.IsNormal) {v : Var} {u : Term}
    {hu : ∀ w, u.occurs w = true → σ.bindings[w]? = none} {hv : u.occurs v = false}
    (hn : u.isNormal = true) : (σ.extend v u hu hv).IsNormal := by
  intro x
  rw [valueOf_extend]
  split
  · exact hn
  · exact isNormal_replaceIn hn (h x)

/-- What it takes to make two terms of one kind equal. -/
inductive Decomposes : Term → Term → List Demand → Prop where
  | const (c : Constant) : Decomposes (.const c) (.const c) []
  | placeholder (p : Placeholder) : Decomposes (.placeholder p) (.placeholder p) []
  | compound (f : String) {xs ys : List Term} (hlen : xs.length = ys.length) :
    Decomposes (.compound f xs) (.compound f ys) (List.zipWith Demand.equal xs ys)
  | list (xs : List Term) (s : Option Term) (ys : List Term) (t : Option Term) :
    Decomposes (.list xs s) (.list ys t) (listDemands xs s ys t)

/-- A step binds one of the terms, which is a variable, to the other, or takes both apart. -/
theorem stepResolved_cases {σ τ : Substitution} {s t : Term} {new : List Demand}
    (h : σ.stepResolved s t = .ok (τ, new)) :
    (∃ y, t = .var y ∧ new = [] ∧ σ.bindUnbound y s = .ok τ) ∨
      (∃ x, s = .var x ∧ new = [] ∧ σ.bindUnbound x t = .ok τ) ∨
      τ = σ ∧ Decomposes s t new := by
  have hbind : ∀ {v u}, (σ.bindUnbound v u).map (fun τ => (τ, ([] : List Demand))) =
      .ok (τ, new) → new = [] ∧ σ.bindUnbound v u = .ok τ := by
    intro v u h
    cases hb : σ.bindUnbound v u with
    | error why => simp [hb, Except.map] at h
    | ok ρ =>
      simp only [hb, Except.map, Except.ok.injEq, Prod.mk.injEq] at h
      exact ⟨h.2.symm, congrArg Except.ok h.1⟩
  have hkeep : ∀ {more}, (.ok (σ, more) : Except UnifyFailure _) = .ok (τ, new) →
      Decomposes s t more → τ = σ ∧ Decomposes s t new := by
    intro more h hmore
    obtain ⟨rfl, rfl⟩ := Prod.mk.inj (Except.ok.inj h)
    exact ⟨rfl, hmore⟩
  unfold Substitution.stepResolved at h
  split at h
  · exact .inl ⟨_, rfl, hbind h⟩
  · exact .inr (.inl ⟨_, rfl, hbind h⟩)
  · split at h
    · rename_i a b hab
      exact .inr (.inr (hkeep h (hab ▸ .const a)))
    · cases h
  · split at h
    · cases h
    · split at h
      · cases h
      · rename_i f xs g ys hfg hlen
        exact .inr (.inr (hkeep h (not_not.1 hfg ▸ .compound f (not_not.1 hlen))))
  · exact .inr (.inr (hkeep h (.list _ _ _ _)))
  · split at h
    · rename_i p q hpq
      exact .inr (.inr (hkeep h (hpq ▸ .placeholder p)))
    · cases h
  · cases h
  · cases h
  · cases h

/-- The solver goes on with what a step leaves. -/
theorem solve_equal {σ τ : Substitution} {s t : Term} {new : List Demand}
    (h : σ.step s t = .ok (τ, new)) (rest : List Demand) :
    σ.solve (.equal s t :: rest) = τ.solve (new ++ rest) := by
  rw [solve]
  split
  · rename_i why hwhy
    rw [h] at hwhy
    cases hwhy
  · rename_i ρ more hρ
    rw [h] at hρ
    obtain ⟨rfl, rfl⟩ := Prod.mk.inj (Except.ok.inj hρ)
    rfl

/-! ## What extensions keep

Binding and solving only ever extend by a term to which the substitution was applied, so they keep
whatever such an extension keeps. -/

section

variable {P : Substitution → Prop} {σ τ : Substitution}

theorem bindUnbound_induction
    (extend : ∀ {ρ : Substitution} {v : Var} {t : Term} {hu hv}, P ρ → P (ρ.extend v (ρ.apply t) hu hv))
    {v : Var} {t : Term} (hσ : P σ) (h : σ.bindUnbound v t = .ok τ) : P τ := by
  unfold Substitution.bindUnbound at h
  dsimp only at h
  split at h
  · exact Except.ok.inj h ▸ hσ
  · split at h
    · cases h
    · exact Except.ok.inj h ▸ extend hσ

theorem stepResolved_induction
    (extend : ∀ {ρ : Substitution} {v : Var} {t : Term} {hu hv}, P ρ → P (ρ.extend v (ρ.apply t) hu hv))
    {s t : Term} {new : List Demand} (hσ : P σ) (h : σ.stepResolved s t = .ok (τ, new)) : P τ := by
  rcases stepResolved_cases h with ⟨y, -, -, hb⟩ | ⟨x, -, -, hb⟩ | ⟨rfl, -⟩
  · exact bindUnbound_induction extend hσ hb
  · exact bindUnbound_induction extend hσ hb
  · exact hσ

theorem solve_induction
    (extend : ∀ {ρ : Substitution} {v : Var} {t : Term} {hu hv}, P ρ → P (ρ.extend v (ρ.apply t) hu hv))
    {demands : List Demand} (hσ : P σ) (h : σ.solve demands = .ok τ) : P τ := by
  fun_induction Substitution.solve σ demands with
  | case1 σ => exact Except.ok.inj h ▸ hσ
  | case2 => cases h
  | case3 => cases h
  | case4 σ s t rest ρ new hstep ih => exact ih (stepResolved_induction extend hσ hstep) h

theorem bind_induction
    (extend : ∀ {ρ : Substitution} {v : Var} {t : Term} {hu hv}, P ρ → P (ρ.extend v (ρ.apply t) hu hv))
    {v : Var} {t : Term} (hσ : P σ) (h : σ.bind v t = .ok τ) : P τ := by
  unfold Substitution.bind at h
  split at h
  · exact solve_induction extend hσ h
  · exact bindUnbound_induction extend hσ h

theorem IsNormal.stepResolved (hσ : σ.IsNormal) {s t : Term} {new : List Demand}
    (h : σ.stepResolved s t = .ok (τ, new)) : τ.IsNormal :=
  stepResolved_induction (fun hρ => hρ.extend (isNormal_apply hρ _)) hσ h

/-- Solving demands keeps the values normal, whatever the demands are about. -/
theorem IsNormal.solve {demands : List Demand} (hσ : σ.IsNormal) (h : σ.solve demands = .ok τ) :
    τ.IsNormal :=
  solve_induction (fun hρ => hρ.extend (isNormal_apply hρ _)) hσ h

theorem IsNormal.bind (hσ : σ.IsNormal) {v : Var} {t : Term} (h : σ.bind v t = .ok τ) :
    τ.IsNormal :=
  bind_induction (fun hρ => hρ.extend (isNormal_apply hρ _)) hσ h

end

theorem IsNormal.restrict {σ : Substitution} (hσ : σ.IsNormal) (vs : List Var) :
    (σ.restrict vs).IsNormal := by
  rw [isNormal_iff] at hσ ⊢
  intro v t hv
  exact hσ v t (getElem?_of_restrictedBindings hv)

/-! ## Restricting -/

section

variable {σ : Substitution}

theorem getElem?_copyBinding {v w : Var} {t : Term} {m : Std.TreeMap Var Term}
    (hv : σ.bindings[v]? = some t) (hm : v = w ∨ m[v]? = some t) :
    (σ.copyBinding m w)[v]? = some t := by
  unfold copyBinding
  by_cases hw : v = w
  · rw [← hw, hv]
    exact Std.TreeMap.getElem?_insert_self
  · have hne : compare w v ≠ .eq := fun h => hw (Std.LawfulEqOrd.eq_of_compare h).symm
    split
    · rw [Std.TreeMap.getElem?_insert, if_neg hne]
      exact hm.resolve_left hw
    · exact hm.resolve_left hw

theorem getElem?_foldl_copyBinding {v : Var} {t : Term} {vs : List Var}
    {m : Std.TreeMap Var Term} (hv : σ.bindings[v]? = some t) (hm : v ∈ vs ∨ m[v]? = some t) :
    (vs.foldl σ.copyBinding m)[v]? = some t := by
  induction vs generalizing m with
  | nil => exact hm.resolve_left List.not_mem_nil
  | cons w vs ih =>
    rw [List.mem_cons, or_assoc] at hm
    rw [List.foldl_cons]
    rcases hm with h | h | h
    · exact ih (.inr (getElem?_copyBinding hv (.inl h)))
    · exact ih (.inl h)
    · exact ih (.inr (getElem?_copyBinding hv (.inr h)))

/-- A restriction keeps the values of the variables that it is to. -/
theorem valueOf_restrict {v : Var} {vs : List Var} (h : v ∈ vs) :
    (σ.restrict vs).valueOf v = σ.valueOf v := by
  have hv : (σ.restrictedBindings vs)[v]? = σ.bindings[v]? := by
    cases hb : σ.bindings[v]? with
    | some t => exact getElem?_foldl_copyBinding hb (.inl h)
    | none =>
      cases hr : (σ.restrictedBindings vs)[v]? with
      | none => rfl
      | some t =>
        rw [getElem?_of_restrictedBindings hr] at hb
        cases hb
  exact congrArg (fun u : Option Term => u.getD (.var v)) hv

theorem apply_restrict {α : Type} [HasTerms α] [LawfulTerms α] {vs : List Var} {x : α}
    (h : ∀ v, Term.var v ∈ HasTerms.subterms x → v ∈ vs) :
    (σ.restrict vs).apply x = σ.apply x := by
  rw [apply_eq_instantiate, apply_eq_instantiate]
  exact instantiate_congr fun v hv => valueOf_restrict (h v hv)

end

/-! ## Renaming -/

theorem bindings_renameVar (state : Renaming × Substitution) (v : Var) :
    (renameVar state v).2.bindings = state.2.bindings := by
  unfold renameVar
  split <;> rfl

theorem bindings_foldl_renameVar (vs : List Var) (state : Renaming × Substitution) :
    (vs.foldl renameVar state).2.bindings = state.2.bindings := by
  induction vs generalizing state with
  | nil => rfl
  | cons v vs ih => rw [List.foldl_cons, ih, bindings_renameVar]

theorem bindings_rename {α : Type} [HasTerms α] (σ : Substitution) (ρ : Renaming) (x : α) :
    (σ.rename ρ x).2.2.bindings = σ.bindings :=
  bindings_foldl_renameVar («variables» x) (ρ, σ)

theorem valueOf_congr {σ τ : Substitution} (h : σ.bindings = τ.bindings) (v : Var) :
    σ.valueOf v = τ.valueOf v := by
  rw [valueOf, valueOf, h]

theorem IsNormal.congr {σ τ : Substitution} (hσ : σ.IsNormal) (h : τ.bindings = σ.bindings) :
    τ.IsNormal :=
  fun v => valueOf_congr h v ▸ hσ v

/-! ## Reachable substitutions -/

/-- What the operations build from the empty substitution. -/
inductive Reachable : Substitution → Prop where
  | empty : Reachable Substitution.empty
  | addVariables {α : Type} [HasTerms α] {σ : Substitution} (x : α) :
    Reachable σ → Reachable (σ.addVariables x)
  | fresh {σ : Substitution} (symbol : String) : Reachable σ → Reachable (σ.fresh symbol).2
  | bind {σ τ : Substitution} {v : Var} {t : Term} :
    Reachable σ → σ.bind v t = .ok τ → Reachable τ
  | unify {σ τ : Substitution} {s t : Term} :
    Reachable σ → σ.unify s t = .ok τ → Reachable τ
  | unifyAtoms {σ τ : Substitution} {a b : Atom} :
    Reachable σ → σ.unifyAtoms a b = .ok τ → Reachable τ
  | rename {α : Type} [HasTerms α] {σ : Substitution} (ρ : Renaming) (x : α) :
    Reachable σ → Reachable (σ.rename ρ x).2.2
  | restrict {σ : Substitution} (vs : List Var) : Reachable σ → Reachable (σ.restrict vs)

theorem isNormal_empty : empty.IsNormal := fun _ => rfl

theorem Reachable.isNormal {σ : Substitution} (h : Reachable σ) : σ.IsNormal := by
  induction h with
  | empty => exact isNormal_empty
  | addVariables x _ ih => exact ih
  | fresh symbol _ ih => exact ih
  | bind _ h ih => exact ih.bind h
  | unify _ h ih => exact ih.solve h
  | unifyAtoms _ h ih => exact ih.solve h
  | rename ρ x _ ih => exact ih.congr (bindings_rename _ ρ x)
  | restrict vs _ ih => exact ih.restrict vs

theorem Reachable.bindAll {σ τ : Substitution} (hσ : σ.Reachable) {pairs : List (Var × Term)}
    (h : σ.bindAll pairs = .ok τ) : τ.Reachable := by
  induction pairs generalizing σ with
  | nil =>
    obtain rfl := Except.ok.inj h
    exact hσ
  | cons pair pairs ih =>
    obtain ⟨ρ, hbind, hrest⟩ := exists_of_bind_eq_ok h
    exact ih (.bind hσ hbind) hrest

end Substitution
end Horn
