import Horn.Proofs.MostGeneral
import Std.Data.String.ToNat

/-!
Names in use.  The scope of a substitution has the text of every variable that the bindings mention,
so a variable whose text is not in the scope can be given any value at all.  That is how a clause,
once renamed apart, takes its values from one place while everything else keeps its own.
-/

namespace Horn

/-! ## Texts -/

/-- The tally can be read off the text. -/
theorem Var.tally_eq_of_text_eq {symbol : String} {m n : Nat}
    (h : Var.text ⟨symbol, m⟩ = Var.text ⟨symbol, n⟩) : m = n := by
  have hne : ∀ {k : Nat}, symbol ≠ symbol ++ toString k := by
    intro k hk
    have hlen := congrArg String.length hk
    have hpos : 0 < k.repr.length := Nat.length_repr_pos
    rw [String.length_append] at hlen
    have : (toString k).length = k.repr.length := rfl
    omega
  unfold Var.text at h
  by_cases hm : m = 0 <;> by_cases hn : n = 0 <;> simp only [hm, hn, if_true, if_false] at h
  · omega
  · exact absurd h hne
  · exact absurd h.symm hne
  · exact Nat.repr_injective ((String.append_right_inj symbol).1 h)

namespace Scope

theorem le_firstFree (symbol : String) (names : Std.TreeSet String) (tally : Nat) :
    tally ≤ firstFree symbol names tally := by
  fun_induction firstFree symbol names tally with
  | case1 names tally _ ih => omega
  | case2 names tally _ => exact Nat.le_refl _

theorem firstFree_not_mem (symbol : String) (names : Std.TreeSet String) (tally : Nat) :
    Var.text ⟨symbol, firstFree symbol names tally⟩ ∉ names := by
  fun_induction firstFree symbol names tally with
  | case1 names tally hmem ih =>
    intro h
    refine ih (Std.TreeSet.mem_erase.2 ⟨fun heq => ?_, h⟩)
    -- the name that was left out belongs to an earlier tally
    have hsame := Var.tally_eq_of_text_eq (Std.LawfulEqOrd.eq_of_compare heq)
    have hle := le_firstFree symbol (names.erase (Var.text ⟨symbol, tally⟩)) (tally + 1)
    omega
  | case2 names tally hmem => exact hmem

theorem mem_names_register {s : Scope} {v : Var} {name : String} :
    name ∈ (s.register v).names ↔ v.text = name ∨ name ∈ s.names := by
  rw [register, Std.TreeSet.mem_insert, Std.LawfulEqOrd.compare_eq_iff_eq]

theorem mem_names_registerAll {s : Scope} {vs : List Var} {name : String} :
    name ∈ (s.registerAll vs).names ↔ (∃ v ∈ vs, v.text = name) ∨ name ∈ s.names := by
  induction vs generalizing s with
  | nil => simp [registerAll]
  | cons v vs ih =>
    have hstep : s.registerAll (v :: vs) = (s.register v).registerAll vs := rfl
    have hcons : (∃ w ∈ v :: vs, w.text = name) ↔ v.text = name ∨ ∃ w ∈ vs, w.text = name := by
      simp
    rw [hstep, ih, mem_names_register, hcons, or_assoc, or_left_comm]

end Scope

namespace Substitution

/-- The names in use around a substitution. -/
def names (σ : Substitution) : Std.TreeSet String := σ.scope.names

/-- The names of the variables of a form are in use. -/
def Knows {α : Type} [HasTerms α] (σ : Substitution) (x : α) : Prop :=
  ∀ v, Term.var v ∈ HasTerms.subterms x → v.text ∈ σ.names

/-- Bound variables and the variables of their values are known. -/
structure IsScoped (σ : Substitution) : Prop where
  bound : ∀ (v : Var) (t : Term), σ.bindings[v]? = some t → v.text ∈ σ.names
  values : ∀ (v : Var) (t : Term), σ.bindings[v]? = some t → σ.Knows t

/-- Every name that was in use still is. -/
def Keeps (σ τ : Substitution) : Prop := ∀ name, name ∈ σ.names → name ∈ τ.names

section

variable {α : Type} [HasTerms α] {σ τ ρ : Substitution}

theorem Keeps.refl (σ : Substitution) : σ.Keeps σ := fun _ h => h

theorem Keeps.trans (h : σ.Keeps τ) (h' : τ.Keeps ρ) : σ.Keeps ρ := fun name hn => h' name (h name hn)

theorem Knows.mono {x : α} (h : σ.Knows x) (hτ : σ.Keeps τ) : τ.Knows x :=
  fun v hv => hτ _ (h v hv)

theorem isScoped_empty : empty.IsScoped :=
  ⟨fun v t h => by simp [empty] at h, fun v t h => by simp [empty] at h⟩

theorem IsScoped.congr (h : σ.IsScoped) (hτ : σ.Keeps τ) (hb : τ.bindings = σ.bindings) :
    τ.IsScoped := by
  refine ⟨fun v t hv => ?_, fun v t hv => ?_⟩
  · rw [hb] at hv
    exact hτ _ (h.bound v t hv)
  · rw [hb] at hv
    exact (h.values v t hv).mono hτ

theorem keeps_addVariables (σ : Substitution) (x : α) : σ.Keeps (σ.addVariables x) :=
  fun _ h => Scope.mem_names_registerAll.2 (.inr h)

theorem knows_addVariables (σ : Substitution) (x : α) : (σ.addVariables x).Knows x :=
  fun v hv => Scope.mem_names_registerAll.2 (.inl ⟨v, mem_variables_iff.2 hv, rfl⟩)

/-- A variable of an instance comes from the term put for some variable. -/
theorem exists_occurs_of_instantiate [LawfulTerms α] {θ : Var → Term} {x : α} {w : Var}
    (h : Term.var w ∈ HasTerms.subterms (instantiate θ x)) :
    ∃ v, Term.var v ∈ HasTerms.subterms x ∧ (θ v).occurs w = true := by
  rw [instantiate_eq_rewrite] at h
  obtain ⟨t, ht, hw⟩ := LawfulTerms.subterms_rewrite h
  obtain ⟨v, hv, hwv⟩ := (Term.occurs_replaceVars _ w t).1 ((Term.var_mem_subterms w _).1 hw)
  exact ⟨v, LawfulTerms.subterms_subterms ht ((Term.var_mem_subterms v t).2 hv), hwv⟩

/-- What a scoped substitution makes of a known form is known. -/
theorem IsScoped.knows_apply [LawfulTerms α] (h : σ.IsScoped) {x : α} (hx : σ.Knows x) :
    σ.Knows (σ.apply x) := by
  intro w hw
  rw [apply_eq_instantiate] at hw
  obtain ⟨v, hv, hwv⟩ := exists_occurs_of_instantiate hw
  cases hb : σ.bindings[v]? with
  | none =>
    obtain rfl : v = w := by simpa [valueOf, hb, Term.occurs] using hwv
    exact hx v hv
  | some u =>
    have hu : u.occurs w = true := by simpa [valueOf, hb] using hwv
    exact h.values v u hb w ((Term.var_mem_subterms w u).2 hu)

/-- Only the values of known variables matter for a known form. -/
theorem Knows.apply_congr [LawfulTerms α] {θ η : Valuation} {x : α} (hx : σ.Knows x)
    (h : ∀ v, v.text ∈ σ.names → θ.value v = η.value v) : θ.apply x = η.apply x :=
  instantiate_congr fun v hv => h v (hx v hv)

theorem IsScoped.respects_congr {θ η : Valuation} (hσ : σ.IsScoped) (hη : η.Respects σ)
    (h : ∀ v, v.text ∈ σ.names → θ.value v = η.value v) : θ.Respects σ := by
  intro v
  cases hv : σ.bindings[v]? with
  | none =>
    rw [valueOf_of_unbound hv]
    rfl
  | some t =>
    have ht : σ.valueOf v = t := by simp [valueOf, hv]
    have hval := hη v
    rw [ht] at hval ⊢
    rw [(hσ.values v t hv).apply_congr h, hval, h v (hσ.bound v t hv)]

/-! ## Binding -/

section

variable {v : Var} {u : Term} {hu : ∀ w, u.occurs w = true → σ.bindings[w]? = none}
  {hv : u.occurs v = false}

theorem mem_names_extend {name : String} :
    name ∈ (σ.extend v u hu hv).names ↔
      (∃ w ∈ «variables» u, w.text = name) ∨ v.text = name ∨ name ∈ σ.names := by
  show name ∈ ((σ.scope.register v).registerAll («variables» u)).names ↔ _
  rw [Scope.mem_names_registerAll, Scope.mem_names_register]
  rfl

theorem keeps_extend : σ.Keeps (σ.extend v u hu hv) :=
  fun _ h => mem_names_extend.2 (.inr (.inr h))

theorem IsScoped.extend (h : σ.IsScoped) : (σ.extend v u hu hv).IsScoped := by
  have hnew : ∀ w, u.occurs w = true → w.text ∈ (σ.extend v u hu hv).names := by
    intro w hw
    have hmem : w ∈ «variables» u := mem_variables_iff.2 ((Term.var_mem_subterms w u).2 hw)
    exact mem_names_extend.2 (.inl ⟨w, hmem, rfl⟩)
  refine ⟨fun x t hx => ?_, fun x t hx w hw => ?_⟩
  · rcases extend_cases hx with ⟨rfl, -⟩ | ⟨s, hs, -⟩
    · exact mem_names_extend.2 (.inr (.inl rfl))
    · exact keeps_extend _ (h.bound x s hs)
  · have hw := (Term.var_mem_subterms w t).1 hw
    rcases extend_cases hx with ⟨-, rfl⟩ | ⟨s, hs, rfl⟩
    · exact hnew w hw
    · rcases occurs_replaceIn hw with ⟨hws, -⟩ | ⟨-, hwu⟩
      · exact keeps_extend _ (h.values x s hs w ((Term.var_mem_subterms w s).2 hws))
      · exact hnew w hwu

end

/-- Extending keeps the substitution scoped and every name in use. -/
theorem isScoped_and_keeps_extend {v : Var} {u : Term} {hu hv}
    (h : ρ.IsScoped ∧ σ.Keeps ρ) : (ρ.extend v u hu hv).IsScoped ∧ σ.Keeps (ρ.extend v u hu hv) :=
  ⟨h.1.extend, h.2.trans keeps_extend⟩

theorem IsScoped.bindUnbound {v : Var} {t : Term} (h : σ.IsScoped)
    (hb : σ.bindUnbound v t = .ok τ) : τ.IsScoped ∧ σ.Keeps τ :=
  bindUnbound_induction (P := fun ρ => ρ.IsScoped ∧ σ.Keeps ρ) isScoped_and_keeps_extend ⟨h, .refl σ⟩
    hb

/-- Solving demands takes in every variable that it binds or puts into a value. -/
theorem IsScoped.solve {demands : List Demand} (h : σ.IsScoped) (hs : σ.solve demands = .ok τ) :
    τ.IsScoped ∧ σ.Keeps τ :=
  solve_induction (P := fun ρ => ρ.IsScoped ∧ σ.Keeps ρ) isScoped_and_keeps_extend ⟨h, .refl σ⟩ hs

/-! ## Renaming apart -/

/-- The images of a renaming are new since a substitution, and each is the image of one variable. -/
structure IsApart (σ : Substitution) (state : Renaming × Substitution) : Prop where
  keeps : σ.Keeps state.2
  unused : ∀ e ∈ state.1, e.2.text ∉ σ.names
  known : ∀ e ∈ state.1, e.2.text ∈ state.2.names
  single : ∀ e ∈ state.1, ∀ e' ∈ state.1, e.2 = e'.2 → e.1 = e'.1

theorem isApart_nil (σ : Substitution) : σ.IsApart ([], σ) := ⟨.refl σ, nofun, nofun, nofun⟩

theorem fresh_not_mem (σ : Substitution) (symbol : String) :
    (σ.fresh symbol).1.text ∉ σ.names :=
  Scope.firstFree_not_mem symbol σ.scope.names _

theorem mem_names_fresh {symbol name : String} :
    name ∈ (σ.fresh symbol).2.names ↔ (σ.fresh symbol).1.text = name ∨ name ∈ σ.names :=
  Scope.mem_names_register (s := σ.scope)

theorem IsApart.renameVar {state : Renaming × Substitution} (h : σ.IsApart state) (v : Var) :
    σ.IsApart (renameVar state v) ∧ ((renameVar state v).1.lookup v).isSome = true ∧
      ∀ w, (state.1.lookup w).isSome = true → ((renameVar state v).1.lookup w).isSome = true := by
  obtain ⟨ρ, τ⟩ := state
  unfold Substitution.renameVar
  split
  · rename_i hv
    exact ⟨h, hv, fun _ hw => hw⟩
  · have hnew := fresh_not_mem τ v.symbol
    have hmem : (τ.fresh v.symbol).1.text ∈ (τ.fresh v.symbol).2.names :=
      mem_names_fresh.2 (.inl rfl)
    have hkeeps : τ.Keeps (τ.fresh v.symbol).2 := fun _ hn => mem_names_fresh.2 (.inr hn)
    have hne : ∀ e ∈ ρ, e.2 ≠ (τ.fresh v.symbol).1 := by
      intro e he heq
      exact hnew (heq ▸ h.known e he)
    refine ⟨⟨h.keeps.trans hkeeps, ?_, ?_, ?_⟩, ?_, fun w hw => ?_⟩
    · refine List.forall_mem_cons.2 ⟨fun hn => hnew (h.keeps _ hn), h.unused⟩
    · exact List.forall_mem_cons.2 ⟨hmem, fun e he => hkeeps _ (h.known e he)⟩
    · intro e he e' he' heq
      rcases List.mem_cons.1 he with rfl | he <;> rcases List.mem_cons.1 he' with rfl | he'
      · rfl
      · exact absurd heq.symm (hne e' he')
      · exact absurd heq (hne e he)
      · exact h.single e he e' he' heq
    · simp
    · dsimp only
      rw [List.lookup_cons]
      split
      · rfl
      · exact hw

theorem IsApart.foldl_renameVar {state : Renaming × Substitution} (h : σ.IsApart state)
    (vs : List Var) :
    σ.IsApart (vs.foldl Substitution.renameVar state) ∧
      (∀ v ∈ vs, ((vs.foldl Substitution.renameVar state).1.lookup v).isSome = true) ∧
      ∀ w, (state.1.lookup w).isSome = true →
        ((vs.foldl Substitution.renameVar state).1.lookup w).isSome = true := by
  induction vs generalizing state with
  | nil => exact ⟨h, nofun, fun _ hw => hw⟩
  | cons v vs ih =>
    obtain ⟨hstep, hv, hkept⟩ := h.renameVar v
    obtain ⟨hall, hvs, hrest⟩ := ih hstep
    exact ⟨hall, List.forall_mem_cons.2 ⟨hrest v hv, hvs⟩, fun w hw => hrest w (hkept w hw)⟩

theorem mem_of_lookup_eq_some {β : Type} {images : List (Var × β)} {v : Var} {b : β}
    (h : images.lookup v = some b) : (v, b) ∈ images := by
  obtain ⟨before, after, rfl, -⟩ := List.lookup_eq_some_iff.1 h
  simp

/-- A form is renamed to variables whose names were not in use and now are. -/
theorem isApart_rename (σ : Substitution) (x : α) :
    σ.IsApart (σ.rename [] x).2 ∧
      ∀ v, Term.var v ∈ HasTerms.subterms x → ∃ w, (σ.rename [] x).2.1.lookup v = some w := by
  obtain ⟨hall, hvs, -⟩ := (isApart_nil σ).foldl_renameVar («variables» x)
  exact ⟨hall, fun v hv => Option.isSome_iff_exists.1 (hvs v (mem_variables_iff.2 hv))⟩

theorem IsApart.knows [LawfulTerms α] {names : Renaming} (h : σ.IsApart (names, τ)) {x : α}
    (hx : ∀ v, Term.var v ∈ HasTerms.subterms x → ∃ w, names.lookup v = some w) :
    τ.Knows (names.apply x) := by
  intro w hw
  rw [Renaming.apply, replaceVars_eq_instantiate] at hw
  obtain ⟨v, hv, hwv⟩ := exists_occurs_of_instantiate hw
  obtain ⟨u, hu⟩ := hx v hv
  obtain rfl : u = w := by simpa [hu, Term.occurs] using hwv
  exact h.known (v, u) (mem_of_lookup_eq_some hu)

end

end Substitution

namespace Renaming

/-- A renamed form is in list normal form. -/
theorem normal_apply {α : Type} [HasTerms α] [LawfulTerms α] (ρ : Renaming) (x : α) :
    Normal (ρ.apply x) := by
  rw [Renaming.apply, replaceVars_eq_instantiate]
  refine Valuation.normal_apply ⟨_, fun v => ?_⟩ x
  cases ρ.lookup v <;> rfl

/-- The images take the values of what they are images of, and all else keeps its own. -/
def overlay (ρ : Renaming) (ζ η : Valuation) : Valuation where
  value w :=
    match ρ.find? fun e => e.2 == w with
    | some e => ζ.value e.1
    | none => η.value w
  normal w := by
    split
    · exact ζ.normal _
    · exact η.normal w

section

variable {ρ : Renaming} {ζ η : Valuation} {σ τ : Substitution}

/-- A variable in use is no image. -/
theorem find?_of_mem_names (h : σ.IsApart (ρ, τ)) {w : Var} (hw : w.text ∈ σ.names) :
    (ρ.find? fun e => e.2 == w) = none := by
  refine List.find?_eq_none.2 fun e he heq => h.unused e he ?_
  rwa [beq_iff_eq.1 heq]

/-- What an image is the image of can be found again. -/
theorem find?_image (h : σ.IsApart (ρ, τ)) {v w : Var} (hv : ρ.lookup v = some w) :
    ∃ e, (ρ.find? fun e => e.2 == w) = some e ∧ e.1 = v := by
  have hmem := Substitution.mem_of_lookup_eq_some hv
  cases hfind : ρ.find? fun e => e.2 == w with
  | none => exact absurd (beq_self_eq_true w) (List.find?_eq_none.1 hfind (v, w) hmem)
  | some e =>
    have hw : e.2 = w := beq_iff_eq.1 (List.find?_some (p := fun e : Var × Var => e.2 == w) hfind)
    exact ⟨e, rfl, h.single e (List.mem_of_find?_eq_some hfind) (v, w) hmem hw⟩

theorem overlay_of_mem_names (h : σ.IsApart (ρ, τ)) {w : Var} (hw : w.text ∈ σ.names) :
    (ρ.overlay ζ η).value w = η.value w := by
  simp only [overlay, find?_of_mem_names h hw]

theorem overlay_image (h : σ.IsApart (ρ, τ)) {v w : Var} (hv : ρ.lookup v = some w) :
    (ρ.overlay ζ η).value w = ζ.value v := by
  obtain ⟨e, hfind, rfl⟩ := find?_image h hv
  simp only [overlay, hfind]

/-- A renamed form gets the value that the form has on its own. -/
theorem apply_overlay {α : Type} [HasTerms α] [LawfulTerms α] (h : σ.IsApart (ρ, τ)) {x : α}
    (hx : ∀ v, Term.var v ∈ HasTerms.subterms x → ∃ w, ρ.lookup v = some w) :
    (ρ.overlay ζ η).apply (ρ.apply x) = ζ.apply x := by
  rw [Renaming.apply, replaceVars_eq_instantiate, Valuation.apply_instantiate]
  refine instantiate_congr fun v hv => ?_
  obtain ⟨w, hw⟩ := hx v hv
  show (ρ.overlay ζ η).apply (((ρ.lookup v).map Term.var).getD (.var v)) = ζ.value v
  rw [hw]
  exact overlay_image h hw

end

end Renaming
end Horn
