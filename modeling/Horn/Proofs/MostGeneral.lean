import Horn.Proofs.Reachable

/-!
Unification is most general.  Every step of the solver leaves the same valuations: those that
respect the bindings and make the two terms of every demand equal.  When it gives up, none is left.
-/

namespace Horn

/-! ## Valuations that respect a substitution -/

namespace Valuation

/-- A variable and what it is bound to get the same term. -/
def Respects (θ : Valuation) (σ : Substitution) : Prop :=
  ∀ v, θ.apply (σ.valueOf v) = θ.value v

section

variable {θ : Valuation} {σ : Substitution}

theorem Respects.apply {α : Type} [HasTerms α] [LawfulTerms α] (h : θ.Respects σ) (x : α) :
    θ.apply (σ.apply x) = θ.apply x := by
  rw [Substitution.apply_eq_instantiate, apply_instantiate]
  exact instantiate_congr fun v _ => h v

theorem respects_iff : θ.Respects σ ↔ ∀ x : Term, θ.apply (σ.apply x) = θ.apply x :=
  ⟨fun h x => h.apply x, fun h v => h (.var v)⟩

theorem Respects.apply_resolve (h : θ.Respects σ) (t : Term) :
    θ.apply (σ.resolve t) = θ.apply t := by
  cases t with
  | var v => exact h v
  | _ => rfl

theorem respects_congr {τ : Substitution} (h : τ.bindings = σ.bindings) :
    θ.Respects τ ↔ θ.Respects σ := by
  unfold Respects
  simp only [Substitution.valueOf_congr h]

/-- A substituted variable makes no difference when both get the same term. -/
theorem apply_replaceIn {v : Var} {u : Term} (h : θ.apply u = θ.value v) (t : Term) :
    θ.apply (Substitution.replaceIn v u t) = θ.apply t := by
  unfold Substitution.replaceIn
  split
  · rw [Term.replaceVars_eq, Term.apply_instantiate]
    refine Term.instantiate_congr fun w _ => ?_
    show θ.apply ((if w = v then some u else none).getD (.var w)) = θ.value w
    by_cases hw : w = v
    · rw [if_pos hw, Option.getD_some, h, hw]
    · rw [if_neg hw]
      rfl
  · rfl

theorem respects_extend {v : Var} {u : Term}
    {hu : ∀ w, u.occurs w = true → σ.bindings[w]? = none} {hv : u.occurs v = false}
    (hfree : σ.bindings[v]? = none) :
    θ.Respects (σ.extend v u hu hv) ↔ θ.Respects σ ∧ θ.value v = θ.apply u := by
  constructor
  · intro h
    have hvu : θ.apply u = θ.value v := by
      have := h v
      rwa [Substitution.valueOf_extend, if_pos rfl] at this
    refine ⟨fun w => ?_, hvu.symm⟩
    by_cases hw : w = v
    · rw [hw, Substitution.valueOf_of_unbound hfree]
      rfl
    · have := h w
      rwa [Substitution.valueOf_extend, if_neg hw, apply_replaceIn hvu] at this
  · intro ⟨h, hvu⟩ w
    rw [Substitution.valueOf_extend]
    by_cases hw : w = v
    · rw [if_pos hw, hw, hvu]
    · rw [if_neg hw, apply_replaceIn hvu.symm]
      exact h w

end
end Valuation

namespace Substitution

/-- A compressed substitution does not change its own values. -/
theorem apply_valueOf {σ : Substitution} (h : σ.IsNormal) (v : Var) :
    σ.apply (σ.valueOf v) = σ.valueOf v := by
  rw [apply_eq_instantiate]
  refine Eq.trans (Term.instantiate_congr fun w hw => ?_) (Term.apply_identity (h v))
  cases hv : σ.bindings[v]? with
  | none =>
    rw [valueOf_of_unbound hv] at hw
    obtain rfl : v = w := by simpa [Term.occurs] using hw
    exact valueOf_of_unbound hv
  | some t =>
    have ht : σ.valueOf v = t := by simp [valueOf, hv]
    exact valueOf_of_unbound (σ.compressed v t hv w (ht ▸ hw))

/-- A substitution extends another when it does not tell a term from its image. -/
theorem valuation_respects_iff {σ τ : Substitution} (h : τ.IsNormal) :
    (τ.valuation h).Respects σ ↔ ∀ x : Term, τ.apply (σ.apply x) = τ.apply x := by
  rw [Valuation.respects_iff]
  simp only [valuation_apply]

theorem valuation_respects {σ : Substitution} (h : σ.IsNormal) : (σ.valuation h).Respects σ :=
  fun v => (valuation_apply h _).trans (apply_valueOf h v)

end Substitution

/-! ## The occurs check -/

namespace Term

theorem size_le_sizeAll {t : Term} {ts : List Term} (h : t ∈ ts) : t.size ≤ sizeAll ts := by
  induction ts with
  | nil => exact absurd h List.not_mem_nil
  | cons u ts ih =>
    rw [sizeAll]
    rcases List.mem_cons.1 h with rfl | h
    · omega
    · have := ih h
      omega

theorem sizeAll_append (xs ys : List Term) : sizeAll (xs ++ ys) = sizeAll xs + sizeAll ys := by
  induction xs with
  | nil => simp [sizeAll]
  | cons x xs ih =>
    rw [List.cons_append, sizeAll, sizeAll, ih, Nat.add_assoc]

/-- Splicing a tail in loses at most the node of the tail. -/
theorem size_le_listOf (items : List Term) {t : Term} (ht : t.isNormal = true) :
    sizeAll items + t.size ≤ (listOf items (some t)).size := by
  cases hlist : t.asList with
  | none =>
    by_cases hne : items = []
    · rw [hne, listOf_nil ht, sizeAll]
      omega
    · rw [listOf_of_not_list hne hlist, size, sizeTail]
      omega
  | some parts =>
    obtain ⟨rest, tail⟩ := parts
    obtain rfl : t = .list rest tail := by cases t <;> simp_all [asList]
    rw [listOf_some_list ht, size, size, sizeAll_append]
    omega

/-- A variable inside a larger term gets a smaller term than the whole does. -/
theorem size_lt_of_occurs (θ : Valuation) {v : Var} {t : Term} (hne : t ≠ .var v)
    (ht : t.isNormal = true) (hv : t.occurs v = true) :
    (θ.value v).size < (θ.apply t).size := by
  have hle : ∀ u : Term, u.isNormal = true → u.occurs v = true →
      (u ≠ .var v → u.isNormal = true → u.occurs v = true →
        (θ.value v).size < (θ.apply u).size) → (θ.value v).size ≤ (θ.apply u).size := by
    intro u hu huv ih
    by_cases hvar : u = .var v
    · rw [hvar]
      exact Nat.le_refl _
    · exact Nat.le_of_lt (ih hvar hu huv)
  induction t using Term.induct with
  | const c => simp [occurs] at hv
  | placeholder p => simp [occurs] at hv
  | var w =>
    obtain rfl : w = v := by simpa [occurs] using hv
    exact absurd rfl hne
  | compound f args ih =>
    obtain ⟨u, hu, huv⟩ := occursAny_iff.1 (by simpa [occurs] using hv)
    have h := hle u (isNormal_args ht hu) huv (ih u hu)
    have hsum := size_le_sizeAll (List.mem_map.2 ⟨u, hu, rfl⟩ : θ.apply u ∈ args.map θ.apply)
    show _ < (instantiate θ.value (Term.compound f args)).size
    rw [instantiate_compound, size]
    show _ < 1 + sizeAll (args.map θ.apply)
    omega
  | list items tail ihitems ihtail =>
    have hsize := size_le_listOf (items.map θ.apply) (t := (tail.map θ.apply).getD emptyList) (by
      cases tail with
      | none => exact isNormal_emptyList
      | some t => exact isNormal_apply θ t)
    rw [← listOf_getD] at hsize
    show _ < (instantiate θ.value (Term.list items tail)).size
    rw [instantiate_list]
    refine Nat.lt_of_lt_of_le ?_ hsize
    rw [occurs, Bool.or_eq_true] at hv
    rcases hv with hv | hv
    · obtain ⟨u, hu, huv⟩ := occursAny_iff.1 hv
      have h := hle u (isNormal_items ht hu) huv (ihitems u hu)
      have hsum := size_le_sizeAll (List.mem_map.2 ⟨u, hu, rfl⟩ : θ.apply u ∈ items.map θ.apply)
      have hpos := Substitution.size_pos ((tail.map θ.apply).getD emptyList)
      omega
    · cases tail with
      | none => simp [occursTail] at hv
      | some u =>
        have h := hle u (isNormal_tail ht) hv (ihtail u rfl)
        obtain ⟨x, hx⟩ := List.exists_mem_of_ne_nil _ ((isNormal_list.1 ht).2 u rfl).1
        have hsum := size_le_sizeAll (List.mem_map.2 ⟨x, hx, rfl⟩ : θ.apply x ∈ items.map θ.apply)
        have hpos := Substitution.size_pos (θ.apply x)
        show _ < _ + (θ.apply u).size
        omega

end Term

/-! ## Demands -/

namespace Substitution

namespace Demand

/-- The valuation meets the demand. -/
def Holds (θ : Valuation) : Demand → Prop
  | .equal s t => θ.apply s = θ.apply t
  | .refuse _ => False

/-- Both terms of the demand are in list normal form. -/
def IsNormal : Demand → Prop
  | .equal s t => s.isNormal = true ∧ t.isNormal = true
  | .refuse _ => True

end Demand

/-- What solves the demands under the bindings. -/
def Solves (θ : Valuation) (σ : Substitution) (demands : List Demand) : Prop :=
  θ.Respects σ ∧ ∀ d ∈ demands, d.Holds θ

section

variable {θ : Valuation} {σ τ : Substitution}

theorem solves_cons {s t : Term} {demands : List Demand} :
    Solves θ σ (.equal s t :: demands) ↔
      (θ.Respects σ ∧ θ.apply s = θ.apply t) ∧ ∀ d ∈ demands, d.Holds θ := by
  rw [Solves, List.forall_mem_cons, ← and_assoc]
  rfl

theorem solves_append {new demands : List Demand} :
    Solves θ σ (new ++ demands) ↔ Solves θ σ new ∧ ∀ d ∈ demands, d.Holds θ := by
  rw [Solves, Solves, List.forall_mem_append, and_assoc]

theorem holds_zipWith {xs ys : List Term} (h : xs.length = ys.length) :
    (∀ d ∈ List.zipWith Demand.equal xs ys, d.Holds θ) ↔ xs.map θ.apply = ys.map θ.apply := by
  induction xs generalizing ys with
  | nil =>
    have : ys = [] := List.eq_nil_of_length_eq_zero h.symm
    simp [this]
  | cons x xs ih =>
    cases ys with
    | nil => simp at h
    | cons y ys =>
      have h : xs.length = ys.length := by simpa using h
      rw [List.zipWith_cons_cons, List.forall_mem_cons, ih h, List.map_cons, List.map_cons,
        List.cons.injEq]
      rfl

/-- Only the items that have a partner are compared. -/
theorem zipWith_equal_take (xs ys : List Term) :
    List.zipWith Demand.equal xs ys =
      List.zipWith Demand.equal (xs.take ys.length) (ys.take xs.length) := by
  induction xs generalizing ys with
  | nil => simp
  | cons x xs ih =>
    cases ys with
    | nil => simp
    | cons y ys =>
      rw [List.zipWith_cons_cons, ih]
      rfl

theorem isNormal_zipWith {xs ys : List Term} (hx : ∀ t ∈ xs, t.isNormal = true)
    (hy : ∀ t ∈ ys, t.isNormal = true) :
    ∀ d ∈ List.zipWith Demand.equal xs ys, d.IsNormal := by
  induction xs generalizing ys with
  | nil => simp
  | cons x xs ih =>
    cases ys with
    | nil => simp
    | cons y ys =>
      rw [List.zipWith_cons_cons, List.forall_mem_cons]
      rw [List.forall_mem_cons] at hx hy
      exact ⟨⟨hx.1, hy.1⟩, ih hx.2 hy.2⟩

/-- What ends a list under a valuation. -/
theorem apply_list (items : List Term) (tail : Option Term) :
    θ.apply (Term.list items tail) =
      Term.listOf (items.map θ.apply) (some (θ.apply (tail.getD Term.emptyList))) := by
  have h : θ.apply Term.emptyList = Term.emptyList := Term.instantiate_emptyList _
  show instantiate _ (Term.list items tail) = _
  rw [Term.instantiate_list]
  cases tail with
  | none =>
    rw [Option.getD_none, h]
    exact Term.listOf_none _
  | some t => rfl

theorem apply_list_of_length_eq {xs ys : List Term} (s t : Option Term)
    (h : xs.length = ys.length) :
    θ.apply (Term.list xs s) = θ.apply (Term.list ys t) ↔ xs.map θ.apply = ys.map θ.apply ∧
      θ.apply (s.getD Term.emptyList) = θ.apply (t.getD Term.emptyList) := by
  rw [apply_list, apply_list]
  exact Term.listOf_inj (by simpa using h) (Term.isNormal_apply θ _) (Term.isNormal_apply θ _)

/-- The tail of the shorter list must make up for the items that it lacks. -/
theorem apply_list_of_length_lt {xs ys : List Term} (s t : Option Term)
    (h : xs.length < ys.length) :
    θ.apply (Term.list xs s) = θ.apply (Term.list ys t) ↔
      xs.map θ.apply = (ys.take xs.length).map θ.apply ∧
        ∃ u, s = some u ∧ θ.apply u = θ.apply (Term.listOf (ys.drop xs.length) t) := by
  have hsplit : θ.apply (Term.list ys t) = Term.listOf ((ys.take xs.length).map θ.apply)
      (some (θ.apply (Term.listOf (ys.drop xs.length) t))) := by
    have hmap : ys.map θ.apply =
        (ys.take xs.length).map θ.apply ++ (ys.drop xs.length).map θ.apply := by
      rw [← List.map_append, List.take_append_drop]
    rw [Term.apply_listOf, ← Term.listOf_append, ← hmap]
    exact Term.instantiate_list _ ys t
  have hlen : (xs.map θ.apply).length = ((ys.take xs.length).map θ.apply).length := by
    rw [List.length_map, List.length_map, List.length_take]
    omega
  rw [hsplit, apply_list, Term.listOf_inj hlen (Term.isNormal_apply θ _) (Term.isNormal_apply θ _)]
  cases s with
  | some u => simp
  | none =>
    have hne : (ys.drop xs.length).map θ.apply ≠ [] := by
      intro hnil
      have := congrArg List.length hnil
      simp only [List.length_map, List.length_drop, List.length_nil] at this
      omega
    have hnil : θ.apply Term.emptyList = Term.emptyList := Term.instantiate_emptyList _
    rw [Option.getD_none, hnil, Term.apply_listOf]
    have hlonger := Term.listOf_ne_emptyList hne (t.map θ.apply)
    exact ⟨fun h => absurd h.2.symm hlonger, fun ⟨_, _, h, _⟩ => nomatch h⟩

theorem holds_listDemands {xs ys : List Term} {s t : Option Term} :
    (∀ d ∈ listDemands xs s ys t, d.Holds θ) ↔
      θ.apply (Term.list xs s) = θ.apply (Term.list ys t) := by
  have happend : ∀ {ds : List Demand} {d : Demand},
      (∀ e ∈ ds ++ [d], e.Holds θ) ↔ (∀ e ∈ ds, e.Holds θ) ∧ d.Holds θ := by
    intro ds d
    rw [List.forall_mem_append, List.forall_mem_singleton]
  unfold listDemands
  dsimp only
  by_cases heq : xs.length = ys.length
  · rw [if_pos heq, apply_list_of_length_eq s t heq, ← holds_zipWith heq]
    cases s <;> cases t
    · simp
    · exact happend
    · exact happend
    · exact happend
  · rw [if_neg heq, zipWith_equal_take]
    by_cases hlt : xs.length < ys.length
    · have hlen : xs.length = (ys.take xs.length).length := by
        rw [List.length_take]
        omega
      rw [if_pos hlt, apply_list_of_length_lt s t hlt, ← holds_zipWith hlen,
        List.take_of_length_le (by omega)]
      cases s with
      | none => simp [Demand.Holds]
      | some u =>
        refine happend.trans (and_congr_right fun _ => ?_)
        simp [Demand.Holds]
    · have hgt : ys.length < xs.length := by omega
      have hlen : (xs.take ys.length).length = ys.length := by
        rw [List.length_take]
        omega
      have htake : ys.take xs.length = ys := List.take_of_length_le (by omega)
      rw [if_neg hlt, htake, eq_comm (a := θ.apply (Term.list xs s)), apply_list_of_length_lt t s hgt,
        eq_comm (a := ys.map θ.apply), ← holds_zipWith hlen]
      cases t with
      | none => simp [Demand.Holds]
      | some u =>
        refine happend.trans (and_congr_right fun _ => ?_)
        simp [Demand.Holds, eq_comm]

/-! ## Steps -/

/-- Binding leaves the valuations that give the variable what they give the term. -/
theorem respects_of_bindUnbound {v : Var} {t : Term} (hfree : σ.bindings[v]? = none)
    (h : σ.bindUnbound v t = .ok τ) :
    θ.Respects τ ↔ θ.Respects σ ∧ θ.value v = θ.apply t := by
  unfold bindUnbound at h
  dsimp only at h
  split at h
  · rename_i hself
    obtain rfl := Except.ok.inj h
    refine ⟨fun hθ => ⟨hθ, ?_⟩, And.left⟩
    rw [← hθ.apply t, hself]
    rfl
  · split at h
    · cases h
    · obtain rfl := Except.ok.inj h
      rw [Valuation.respects_extend hfree]
      exact and_congr_right fun hθ => by rw [hθ.apply t]

/-- The occurs check only gives up where no valuation is left. -/
theorem not_respects_of_bindUnbound {v : Var} {t : Term} {why : UnifyFailure} (hσ : σ.IsNormal)
    (h : σ.bindUnbound v t = .error why) : ¬ (θ.Respects σ ∧ θ.value v = θ.apply t) := by
  unfold bindUnbound at h
  dsimp only at h
  split at h
  · cases h
  · rename_i hself
    split at h
    · rename_i hocc
      rintro ⟨hθ, hv⟩
      have hlt := Term.size_lt_of_occurs θ hself (isNormal_apply hσ t) hocc
      rw [hθ.apply t, hv] at hlt
      exact Nat.lt_irrefl _ hlt
    · cases h

/-- A valuation does not change what kind of term a normal term is, unless it is a variable. -/
theorem ctorIdx_apply {t : Term} (hvar : ∀ v, t ≠ .var v) (ht : t.isNormal = true) :
    (θ.apply t).ctorIdx = t.ctorIdx := by
  cases t with
  | const c => rfl
  | placeholder p => rfl
  | var v => exact absurd rfl (hvar v)
  | compound f args =>
    show (instantiate θ.value (Term.compound f args)).ctorIdx = _
    rw [Term.instantiate_compound]
    rfl
  | list items tail =>
    have hlist : (θ.apply (Term.list items tail)).asList.isSome = true := by
      show (instantiate θ.value (Term.list items tail)).asList.isSome = true
      rw [Term.instantiate_list]
      refine Term.asList_listOf fun t h => ?_
      obtain ⟨u, rfl, -⟩ := Option.map_eq_some_iff.1 h
      simpa using ((Term.isNormal_list.1 ht).2 u rfl).1
    cases heq : θ.apply (Term.list items tail) with
    | list rest tail => rfl
    | _ => simp [heq, Term.asList] at hlist

/-- Taking terms apart leaves the same valuations. -/
theorem holds_of_decomposes {s t : Term} {new : List Demand} (h : Decomposes s t new) :
    (∀ d ∈ new, d.Holds θ) ↔ θ.apply s = θ.apply t := by
  cases h with
  | const c => simp
  | placeholder p => simp
  | @compound f xs ys hlen =>
    rw [holds_zipWith hlen]
    show _ ↔ instantiate _ (Term.compound f xs) = instantiate _ (Term.compound f ys)
    rw [Term.instantiate_compound, Term.instantiate_compound, Term.compound.injEq]
    exact (and_iff_right rfl).symm
  | list xs s ys t => exact holds_listDemands

/-- A step leaves the same valuations. -/
theorem solves_of_stepResolved {s t : Term} {new : List Demand}
    (hs : ∀ v, s = .var v → σ.bindings[v]? = none) (ht : ∀ v, t = .var v → σ.bindings[v]? = none)
    (h : σ.stepResolved s t = .ok (τ, new)) :
    Solves θ τ new ↔ θ.Respects σ ∧ θ.apply s = θ.apply t := by
  rcases stepResolved_cases h with ⟨y, rfl, rfl, hb⟩ | ⟨x, rfl, rfl, hb⟩ | ⟨rfl, hnew⟩
  · have hbound := respects_of_bindUnbound (θ := θ) (ht y rfl) hb
    rw [Solves, hbound, eq_comm]
    exact and_iff_left nofun
  · rw [Solves, respects_of_bindUnbound (hs x rfl) hb]
    exact and_iff_left nofun
  · exact and_congr_right fun _ => holds_of_decomposes hnew

/-- A step that fails has no valuation to lose. -/
theorem not_solves_of_stepResolved {s t : Term} {why : UnifyFailure} (hσ : σ.IsNormal)
    (hs : s.isNormal = true) (ht : t.isNormal = true)
    (h : σ.stepResolved s t = .error why) : ¬ (θ.Respects σ ∧ θ.apply s = θ.apply t) := by
  have hbind : ∀ {v u}, (σ.bindUnbound v u).map (fun τ => (τ, ([] : List Demand))) = .error why →
      ¬ (θ.Respects σ ∧ θ.value v = θ.apply u) := by
    intro v u h
    cases hb : σ.bindUnbound v u with
    | error why => exact not_respects_of_bindUnbound hσ hb
    | ok ρ => simp [hb, Except.map] at h
  unfold stepResolved at h
  split at h
  · intro ⟨hθ, heq⟩
    exact hbind h ⟨hθ, heq.symm⟩
  · exact hbind h
  · split at h
    · cases h
    · rename_i a b hab
      intro ⟨_, heq⟩
      exact hab (Term.const.inj heq)
  · rename_i f xs g ys
    have hparts : θ.apply (Term.compound f xs) = θ.apply (Term.compound g ys) →
        f = g ∧ xs.map θ.apply = ys.map θ.apply := by
      intro heq
      have heq : instantiate _ (Term.compound f xs) = instantiate _ (Term.compound g ys) := heq
      rw [Term.instantiate_compound, Term.instantiate_compound] at heq
      exact Term.compound.inj heq
    split at h
    · rename_i hfg
      exact fun ⟨_, heq⟩ => hfg (hparts heq).1
    · split at h
      · rename_i hlen
        refine fun ⟨_, heq⟩ => hlen ?_
        simpa using congrArg List.length (hparts heq).2
      · cases h
  · cases h
  · rename_i p q
    split at h
    · cases h
    · rename_i hpq
      intro ⟨_, heq⟩
      exact hpq (Term.placeholder.inj heq)
  · rename_i p hvar hplace
    intro ⟨_, heq⟩
    have hkind := congrArg Term.ctorIdx heq
    rw [ctorIdx_apply hvar ht] at hkind
    cases t with
    | var v => exact hvar v rfl
    | placeholder q => exact hplace q rfl
    | _ => cases hkind
  · rename_i p hvar hplace
    intro ⟨_, heq⟩
    have hkind := congrArg Term.ctorIdx heq
    rw [ctorIdx_apply hvar hs] at hkind
    cases s with
    | var v => exact hvar v rfl
    | placeholder q => exact hplace q rfl
    | _ => cases hkind
  · rename_i hvar _ hvar' _ hconst hcompound hlist hplace
    intro ⟨_, heq⟩
    have hkind := congrArg Term.ctorIdx heq
    rw [ctorIdx_apply hvar hs, ctorIdx_apply hvar' ht] at hkind
    cases s with
    | var v => exact hvar v rfl
    | const a => cases t <;> first | exact hconst _ _ rfl rfl | cases hkind
    | compound f xs => cases t <;> first | exact hcompound _ _ _ _ rfl rfl | cases hkind
    | list xs s => cases t <;> first | exact hlist _ _ _ _ rfl rfl | cases hkind
    | placeholder p => cases t <;> first | exact hplace _ _ rfl rfl | cases hkind

theorem isNormal_resolve {t : Term} (hσ : σ.IsNormal) (ht : t.isNormal = true) :
    (σ.resolve t).isNormal = true := by
  cases t with
  | var v => exact hσ v
  | _ => exact ht

theorem isNormal_listDemands {xs ys : List Term} {s t : Option Term}
    (hs : (Term.list xs s).isNormal = true) (ht : (Term.list ys t).isNormal = true) :
    ∀ d ∈ listDemands xs s ys t, d.IsNormal := by
  have hshared := isNormal_zipWith (fun _ => Term.isNormal_items hs) fun _ => Term.isNormal_items ht
  have happend : ∀ {d : Demand}, d.IsNormal →
      ∀ e ∈ List.zipWith Demand.equal xs ys ++ [d], e.IsNormal := by
    intro d hd
    rw [List.forall_mem_append, List.forall_mem_singleton]
    exact ⟨hshared, hd⟩
  have hrest : ∀ {items : List Term} {tail : Option Term} (n : Nat),
      (Term.list items tail).isNormal = true →
      (Term.listOf (items.drop n) tail).isNormal = true := by
    intro items tail n h
    refine Term.isNormal_listOf (fun u hu => Term.isNormal_items h (List.mem_of_mem_drop hu)) ?_
    rintro u rfl
    exact Term.isNormal_tail h
  have hnil := Term.isNormal_emptyList
  unfold listDemands
  dsimp only
  split
  · cases s <;> cases t
    · exact hshared
    · exact happend ⟨hnil, Term.isNormal_tail ht⟩
    · exact happend ⟨Term.isNormal_tail hs, hnil⟩
    · exact happend ⟨Term.isNormal_tail hs, Term.isNormal_tail ht⟩
  · split
    · cases s
      · exact happend trivial
      · exact happend ⟨Term.isNormal_tail hs, hrest _ ht⟩
    · cases t
      · exact happend trivial
      · exact happend ⟨hrest _ hs, Term.isNormal_tail ht⟩

/-- A step on normal terms leaves normal terms to compare. -/
theorem isNormal_of_stepResolved {s t : Term} {new : List Demand} (hs : s.isNormal = true)
    (ht : t.isNormal = true) (h : σ.stepResolved s t = .ok (τ, new)) :
    ∀ d ∈ new, d.IsNormal := by
  rcases stepResolved_cases h with ⟨y, -, rfl, -⟩ | ⟨x, -, rfl, -⟩ | ⟨-, hnew⟩
  · exact nofun
  · exact nofun
  · cases hnew with
    | const c => exact nofun
    | placeholder p => exact nofun
    | compound f hlen =>
      exact isNormal_zipWith (fun _ => Term.isNormal_args hs) fun _ => Term.isNormal_args ht
    | list xs s ys t => exact isNormal_listDemands hs ht

/-! ## The solver -/

/-- The demands and the bindings found for them have the same solutions. -/
theorem respects_of_solve {demands : List Demand} (h : σ.solve demands = .ok τ) :
    θ.Respects τ ↔ Solves θ σ demands := by
  fun_induction Substitution.solve σ demands with
  | case1 σ =>
    obtain rfl := Except.ok.inj h
    simp [Solves]
  | case2 => cases h
  | case3 => cases h
  | case4 σ s t rest ρ new hstep ih =>
    have hsolves := solves_of_stepResolved (θ := θ) (fun _ => unbound_of_resolve)
      (fun _ => unbound_of_resolve) hstep
    rw [ih h, solves_append, solves_cons, hsolves]
    refine and_congr_left fun _ => and_congr_right fun hθ => ?_
    rw [hθ.apply_resolve, hθ.apply_resolve]

/-- Giving up means that the demands have no solution. -/
theorem not_solves_of_solve {demands : List Demand} {why : UnifyFailure} (hσ : σ.IsNormal)
    (hnormal : ∀ d ∈ demands, d.IsNormal) (h : σ.solve demands = .error why) :
    ¬ Solves θ σ demands := by
  fun_induction Substitution.solve σ demands with
  | case1 σ => cases h
  | case2 σ why rest =>
    rintro ⟨-, hall⟩
    exact hall (.refuse why) (by simp)
  | case3 σ s t rest why hstep =>
    obtain ⟨hs, ht⟩ := hnormal (.equal s t) (by simp)
    intro hsolves
    obtain ⟨⟨hθ, heq⟩, -⟩ := solves_cons.1 hsolves
    refine not_solves_of_stepResolved hσ (isNormal_resolve hσ hs) (isNormal_resolve hσ ht) hstep
      ⟨hθ, ?_⟩
    rw [hθ.apply_resolve, hθ.apply_resolve, heq]
  | case4 σ s t rest ρ new hstep ih =>
    obtain ⟨hs, ht⟩ := hnormal (.equal s t) (by simp)
    have hnew := isNormal_of_stepResolved (isNormal_resolve hσ hs) (isNormal_resolve hσ ht) hstep
    have hrest : ∀ d ∈ rest, d.IsNormal := fun d hd => hnormal d (by simp [hd])
    have hnot := ih (hσ.stepResolved hstep) (List.forall_mem_append.2 ⟨hnew, hrest⟩) h
    have hsolves := solves_of_stepResolved (θ := θ) (fun _ => unbound_of_resolve)
      (fun _ => unbound_of_resolve) hstep
    rw [solves_append, hsolves] at hnot
    rw [solves_cons]
    rintro ⟨⟨hθ, heq⟩, hall⟩
    refine hnot ⟨⟨hθ, ?_⟩, hall⟩
    rw [hθ.apply_resolve, hθ.apply_resolve, heq]

/-- A valuation respects the bindings found for two terms exactly when it respects the old ones and
makes the terms equal. -/
theorem respects_of_unify {s t : Term} (h : σ.unify s t = .ok τ) :
    θ.Respects τ ↔ θ.Respects σ ∧ θ.apply s = θ.apply t := by
  rw [respects_of_solve h, solves_cons]
  simp

theorem holds_predicateDemands {p q : Predicate} :
    (∀ d ∈ predicateDemands p q, d.Holds θ) ↔ θ.apply p = θ.apply q := by
  have hparts : θ.apply p = θ.apply q ↔
      p.name = q.name ∧ p.args.map θ.apply = q.args.map θ.apply := Predicate.mk.injEq .. ▸ Iff.rfl
  rw [hparts]
  unfold predicateDemands
  split
  · rename_i hname
    simp [Demand.Holds, hname]
  · rename_i hname
    split
    · rename_i hlen
      have hargs : p.args.map θ.apply ≠ q.args.map θ.apply := by
        intro h
        exact hlen (by simpa using congrArg List.length h)
      simp [Demand.Holds, hargs]
    · rename_i hlen
      rw [holds_zipWith (not_not.1 hlen)]
      exact (and_iff_right (not_not.1 hname)).symm

theorem respects_of_unifyPredicates {p q : Predicate} (h : σ.unifyPredicates p q = .ok τ) :
    θ.Respects τ ↔ θ.Respects σ ∧ θ.apply p = θ.apply q := by
  rw [respects_of_solve h, Solves, holds_predicateDemands]

theorem isNormal_predicateDemands {p q : Predicate} (hp : Normal p) (hq : Normal q) :
    ∀ d ∈ predicateDemands p q, d.IsNormal := by
  have hargs := isNormal_zipWith (fun _ => p.isNormal_args hp) fun _ => q.isNormal_args hq
  unfold predicateDemands
  split
  · exact List.forall_mem_singleton.2 trivial
  · split
    · exact List.forall_mem_singleton.2 trivial
    · exact hargs

/-- Demands that a valuation meets are solved. -/
theorem exists_solve {demands : List Demand} (hσ : σ.IsNormal)
    (hnormal : ∀ d ∈ demands, d.IsNormal) (h : Solves θ σ demands) :
    ∃ τ, σ.solve demands = .ok τ := by
  cases hs : σ.solve demands with
  | ok τ => exact ⟨τ, rfl⟩
  | error why => exact absurd h (not_solves_of_solve hσ hnormal hs)

theorem exists_unify {s t : Term} (hσ : σ.IsNormal) (hs : s.isNormal = true)
    (ht : t.isNormal = true) (hθ : θ.Respects σ) (heq : θ.apply s = θ.apply t) :
    ∃ τ, σ.unify s t = .ok τ :=
  exists_solve hσ (List.forall_mem_singleton.2 ⟨hs, ht⟩) ⟨hθ, List.forall_mem_singleton.2 heq⟩

theorem exists_unifyPredicates {p q : Predicate} (hσ : σ.IsNormal) (hp : Normal p) (hq : Normal q)
    (hθ : θ.Respects σ) (heq : θ.apply p = θ.apply q) : ∃ τ, σ.unifyPredicates p q = .ok τ :=
  exists_solve hσ (isNormal_predicateDemands hp hq) ⟨hθ, holds_predicateDemands.2 heq⟩

/-- Unification succeeds exactly when some valuation that respects the bindings makes the terms
equal, and what it finds makes them equal and is as general as possible. -/
theorem unify_mostGeneral (hσ : Reachable σ) {s t : Term} (hs : s.isNormal = true)
    (ht : t.isNormal = true) :
    ((∃ τ, σ.unify s t = .ok τ) ↔
      ∃ θ : Valuation, (∀ x : Term, θ.apply (σ.apply x) = θ.apply x) ∧ θ.apply s = θ.apply t) ∧
    ∀ τ, σ.unify s t = .ok τ →
      Reachable τ ∧ τ.apply s = τ.apply t ∧ (∀ x : Term, τ.apply (σ.apply x) = τ.apply x) ∧
      ∀ θ : Valuation, (∀ x : Term, θ.apply (σ.apply x) = θ.apply x) → θ.apply s = θ.apply t →
        ∀ x : Term, θ.apply (τ.apply x) = θ.apply x := by
  have hfound : ∀ τ, σ.unify s t = .ok τ → ∃ h : τ.IsNormal,
      (τ.valuation h).Respects σ ∧ (τ.valuation h).apply s = (τ.valuation h).apply t := by
    intro τ h
    have hτ := (Reachable.unify hσ h).isNormal
    exact ⟨hτ, (respects_of_unify h).1 (valuation_respects hτ)⟩
  refine ⟨⟨fun ⟨τ, h⟩ => ?_, fun ⟨θ, hθ, heq⟩ => ?_⟩, fun τ h => ?_⟩
  · obtain ⟨hτ, hθ, heq⟩ := hfound τ h
    exact ⟨τ.valuation hτ, Valuation.respects_iff.1 hθ, heq⟩
  · cases h : σ.unify s t with
    | ok τ => exact ⟨τ, rfl⟩
    | error why =>
      have hnormal : ∀ d ∈ [Demand.equal s t], d.IsNormal :=
        List.forall_mem_singleton.2 ⟨hs, ht⟩
      have hnot := not_solves_of_solve (θ := θ) hσ.isNormal hnormal h
      exact absurd ⟨Valuation.respects_iff.2 hθ, List.forall_mem_singleton.2 heq⟩ hnot
  · obtain ⟨hτ, hθ, heq⟩ := hfound τ h
    rw [valuation_apply, valuation_apply] at heq
    refine ⟨hσ.unify h, heq, (valuation_respects_iff hτ).1 hθ, fun θ hθ heq => ?_⟩
    exact Valuation.respects_iff.1 ((respects_of_unify h).2 ⟨Valuation.respects_iff.2 hθ, heq⟩)

/-- The closed list `[X, b]` meets the open list `[a | T]`. -/
theorem unify_closed_open :
    ∃ τ, empty.unify (.list [.var (.named "X"), .symbol "b"] none)
        (.list [.symbol "a"] (some (.var (.named "T")))) = .ok τ ∧
      τ.apply (Term.list [.var (.named "X"), .symbol "b"] none) =
        τ.apply (Term.list [.symbol "a"] (some (.var (.named "T")))) := by
  let θ : Valuation :=
    { value := fun v =>
        if v = .named "X" then .symbol "a"
        else if v = .named "T" then .list [.symbol "b"] none
        else .var v
      normal := fun v => by
        split
        · rfl
        · split <;> rfl }
  have hθ : ∀ x : Term, θ.apply (empty.apply x) = θ.apply x :=
    Valuation.respects_iff.1 fun _ => rfl
  have heq : θ.apply (Term.list [.var (.named "X"), .symbol "b"] none) =
      θ.apply (Term.list [.symbol "a"] (some (.var (.named "T")))) := by
    show instantiate θ.value _ = instantiate θ.value _
    rw [Term.instantiate_list, Term.instantiate_list]
    show Term.listOf [.symbol "a", .symbol "b"] none =
      Term.listOf [.symbol "a"] (some (.list [.symbol "b"] none))
    simp [Term.listOf]
  have hgeneral := unify_mostGeneral .empty
    (s := .list [.var (.named "X"), .symbol "b"] none)
    (t := .list [.symbol "a"] (some (.var (.named "T")))) (by decide) (by decide)
  obtain ⟨τ, h⟩ := hgeneral.1.2 ⟨θ, hθ, heq⟩
  exact ⟨τ, h, (hgeneral.2 τ h).2.1⟩

end
end Substitution
end Horn
