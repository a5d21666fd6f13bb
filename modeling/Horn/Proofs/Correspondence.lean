import Horn.Proofs.Relabelling
import Horn.Evaluation
import Mathlib.Data.Option.Basic

/-!
Two substitutions that correspond: over a set of variables the values of one are the values of the
other relabelled one to one.  Whatever is asked of both about forms over these variables has the same
outcome: unification succeeds in both or in neither, and the bindings that it adds correspond again.
-/

namespace Horn
namespace Substitution

/-- The values that the second gives to the labels of the variables are those of the first, relabelled.
The labels keep the variables apart, and the values mention no other variables. -/
structure Corresponds (D : Set Var) (f : Var → Var) (σ τ : Substitution) : Prop where
  apart : Set.InjOn f D
  closed : ∀ v ∈ D, Over D (σ.valueOf v)
  value : ∀ v ∈ D, τ.valueOf (f v) = (σ.valueOf v).relabel f

section

variable {D : Set Var} {f : Var → Var} {σ τ : Substitution} {v : Var} {s t u : Term}

theorem Corresponds.congr {σ' τ' : Substitution} (h : Corresponds D f σ τ)
    (hσ : σ'.bindings = σ.bindings) (hτ : τ'.bindings = τ.bindings) : Corresponds D f σ' τ' where
  apart := h.apart
  closed v hv := valueOf_congr hσ v ▸ h.closed v hv
  value v hv := by
    rw [valueOf_congr hσ, valueOf_congr hτ]
    exact h.value v hv

theorem Corresponds.over_apply {α : Type} [HasTerms α] [LawfulTerms α] {x : α}
    (h : Corresponds D f σ τ) (hx : Over D x) : Over D (σ.apply x) := by
  rw [apply_eq_instantiate]
  exact hx.instantiate h.closed

/-- Both are applied to the same effect. -/
theorem Corresponds.apply_relabel {α : Type} [HasTerms α] [LawfulTerms α] {x : α}
    (h : Corresponds D f σ τ) (hx : Over D x) : τ.apply (relabel f x) = relabel f (σ.apply x) := by
  rw [apply_eq_instantiate, apply_eq_instantiate, instantiate_relabel, relabel_instantiate]
  exact instantiate_congr fun v hv => h.value v (hx v hv)

theorem Corresponds.apply_term (h : Corresponds D f σ τ) (ht : Over D t) :
    τ.apply (t.relabel f) = (σ.apply t).relabel f := by
  have happly := h.apply_relabel ht
  rwa [relabel_term, relabel_term] at happly

theorem Corresponds.resolve (h : Corresponds D f σ τ) (ht : Over D t) :
    τ.resolve (t.relabel f) = (σ.resolve t).relabel f ∧ Over D (σ.resolve t) := by
  cases t with
  | var v =>
    have hv : v ∈ D := ht v List.mem_cons_self
    exact ⟨h.value v hv, h.closed v hv⟩
  | _ => exact ⟨rfl, ht⟩

/-! ## Binding -/

theorem over_var : Over D (Term.var v) ↔ v ∈ D := by
  rw [over_term]
  simp [Term.occurs]

theorem relabel_eq_var (hf : Set.InjOn f D) (ht : Over D t) (hv : v ∈ D) :
    t.relabel f = .var (f v) ↔ t = .var v := by
  have hinj := relabel_inj hf ht (over_var.2 hv)
  rwa [relabel_term, relabel_term, Term.relabel_var] at hinj

theorem occurs_relabel_iff (hf : Set.InjOn f D) (ht : Over D t) (hv : v ∈ D) :
    (t.relabel f).occurs (f v) = t.occurs v := by
  rw [Bool.eq_iff_iff, Term.occurs_relabel]
  constructor
  · rintro ⟨w, hw, hfw⟩
    rwa [← hf (over_term.1 ht w hw) hv hfw]
  · exact fun h => ⟨v, h, rfl⟩

theorem over_replaceIn (hu : Over D u) (ht : Over D t) : Over D (replaceIn v u t) := by
  rw [over_term] at hu ht ⊢
  intro w hw
  rcases occurs_replaceIn hw with ⟨hw, -⟩ | ⟨-, hw⟩
  · exact ht w hw
  · exact hu w hw

theorem relabel_replaceIn (hf : Set.InjOn f D) (ht : Over D t) (hv : v ∈ D) :
    (replaceIn v u t).relabel f = replaceIn (f v) (u.relabel f) (t.relabel f) := by
  unfold replaceIn
  rw [occurs_relabel_iff hf ht hv]
  split
  · rw [Term.replaceVars_eq, Term.replaceVars_eq, Term.relabel_instantiate, Term.instantiate_relabel]
    refine Term.instantiate_congr fun w hw => ?_
    have hw : w ∈ D := over_term.1 ht w hw
    by_cases hwv : w = v
    · simp [hwv]
    · have hne : f w ≠ f v := fun heq => hwv (hf hw hv heq)
      simp [hwv, hne, Term.relabel]
  · rfl

theorem Corresponds.extend {u' : Term} {hu hv hu' hv'} (h : Corresponds D f σ τ) (huD : Over D u)
    (hvD : v ∈ D) (heq : u' = u.relabel f) :
    Corresponds D f (σ.extend v u hu hv) (τ.extend (f v) u' hu' hv') where
  apart := h.apart
  closed x hx := by
    rw [valueOf_extend]
    split
    · exact huD
    · exact over_replaceIn huD (h.closed x hx)
  value x hx := by
    rw [valueOf_extend, valueOf_extend]
    by_cases hxv : x = v
    · rw [if_pos hxv, if_pos (congrArg f hxv), heq]
    · have hne : f x ≠ f v := fun heq => hxv (h.apart hx hvD heq)
      rw [if_neg hxv, if_neg hne, heq, h.value x hx, relabel_replaceIn h.apart (h.closed x hx) hvD]

theorem Corresponds.bindUnbound (h : Corresponds D f σ τ) (ht : Over D t) (hv : v ∈ D) :
    Option.Rel (Corresponds D f) (σ.bindUnbound v t).toOption
      (τ.bindUnbound (f v) (t.relabel f)).toOption := by
  have hu : Over D (σ.apply t) := h.over_apply ht
  have hvar := relabel_eq_var h.apart hu hv
  have hoccurs := occurs_relabel_iff h.apart hu hv
  have happly := h.apply_term ht
  unfold Substitution.bindUnbound
  dsimp only
  by_cases hself : σ.apply t = .var v
  · rw [if_pos hself, if_pos (happly.trans (hvar.2 hself))]
    exact .some h
  · rw [if_neg hself, if_neg (fun heq => hself (hvar.1 (happly.symm.trans heq)))]
    by_cases hcycle : (σ.apply t).occurs v = true
    · rw [dif_pos hcycle, dif_pos (by rw [happly, hoccurs, hcycle])]
      exact .none
    · rw [dif_neg hcycle, dif_neg (by rw [happly, hoccurs]; exact hcycle)]
      exact .some (h.extend hu hv happly)

/-! ## Unifying -/

namespace Demand

def relabel (f : Var → Var) : Demand → Demand
  | .equal s t => .equal (s.relabel f) (t.relabel f)
  | .refuse why => .refuse why

/-- The terms are over the given variables. -/
def Over (D : Set Var) : Demand → Prop
  | .equal s t => Horn.Over D s ∧ Horn.Over D t
  | .refuse _ => True

end Demand

theorem map_relabel_zipWith (f : Var → Var) (xs ys : List Term) :
    (List.zipWith Demand.equal xs ys).map (Demand.relabel f) =
      List.zipWith Demand.equal (xs.map (Term.relabel f)) (ys.map (Term.relabel f)) := by
  rw [List.map_zipWith, List.zipWith_map]
  rfl

theorem over_zipWith {xs ys : List Term} (hxs : ∀ t ∈ xs, Over D t) (hys : ∀ t ∈ ys, Over D t) :
    ∀ d ∈ List.zipWith Demand.equal xs ys, d.Over D := by
  intro d hd
  obtain ⟨i, hi, rfl⟩ := List.mem_iff_getElem.1 hd
  rw [List.getElem_zipWith]
  exact ⟨hxs _ (List.getElem_mem _), hys _ (List.getElem_mem _)⟩

theorem map_relabel_listDemands (f : Var → Var) (xs : List Term) (s : Option Term) (ys : List Term)
    (t : Option Term) : (listDemands xs s ys t).map (Demand.relabel f) =
      listDemands (xs.map (Term.relabel f)) (s.map (Term.relabel f)) (ys.map (Term.relabel f))
        (t.map (Term.relabel f)) := by
  have hnil : Term.emptyList.relabel f = Term.emptyList := Term.relabel_list f [] none
  unfold listDemands
  simp only [List.length_map, ← List.map_drop, ← Term.relabel_listOf, ← map_relabel_zipWith]
  split
  · cases s <;> cases t <;> simp [Demand.relabel, hnil]
  · split
    · cases s <;> simp [Demand.relabel, Term.relabel_listOf]
    · cases t <;> simp [Demand.relabel, Term.relabel_listOf]

theorem over_list {items : List Term} {tail : Option Term} :
    Over D (Term.list items tail) ↔ (∀ t ∈ items, Over D t) ∧ ∀ t ∈ tail, Over D t := by
  simp only [over_term, Term.occurs, Bool.or_eq_true, Term.occursAny_iff]
  constructor
  · refine fun h => ⟨fun t ht v hv => h v (.inl ⟨t, ht, hv⟩), fun t ht v hv => h v (.inr ?_)⟩
    rw [Option.mem_def.1 ht]
    exact hv
  · rintro ⟨hitems, htail⟩ v (⟨t, ht, hv⟩ | hv)
    · exact hitems t ht v hv
    · cases tail with
      | none => cases hv
      | some t => exact htail t rfl v hv

theorem over_compound {name : String} {args : List Term} :
    Over D (Term.compound name args) ↔ ∀ t ∈ args, Over D t := by
  simp only [over_term, Term.occurs, Term.occursAny_iff]
  exact ⟨fun h t ht v hv => h v ⟨t, ht, hv⟩, fun h v ⟨t, ht, hv⟩ => h t ht v hv⟩

theorem over_listOf {items : List Term} {tail : Option Term} :
    Over D (Term.listOf items tail) ↔ Over D (Term.list items tail) := by
  simp only [over_term, Term.occurs_listOf, Term.occurs]

theorem over_listDemands {xs ys : List Term} {s t : Option Term} (hs : Over D (Term.list xs s))
    (ht : Over D (Term.list ys t)) : ∀ d ∈ listDemands xs s ys t, d.Over D := by
  obtain ⟨hxs, hs⟩ := over_list.1 hs
  obtain ⟨hys, ht⟩ := over_list.1 ht
  have hshared := over_zipWith hxs hys
  have hmore : ∀ {d : Demand}, d.Over D → ∀ e ∈ List.zipWith Demand.equal xs ys ++ [d], e.Over D :=
    fun hd => List.forall_mem_append.2 ⟨hshared, List.forall_mem_singleton.2 hd⟩
  have hnil : Over D Term.emptyList := over_list.2 ⟨nofun, nofun⟩
  have hleft : Over D (Term.listOf (xs.drop ys.length) s) :=
    over_listOf.2 (over_list.2 ⟨fun u hu => hxs u (List.mem_of_mem_drop hu), hs⟩)
  have hright : Over D (Term.listOf (ys.drop xs.length) t) :=
    over_listOf.2 (over_list.2 ⟨fun u hu => hys u (List.mem_of_mem_drop hu), ht⟩)
  unfold listDemands
  dsimp only
  split
  · cases s <;> cases t
    · exact hshared
    · exact hmore ⟨hnil, ht _ rfl⟩
    · exact hmore ⟨hs _ rfl, hnil⟩
    · exact hmore ⟨hs _ rfl, ht _ rfl⟩
  · split
    · cases s
      · exact hmore trivial
      · exact hmore ⟨hs _ rfl, hright⟩
    · cases t
      · exact hmore trivial
      · exact hmore ⟨hleft, ht _ rfl⟩

/-- What a step leaves of both: corresponding substitutions, and the same demands on the labels. -/
structure Steps (D : Set Var) (f : Var → Var) (r r' : Substitution × List Demand) : Prop where
  corresponds : Corresponds D f r.1 r'.1
  demands : r'.2 = r.2.map (Demand.relabel f)
  within : ∀ d ∈ r.2, d.Over D

theorem Corresponds.stepResolved (h : Corresponds D f σ τ) (hs : Over D s) (ht : Over D t) :
    Option.Rel (Steps D f) (σ.stepResolved s t).toOption
      (τ.stepResolved (s.relabel f) (t.relabel f)).toOption := by
  have hnone : ∀ d ∈ ([] : List Demand), d.Over D := fun _ hd => absurd hd List.not_mem_nil
  have hbind : ∀ {v : Var} {u : Term}, v ∈ D → Over D u → Option.Rel (Steps D f)
      ((σ.bindUnbound v u).map fun τ => (τ, [])).toOption
      ((τ.bindUnbound (f v) (u.relabel f)).map fun τ => (τ, [])).toOption := by
    intro v u hv hu
    have hrel := h.bindUnbound hu hv
    cases hσ : σ.bindUnbound v u <;> cases hτ : τ.bindUnbound (f v) (u.relabel f) <;>
      rw [hσ, hτ] at hrel <;> cases hrel
    · exact .none
    · rename_i hrel
      exact .some ⟨hrel, rfl, hnone⟩
  have hkeep : ∀ {new : List Demand} {new' : List Demand}, new' = new.map (Demand.relabel f) →
      (∀ d ∈ new, d.Over D) → Option.Rel (Steps D f)
        (Except.ok (σ, new) : Except UnifyFailure _).toOption
        (Except.ok (τ, new') : Except UnifyFailure _).toOption :=
    fun hnew hover => .some ⟨h, hnew, hover⟩
  -- the right side is looked at first: a variable there is bound whatever the left side is
  cases t with
  | var y => exact hbind (over_var.1 ht) hs
  | const b =>
    cases s with
    | var x => exact hbind (over_var.1 hs) ht
    | const a =>
      simp only [Substitution.stepResolved, Term.relabel]
      split
      · exact hkeep rfl hnone
      · exact .none
    | _ => exact .none
  | compound g ys =>
    cases s with
    | var x => exact hbind (over_var.1 hs) ht
    | compound g' xs =>
      simp only [Term.relabel_compound, Substitution.stepResolved, List.length_map]
      split
      · exact .none
      · split
        · exact .none
        · exact hkeep (map_relabel_zipWith f xs ys).symm
            (over_zipWith (over_compound.1 hs) (over_compound.1 ht))
    | _ => exact .none
  | list ys t =>
    cases s with
    | var x => exact hbind (over_var.1 hs) ht
    | list xs s =>
      rw [Term.relabel_list, Term.relabel_list]
      exact hkeep (map_relabel_listDemands f xs s ys t).symm (over_listDemands hs ht)
    | _ => exact .none
  | placeholder q =>
    cases s with
    | var x => exact hbind (over_var.1 hs) ht
    | placeholder p =>
      simp only [Substitution.stepResolved, Term.relabel]
      split
      · exact hkeep rfl hnone
      · exact .none
    | _ => exact .none

theorem Corresponds.step (h : Corresponds D f σ τ) (hs : Over D s) (ht : Over D t) :
    Option.Rel (Steps D f) (σ.step s t).toOption (τ.step (s.relabel f) (t.relabel f)).toOption := by
  obtain ⟨hsσ, hsD⟩ := h.resolve hs
  obtain ⟨htσ, htD⟩ := h.resolve ht
  rw [Substitution.step, Substitution.step, hsσ, htσ]
  exact h.stepResolved hsD htD

/-- Demands are met by both or by neither. -/
theorem Corresponds.solve {demands : List Demand} (h : Corresponds D f σ τ)
    (hd : ∀ d ∈ demands, d.Over D) :
    Option.Rel (Corresponds D f) (σ.solve demands).toOption
      (τ.solve (demands.map (Demand.relabel f))).toOption := by
  fun_induction Substitution.solve σ demands generalizing τ with
  | case1 σ =>
    rw [List.map_nil, Substitution.solve]
    exact .some h
  | case2 σ why rest =>
    rw [List.map_cons, Demand.relabel, Substitution.solve]
    exact .none
  | case3 σ s t rest why hstep =>
    obtain ⟨hfirst, hrest⟩ := List.forall_mem_cons.1 hd
    have hrel := h.step hfirst.1 hfirst.2
    rw [hstep] at hrel
    rw [List.map_cons, Demand.relabel, Substitution.solve]
    split
    · exact .none
    · rename_i hτ
      rw [hτ] at hrel
      cases hrel
  | case4 σ s t rest ρ new hstep ih =>
    obtain ⟨hfirst, hrest⟩ := List.forall_mem_cons.1 hd
    have hrel := h.step hfirst.1 hfirst.2
    rw [hstep] at hrel
    rw [List.map_cons, Demand.relabel, Substitution.solve]
    split
    · rename_i hτ
      rw [hτ] at hrel
      cases hrel
    · rename_i ρ' new' hτ
      rw [hτ] at hrel
      cases hrel with
      | some hsteps =>
        obtain ⟨hρ, rfl, hnew⟩ := hsteps
        have hboth := ih hρ (List.forall_mem_append.2 ⟨hnew, hrest⟩)
        rwa [List.map_append] at hboth

theorem Corresponds.unify (h : Corresponds D f σ τ) (hs : Over D s) (ht : Over D t) :
    Option.Rel (Corresponds D f) (σ.unify s t).toOption
      (τ.unify (s.relabel f) (t.relabel f)).toOption :=
  h.solve (List.forall_mem_singleton.2 ⟨hs, ht⟩)

theorem over_args {p : Predicate} : Over D p ↔ ∀ t ∈ p.args, Over D t := by
  show (∀ v, Term.var v ∈ p.args.flatMap HasTerms.subterms → v ∈ D) ↔ _
  simp only [List.mem_flatMap]
  exact ⟨fun h t ht v hv => h v ⟨t, ht, hv⟩, fun h v ⟨t, ht, hv⟩ => h t ht v hv⟩

theorem Corresponds.unifyPredicates {p q : Predicate} (h : Corresponds D f σ τ) (hp : Over D p)
    (hq : Over D q) : Option.Rel (Corresponds D f) (σ.unifyPredicates p q).toOption
      (τ.unifyPredicates (relabel f p) (relabel f q)).toOption := by
  rw [Predicate.relabel_eq, Predicate.relabel_eq]
  have hsame : predicateDemands ⟨p.name, p.args.map (Term.relabel f)⟩
      ⟨q.name, q.args.map (Term.relabel f)⟩ = (predicateDemands p q).map (Demand.relabel f) := by
    simp only [predicateDemands, List.length_map]
    split
    · rfl
    · split
      · rfl
      · exact (map_relabel_zipWith f p.args q.args).symm
  have hover : ∀ d ∈ predicateDemands p q, d.Over D := by
    unfold predicateDemands
    split
    · exact List.forall_mem_singleton.2 trivial
    · split
      · exact List.forall_mem_singleton.2 trivial
      · exact over_zipWith (over_args.1 hp) (over_args.1 hq)
  have hboth := h.solve hover
  rwa [← hsame] at hboth

end
end Substitution

/-! ## Comparing -/

/-- The operators that compare texts.  They alone can tell variables apart by their names. -/
def CompareOp.isOrder : CompareOp → Bool
  | .before | .beforeEq | .after | .afterEq => true
  | _ => false

theorem Number.ofTerm?_relabel (f : Var → Var) (t : Term) : ofTerm? (t.relabel f) = ofTerm? t := by
  cases t <;> rfl

theorem Number.relabel_toTerm (f : Var → Var) (a : Number) : a.toTerm.relabel f = a.toTerm := by
  cases a <;> rfl

theorem Number.over_toTerm (D : Set Var) (a : Number) : Over D a.toTerm := by
  rw [over_term]
  cases a <;> exact nofun

theorem Expr.asTerm_eq_some {e : Expr} {t : Term} : e.asTerm = some t ↔ e = .term t := by
  cases e <;> simp [asTerm]

theorem Expr.asTerm_relabel (f : Var → Var) (e : Expr) :
    (relabel f e).asTerm = e.asTerm.map (Term.relabel f) := by
  cases e with
  | term t => exact congrArg some (relabel_term f t)
  | _ => rfl

namespace Substitution.Corresponds

variable {D : Set Var} {f : Var → Var} {σ τ : Substitution}

theorem value? {e : Expr} (h : Corresponds D f σ τ) (he : Over D e) :
    (relabel f e).value? τ = e.value? σ := by
  induction e with
  | term t =>
    show Number.ofTerm? (τ.apply (relabel f t)) = Number.ofTerm? (σ.apply t)
    rw [relabel_term, h.apply_term he, Number.ofTerm?_relabel]
  | binary op l r ihl ihr =>
    have hl := ihl fun v hv => he v (List.mem_append_left _ hv)
    have hr := ihr fun v hv => he v (List.mem_append_right _ hv)
    show (do Number.binary? op (← (relabel f l).value? τ) (← (relabel f r).value? τ)) = _
    rw [hl, hr]
    rfl
  | neg e ih => exact congrArg (·.bind Number.neg?) (ih he)
  | call m e ih => exact congrArg (·.bind (Number.call? m)) (ih he)

theorem ite {p q : Prop} [Decidable p] [Decidable q] (h : Corresponds D f σ τ) (hpq : p ↔ q) :
    Option.Rel (Corresponds D f) (if p then some σ else none) (if q then some τ else none) := by
  by_cases hp : p
  · rw [if_pos hp, if_pos (hpq.1 hp)]
    exact .some h
  · rw [if_neg hp, if_neg (hpq.not.1 hp)]
    exact .none

theorem evaluated? {c : Comparison} (h : Corresponds D f σ τ) (hl : Over D c.left)
    (hr : Over D c.right) :
    Option.Rel (Corresponds D f) (c.evaluated? σ) ((relabel f c).evaluated? τ) := by
  have hleft : (relabel f c).left.asTerm = c.left.asTerm.map (Term.relabel f) :=
    Expr.asTerm_relabel f c.left
  have hright : (relabel f c).right.value? τ = c.right.value? σ := h.value? hr
  unfold Comparison.evaluated?
  rw [hleft, hright]
  cases htarget : c.left.asTerm with
  | none => exact .none
  | some target =>
    have htargetD : Over D target := by
      rwa [Expr.asTerm_eq_some.1 htarget] at hl
    cases c.right.value? σ with
    | none => exact .none
    | some value =>
      simp only [Option.map_some, Option.bind_eq_bind, Option.bind_some]
      rw [h.apply_term htargetD, Number.ofTerm?_relabel]
      cases Number.ofTerm? (σ.apply target) with
      | some a => exact h.ite Iff.rfl
      | none =>
        have hboth := h.unify (h.over_apply htargetD) (Number.over_toTerm D value)
        rwa [Number.relabel_toTerm] at hboth

theorem structural? {op : CompareOp} {s t : Term} (h : Corresponds D f σ τ)
    (hkind : op.kind = .unification) (hop : op.isOrder = false) (hs : Over D s) (ht : Over D t) :
    Option.Rel (Corresponds D f) (Comparison.structural? op s t σ)
      (Comparison.structural? op (s.relabel f) (t.relabel f) τ) := by
  have hunify := h.unify hs ht
  have hsame : σ.apply s = σ.apply t ↔ τ.apply (s.relabel f) = τ.apply (t.relabel f) := by
    have hinj := relabel_inj h.apart (h.over_apply hs) (h.over_apply ht)
    rw [relabel_term, relabel_term] at hinj
    rw [h.apply_term hs, h.apply_term ht, hinj]
  have hfails : (σ.unify s t).toOption.isNone = true ↔
      (τ.unify (s.relabel f) (t.relabel f)).toOption.isNone = true := by
    revert hunify
    generalize (σ.unify s t).toOption = a
    generalize (τ.unify (s.relabel f) (t.relabel f)).toOption = b
    rintro (_ | _) <;> simp
  cases op with
  | unify => exact hunify
  | notUnify => exact h.ite hfails
  | identical => exact h.ite hsame
  | notIdentical => exact h.ite hsame.not
  | before | beforeEq | after | afterEq => cases hop
  | _ => cases hkind

/-- A comparison that does not ask for the standard order holds for both or for neither. -/
theorem solution? {c : Comparison} (h : Corresponds D f σ τ) (hc : Over D c)
    (hop : c.op.isOrder = false) :
    Option.Rel (Corresponds D f) (c.solution? σ) ((relabel f c).solution? τ) := by
  obtain ⟨op, l, r⟩ := c
  have hl : Over D l := fun v hv => hc v (List.mem_append_left _ hv)
  have hr : Over D r := fun v hv => hc v (List.mem_append_right _ hv)
  show Option.Rel (Corresponds D f) (Comparison.solution? ⟨op, l, r⟩ σ)
    (Comparison.solution? ⟨op, relabel f l, relabel f r⟩ τ)
  unfold Comparison.solution?
  dsimp only
  split
  · refine h.ite ?_
    unfold Comparison.holdsArithmetic
    dsimp only
    rw [h.value? hl, h.value? hr]
  · exact h.evaluated? hl hr
  · rename_i hkind
    rw [Expr.asTerm_relabel, Expr.asTerm_relabel]
    cases hs : l.asTerm with
    | none => exact .none
    | some s =>
      cases ht : r.asTerm with
      | none => exact .none
      | some t =>
        rw [Expr.asTerm_eq_some.1 hs] at hl
        rw [Expr.asTerm_eq_some.1 ht] at hr
        exact h.structural? hkind hop hl hr

end Substitution.Corresponds
end Horn
