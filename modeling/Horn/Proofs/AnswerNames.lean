import Horn.Proofs.RenamingApart
import Horn.Proofs.VariantSearch

/-!
The names of variables in answers.  A search meets the variables of its goal and the images of the
clauses that it renames apart.  Unifying and comparing put no other variables into values.  Only the
goal can bring two variables with one text, for every image has a text that nothing had before it.
So an answer can be read off its printed form: where two different variables look the same, both are
the goal's own.
-/

namespace Horn

theorem over_cons {α : Type} [HasTerms α] {D : Set Var} {x : α} {xs : List α} :
    Over D (x :: xs) ↔ Over D x ∧ Over D xs := by
  simp only [Over, ← forall_and, ← or_imp]
  exact forall_congr' fun v => imp_congr_left List.mem_append

theorem over_append {α : Type} [HasTerms α] {D : Set Var} {xs ys : List α} :
    Over D (xs ++ ys) ↔ Over D xs ∧ Over D ys := by
  induction xs with
  | nil => exact ⟨fun h => ⟨fun _ hv => absurd hv List.not_mem_nil, h⟩, And.right⟩
  | cons x xs ih => rw [List.cons_append, over_cons, over_cons, ih, and_assoc]

/-! ## Bindings -/

namespace Substitution

/-- The variables `D` are in use and the values of these mention no others.  Of two different ones with
the same text both are among the given variables. -/
structure Distinguishes (vs : List Var) (D : Set Var) (σ : Substitution) : Prop where
  reachable : σ.Reachable
  given : ∀ v ∈ vs, v ∈ D
  closed : ∀ v ∈ D, Over D (σ.valueOf v)
  known : ∀ v ∈ D, v.text ∈ σ.names
  apart : ∀ v ∈ D, ∀ w ∈ D, v ≠ w → v.text = w.text → v ∈ vs ∧ w ∈ vs

section

variable {vs : List Var} {D : Set Var} {σ τ : Substitution}

theorem distinguishes_start (g : Goal) :
    (empty.addVariables g).Distinguishes («variables» g) { v | v ∈ «variables» g } where
  reachable := .addVariables g .empty
  given _ hv := hv
  closed v hv := by
    have hfree : (empty.addVariables g).valueOf v = .var v := valueOf_of_unbound (by
      show (∅ : Std.TreeMap Var Term)[v]? = none
      simp)
    rw [hfree]
    exact over_var.2 hv
  known v hv := knows_addVariables empty g v (mem_variables_iff.1 hv)
  apart _ hv _ hw _ _ := ⟨hv, hw⟩

/-- The bindings correspond to themselves, so what is known of two that correspond applies. -/
theorem Distinguishes.corresponds (h : σ.Distinguishes vs D) : Corresponds D id σ σ where
  apart := Set.injOn_id D
  closed := h.closed
  value _ _ := (Term.relabel_id _).symm

theorem Distinguishes.over_apply {α : Type} [HasTerms α] [LawfulTerms α]
    (h : σ.Distinguishes vs D) {x : α} (hx : Over D x) : Over D (σ.apply x) :=
  h.corresponds.over_apply hx

theorem Distinguishes.advance (h : σ.Distinguishes vs D) (hc : Corresponds D id τ τ)
    (hτ : σ.Advances τ) : τ.Distinguishes vs D where
  reachable := hτ.reachable
  given := h.given
  closed := hc.closed
  known v hv := hτ.keeps _ (h.known v hv)
  apart := h.apart

/-- Unifying forms over the variables leads to no others. -/
theorem Distinguishes.solve (h : σ.Distinguishes vs D) {demands : List Demand}
    (hd : ∀ d ∈ demands, d.Over D) (hs : σ.solve demands = .ok τ) (hτ : τ.Reachable) :
    τ.Distinguishes vs D := by
  have hself : demands.map (Demand.relabel id) = demands := by
    refine (List.map_congr_left fun d _ => ?_).trans (List.map_id demands)
    cases d with
    | equal s t => rw [Demand.relabel, Term.relabel_id, Term.relabel_id, id]
    | refuse why => rfl
  have hrel := h.corresponds.solve hd
  rw [hself, hs] at hrel
  cases hrel with
  | some hc => exact h.advance hc (advances_of_solve h.reachable hτ hs)

theorem Distinguishes.unifyPredicates (h : σ.Distinguishes vs D) {p q : Predicate} (hp : Over D p)
    (hq : Over D q) (hu : σ.unifyPredicates p q = .ok τ) : τ.Distinguishes vs D := by
  have hrel := h.corresponds.unifyPredicates hp hq
  rw [relabel_id, relabel_id, hu] at hrel
  cases hrel with
  | some hc => exact h.advance hc (h.reachable.advances_unifyPredicates hu)

theorem Distinguishes.solution? (h : σ.Distinguishes vs D) {c : Comparison} (hc : Over D c)
    (hτ : c.solution? σ = some τ) : τ.Distinguishes vs D := by
  have hside : ∀ {e : Expr} {t : Term}, e.asTerm = some t → Over D e → Over D t := by
    intro e t ht he
    rwa [Expr.asTerm_eq_some.1 ht] at he
  have hl : Over D c.left := fun v hv => hc v (List.mem_append_left _ hv)
  have hr : Over D c.right := fun v hv => hc v (List.mem_append_right _ hv)
  obtain rfl | ⟨target, s, t, hunify, htarget, hsides⟩ := Comparison.solution?_cases hτ
  · exact h
  · have hover : Over D s ∧ Over D t := by
      rcases hsides with ⟨rfl, ht⟩ | ⟨rfl, a, rfl⟩
      · exact ⟨hside htarget hl, hside ht hr⟩
      · exact ⟨h.over_apply (hside htarget hl), Number.over_toTerm D a⟩
    have hdemands : ∀ d ∈ [Demand.equal s t], d.Over D := List.forall_mem_singleton.2 hover
    exact h.solve hdemands hunify (.unify h.reachable hunify)

/-- The images of a clause join the variables in use. -/
theorem Distinguishes.rename (h : σ.Distinguishes vs D) (c : Clause) :
    (σ.rename [] c).2.2.Distinguishes vs (D ∪ images (σ.rename [] c).2.1 c) := by
  obtain ⟨hrenamed, -⟩ := (renamed_nil σ).rename c
  have hadvances := h.reachable.advances_rename c
  have hvalue : ∀ v, (σ.rename [] c).2.2.valueOf v = σ.valueOf v :=
    valueOf_congr (bindings_rename σ [] c)
  have hpair : ∀ u ∈ images (σ.rename [] c).2.1 c, ∃ v, (v, u) ∈ (σ.rename [] c).2.1 ∧
      (σ.rename [] c).2.1.lookup v = some u := by
    rintro u ⟨v, -, hu⟩
    exact ⟨v, mem_of_lookup_eq_some hu, hu⟩
  have hnew : ∀ u ∈ images (σ.rename [] c).2.1 c, u.text ∉ σ.names := by
    intro u hu
    obtain ⟨v, hmem, -⟩ := hpair u hu
    exact hrenamed.apart.unused _ hmem
  refine ⟨hadvances.reachable, fun v hv => .inl (h.given v hv), ?_, ?_, ?_⟩
  · rintro v (hv | hv)
    · rw [hvalue]
      exact (h.closed v hv).mono Set.subset_union_left
    · rw [hvalue, h.reachable.isClosed.isScoped.valueOf_of_not_mem (hnew v hv)]
      exact over_var.2 (.inr hv)
  · rintro v (hv | hv)
    · exact hadvances.keeps _ (h.known v hv)
    · obtain ⟨u, hmem, -⟩ := hpair v hv
      exact hrenamed.apart.known _ hmem
  · rintro v (hv | hv) w (hw | hw) hne htext
    · exact h.apart v hv w hw hne htext
    · exact absurd (htext ▸ h.known v hv) (hnew w hw)
    · exact absurd (htext ▸ h.known w hw) (hnew v hv)
    · -- images with one text are images of one variable
      obtain ⟨x, hx, hlookup⟩ := hpair v hv
      obtain ⟨y, hy, hlookup'⟩ := hpair w hw
      obtain rfl : x = y := hrenamed.distinct _ hx _ hy htext
      exact absurd (Option.some.inj (hlookup.symm.trans hlookup')) hne

end
end Substitution

/-! ## Branches -/

/-- What a branch has yet to do is over variables that its bindings distinguish. -/
inductive Branch.IsDistinct (vs : List Var) : Branch → Prop where
  | goal {D : Set Var} {todo : List Literal} {σ : Substitution} (h : σ.Distinguishes vs D)
      (htodo : Over D todo) : IsDistinct vs (.goal todo σ)
  | call {D : Set Var} {p : Predicate} {clauses : List Clause} {todo : List Literal}
      {σ : Substitution} (h : σ.Distinguishes vs D) (hp : Over D p) (htodo : Over D todo) :
    IsDistinct vs (.call p clauses todo σ)

section

variable {vs : List Var} {D : Set Var} {σ : Substitution} {p : Predicate} {c : Clause}
  {clauses : List Clause} {todo : List Literal}

theorem Branch.IsDistinct.call_cases (h : (Branch.call p clauses todo σ).IsDistinct vs) :
    ∃ D, σ.Distinguishes vs D ∧ Over D p ∧ Over D todo := by
  cases h with
  | call h hp htodo => exact ⟨_, h, hp, htodo⟩

theorem Branch.IsDistinct.goal_cases (h : (Branch.goal todo σ).IsDistinct vs) :
    ∃ D, σ.Distinguishes vs D ∧ Over D todo := by
  cases h with
  | goal h htodo => exact ⟨_, h, htodo⟩

theorem Branch.IsDistinct.atom_cases {a : Atom} (h : (Branch.goal (.atom a :: todo) σ).IsDistinct vs) :
    ∃ D, σ.Distinguishes vs D ∧ Over D (σ.apply a) ∧ Over D todo := by
  obtain ⟨D, hσ, hover⟩ := h.goal_cases
  obtain ⟨ha, htodo⟩ := over_cons.1 hover
  exact ⟨D, hσ, hσ.over_apply (x := a) ha, htodo⟩

/-- One resolution step: the clause brings its images, and unifying its head with the call nothing. -/
theorem Substitution.Distinguishes.resolve? (h : σ.Distinguishes vs D) (hp : Over D p)
    (htodo : Over D todo) {b : Branch} (hb : Branch.resolve? p c todo σ = some b) :
    b.IsDistinct vs := by
  have hclause : Over (images (σ.rename [] c).2.1 c) (σ.rename [] c).1 :=
    over_rename (isApart_rename σ c).2
  have hrenamed := h.rename c
  obtain ⟨head, τ, hhead, hunify, rfl⟩ := Branch.resolve?_eq_some_iff.1 hb
  have hover := hclause.mono (Set.subset_union_right (s := D))
  refine .goal (hrenamed.unifyPredicates (hp.mono Set.subset_union_left)
    (Clause.over_headPredicate hover hhead) hunify) (over_append.2 ⟨?_, ?_⟩)
  · exact Clause.over_bodyGoal hover
  · exact htodo.mono Set.subset_union_left

end

/-! ## Searches -/

namespace Search

/-- On the way to an answer variables stay told apart. -/
theorem kept_distinct (lookup : Lookup) (vs : List Var) :
    Kept lookup (Branch.IsDistinct vs) fun σ => ∃ D, σ.Distinguishes vs D where
  answer h := by
    obtain ⟨D, hσ, -⟩ := h.goal_cases
    exact ⟨D, hσ⟩
  skip h := by
    obtain ⟨D, hσ, hp, htodo⟩ := h.call_cases
    exact .call hσ hp htodo
  resolve h hb := by
    obtain ⟨D, hσ, hp, htodo⟩ := h.call_cases
    exact hσ.resolve? hp htodo hb
  compare h hc hτ := by
    obtain ⟨D, hσ, ha, htodo⟩ := h.atom_cases
    exact .goal (hσ.solution? (show Over D (Atom.compare _) from hc ▸ ha) hτ) htodo
  builtin h _ _ := by
    obtain ⟨D, hσ, -, htodo⟩ := h.atom_cases
    exact .goal hσ htodo
  call h hp _ := by
    obtain ⟨D, hσ, ha, htodo⟩ := h.atom_cases
    exact .call hσ (show Over D (Atom.predicate _) from hp ▸ ha) htodo
  negation h := by
    obtain ⟨D, hσ, hover⟩ := h.goal_cases
    exact .goal hσ (over_cons.1 hover).2

end Search

/-- An answer binds only variables of the goal, and two of the variables that it shows have one text
only if both are the goal's own. -/
theorem Goal.names_of_mem_answersFrom {g : Goal} {lookup : Lookup} {steps : Nat} {most : Option Nat}
    {τ : Substitution} (h : τ ∈ (g.answersFrom lookup steps Substitution.empty most).1) :
    let shown := { v | v ∈ «variables» g ∨ ∃ w t, τ.lookup w = some t ∧ t.occurs v = true }
    (∀ v t, τ.lookup v = some t → v ∈ «variables» g) ∧
      ∀ v ∈ shown, ∀ w ∈ shown, v ≠ w →
        v.text ≠ w.text ∨ v ∈ «variables» g ∧ w ∈ «variables» g := by
  intro shown
  have hstart : ∀ b ∈ (Search.start g Substitution.empty steps).branches,
      b.IsDistinct («variables» g) :=
    List.forall_mem_singleton.2
      (.goal (Substitution.distinguishes_start g) fun v hv => mem_variables_iff.2 hv)
  have hanswer : ∃ (ρ : Substitution) (D : Set Var), ρ.Distinguishes («variables» g) D ∧
      ρ.restrict («variables» g) = τ := by
    unfold answersFrom at h
    cases most with
    | none =>
      obtain ⟨ρ, hρ, heq⟩ := List.mem_map.1 h
      obtain ⟨D, hD⟩ := Search.forall_rest (Search.kept_distinct lookup _).next hstart ρ hρ
      exact ⟨ρ, D, hD, heq⟩
    | some n =>
      obtain ⟨ρ, hρ, heq⟩ := List.mem_map.1 h
      obtain ⟨D, hD⟩ := Search.forall_take (Search.kept_distinct lookup _).next n hstart ρ hρ
      exact ⟨ρ, D, hD, heq⟩
  obtain ⟨ρ, D, hρ, rfl⟩ := hanswer
  have hshown : ∀ v ∈ shown, v ∈ D := by
    rintro v (hv | ⟨w, t, hw, hv⟩)
    · exact hρ.given v hv
    · rw [Substitution.lookup_restrict] at hw
      obtain ⟨hmem, hw⟩ := Option.ite_none_right_eq_some.1 hw
      have hvalue : ρ.valueOf w = t := by
        show (ρ.lookup w).getD (.var w) = t
        rw [hw, Option.getD_some]
      have hover : Over D t := hvalue ▸ hρ.closed w (hρ.given w hmem)
      exact over_term.1 hover v hv
  refine ⟨fun v t hv => Substitution.mem_of_restrictedBindings hv, fun v hv w hw hne => ?_⟩
  by_cases htext : v.text = w.text
  · exact .inr (hρ.apart v (hshown v hv) w (hshown w hw) hne htext)
  · exact .inl htext

/-- Asked for `p(Y)`, the fact `p(f(Y))` answers that `Y` is `f(Y1)`. -/
theorem Goal.names_of_fact :
    let fact : Clause := .fact (.predicate ⟨"p", [.compound "f" [.var (.named "Y")]]⟩)
    let goal : Goal := [.atom (.predicate ⟨"p", [.var (.named "Y")]⟩)]
    ∃ τ ∈ (goal.answersFrom (Knowledge.ofClauses [fact]).lookup 1 Substitution.empty none).1,
      τ.lookup (.named "Y") = some (.compound "f" [.var ⟨"Y", 1⟩]) ∧
      Var.text ⟨"Y", 1⟩ ≠ (Var.named "Y").text := by
  intro fact goal
  let y : Var := .named "Y"
  let call : Predicate := ⟨"p", [.var y]⟩
  let σ := Substitution.empty.addVariables goal
  let σ' := (σ.rename [] fact).2.2
  let value : Term := .compound "f" [.var ⟨"Y", 1⟩]
  have hvalue : ((σ'.bindUnbound y value).toOption.bind fun ρ => ρ.lookup y) = some value := by
    decide +kernel
  obtain ⟨ρ, hbind, hy⟩ := Option.bind_eq_some_iff.1 hvalue
  have hstep : σ'.step (.var y) value = .ok (ρ, []) := by
    have hresolve : σ'.resolve (.var y) = .var y := by decide +kernel
    show σ'.stepResolved (σ'.resolve (.var y)) value = _
    rw [hresolve]
    show (σ'.bindUnbound y value).map (fun τ => (τ, [])) = _
    cases hb : σ'.bindUnbound y value with
    | error why =>
      rw [hb] at hbind
      cases hbind
    | ok τ =>
      rw [hb] at hbind
      obtain rfl := Option.some.inj hbind
      rfl
  have hrenamed : (σ.rename [] fact).1 = .fact (.predicate ⟨"p", [value]⟩) := by decide +kernel
  have hunify : σ'.unifyPredicates call ⟨"p", [value]⟩ = .ok ρ :=
    (Substitution.solve_equal hstep []).trans (by rw [List.append_nil, Substitution.solve])
  have hresolve : Branch.resolve? call fact [] σ = some (.goal [] ρ) := by
    refine Branch.resolve?_eq_some_iff.2 ⟨⟨"p", [value]⟩, ρ, ?_, hunify, ?_⟩ <;> rw [hrenamed] <;> rfl
  have hrest : Search.rest (Knowledge.ofClauses [fact]).lookup ⟨[.goal goal σ], 0 + 1, false⟩ =
      ([ρ], ⟨[], 0, false⟩) := Search.rest_of_fact rfl rfl rfl hresolve
  have hmem : ρ.restrict («variables» goal) ∈
      (goal.answersFrom (Knowledge.ofClauses [fact]).lookup 1 Substitution.empty none).1 := by
    show _ ∈ goal.restricted (Search.rest _ ⟨[.goal goal σ], 0 + 1, false⟩).1
    rw [hrest]
    exact List.mem_singleton_self _
  have hlookup : (ρ.restrict («variables» goal)).lookup y = some value := by
    rw [Substitution.lookup_restrict, if_pos (by decide), hy]
  refine ⟨_, hmem, hlookup, ?_⟩
  have hnew : (⟨"Y", 1⟩ : Var) ∉ «variables» goal := by decide
  have hapart := (names_of_mem_answersFrom hmem).2 ⟨"Y", 1⟩ (.inr ⟨y, value, hlookup, by decide⟩) y
    (.inl (by decide)) (by decide)
  exact hapart.resolve_right fun hboth => hnew hboth.1

end Horn
