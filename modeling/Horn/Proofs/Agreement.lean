import Horn.Proofs.Correspondence
import Horn.Proofs.Domains
import Horn.Proofs.SearchBindings

/-!
The bindings of two searches that go the same way.  The variables that the first has met correspond to
variables of the second, and each clause renamed apart adds pairs of fresh variables to this
correspondence.  The variables of the goal correspond to themselves, so in the end the values of these
are the same but for the names of other variables.
-/

namespace Horn
namespace Substitution

/-! ## Variants -/

/-- The second is the first with other variables, one to one, in the values; the given variables are
kept. -/
def IsVariant (vs : List Var) (σ τ : Substitution) : Prop :=
  ∃ f : Var → Var, (∀ v ∈ vs, f v = v) ∧
    Set.InjOn f { v | v ∈ vs ∨ ∃ w t, σ.lookup w = some t ∧ t.occurs v = true } ∧
    ∀ v, τ.lookup v = (σ.lookup v).map (Term.relabel f)

section

variable {σ τ : Substitution} {v : Var} {vs : List Var}

/-- A bound variable has another value than itself. -/
theorem lookup_eq (σ : Substitution) (v : Var) :
    σ.lookup v = if σ.valueOf v = .var v then none else some (σ.valueOf v) := by
  unfold lookup valueOf
  cases hv : σ.bindings[v]? with
  | none => exact (if_pos rfl).symm
  | some t =>
    have hne : t ≠ .var v := by
      rintro rfl
      have hfree := σ.compressed v _ hv v (by simp [Term.occurs])
      rw [hv] at hfree
      cases hfree
    exact (if_neg hne).symm

/-- The values of the given variables are the same but for the names of variables. -/
theorem IsVariant.apply (h : σ.IsVariant vs τ) :
    ∃ f : Var → Var, ∀ v ∈ vs, τ.apply (Term.var v) = Term.relabel f (σ.apply (Term.var v)) := by
  obtain ⟨f, hkept, -, hlookup⟩ := h
  have hvalue : ∀ (ρ : Substitution) v, ρ.apply (Term.var v) = (ρ.lookup v).getD (.var v) :=
    fun ρ v => rfl
  refine ⟨f, fun v hv => ?_⟩
  rw [hvalue, hvalue, hlookup]
  cases σ.lookup v with
  | none => exact congrArg Term.var (hkept v hv).symm
  | some t => rfl

theorem lookup_restrict (σ : Substitution) (vs : List Var) (v : Var) :
    (σ.restrict vs).lookup v = if v ∈ vs then σ.lookup v else none := by
  by_cases hv : v ∈ vs
  · rw [if_pos hv, lookup_eq, lookup_eq, valueOf_restrict hv]
  · rw [if_neg hv]
    cases h : (σ.restrict vs).lookup v with
    | none => rfl
    | some t => exact absurd (mem_of_restrictedBindings h) hv

/-! ## What a search does to its bindings -/

theorem IsClosed.isScoped (h : σ.IsClosed) : σ.IsScoped where
  bound v t hv := (h.named _).2 ⟨v, h.bound v t hv, rfl⟩
  values v t hv w hw := (h.named _).2 ⟨w, h.values v t hv w ((Term.var_mem_subterms w t).1 hw), rfl⟩

/-- The second is made from the first: it knows the same names and more, and what the first does to a
form it does as well. -/
structure Advances (σ τ : Substitution) : Prop where
  reachable : τ.Reachable
  keeps : σ.Keeps τ
  absorbs : ∀ v, τ.apply (σ.valueOf v) = τ.valueOf v

theorem Advances.apply {α : Type} [HasTerms α] [LawfulTerms α] (h : σ.Advances τ) (x : α) :
    τ.apply (σ.apply x) = τ.apply x := by
  have hrespects : (τ.valuation h.reachable.isNormal).Respects σ := fun v =>
    (valuation_apply h.reachable.isNormal _).trans (h.absorbs v)
  have happly := hrespects.apply x
  rwa [valuation_apply, valuation_apply] at happly

theorem apply_congr {α : Type} [HasTerms α] (h : τ.bindings = σ.bindings) (x : α) :
    τ.apply x = σ.apply x := by
  rw [apply, apply, h]

theorem advances_of_bindings (hτ : τ.Reachable) (hkeeps : σ.Keeps τ) (h : τ.bindings = σ.bindings) :
    σ.Advances τ := by
  refine ⟨hτ, hkeeps, fun v => ?_⟩
  rw [← valueOf_congr h]
  exact apply_valueOf hτ.isNormal v

theorem Reachable.advances (h : σ.Reachable) : σ.Advances σ :=
  advances_of_bindings h (.refl σ) rfl

theorem Reachable.advances_addVariables {α : Type} [HasTerms α] (h : σ.Reachable) (x : α) :
    σ.Advances (σ.addVariables x) :=
  advances_of_bindings (.addVariables x h) (keeps_addVariables σ x) rfl

theorem Reachable.advances_rename {α : Type} [HasTerms α] (h : σ.Reachable) (x : α) :
    σ.Advances (σ.rename [] x).2.2 :=
  advances_of_bindings (.rename [] x h) (isApart_rename σ x).1.keeps (bindings_rename σ [] x)

theorem advances_of_solve {demands : List Demand} (h : σ.Reachable) (hτ : τ.Reachable)
    (hs : σ.solve demands = .ok τ) : σ.Advances τ where
  reachable := hτ
  keeps := (h.isClosed.isScoped.solve hs).2
  absorbs v := by
    have hrespects := ((respects_of_solve hs).1 (valuation_respects hτ.isNormal)).1
    have hv := hrespects v
    rwa [valuation_apply] at hv

theorem Reachable.advances_unifyPredicates {p q : Predicate} (h : σ.Reachable)
    (hu : σ.unifyPredicates p q = .ok τ) : σ.Advances τ :=
  advances_of_solve h (.unifyAtoms (a := .predicate p) (b := .predicate q) h hu) hu

theorem Reachable.advances_solution? {c : Comparison} (h : σ.Reachable)
    (hτ : c.solution? σ = some τ) : σ.Advances τ := by
  obtain rfl | ⟨-, s, t, hunify, -⟩ := Comparison.solution?_cases hτ
  · exact h.advances
  · exact advances_of_solve h (.unify h hunify) hunify

theorem Advances.trans {ρ : Substitution} (h : σ.Advances τ) (h' : τ.Advances ρ) : σ.Advances ρ where
  reachable := h'.reachable
  keeps := h.keeps.trans h'.keeps
  absorbs v := by
    rw [← h'.apply, h.absorbs, h'.absorbs]

end

/-! ## Agreement -/

/-- The first gives the variables `D` values that are, relabelled, the values of their labels under
the second.  These variables are in use, and the given ones are their own labels. -/
structure Agrees (vs : List Var) (D : Set Var) (f : Var → Var) (σ τ : Substitution) : Prop where
  corresponds : Corresponds D f σ τ
  left : σ.Reachable
  right : τ.Reachable
  known : ∀ v ∈ D, v.text ∈ σ.names ∧ (f v).text ∈ τ.names
  fixed : ∀ v ∈ vs, v ∈ D ∧ f v = v

/-- Some correspondence of variables makes them agree. -/
def AgreeOn (vs : List Var) (σ τ : Substitution) : Prop := ∃ D f, Agrees vs D f σ τ

/-- Under the two substitutions the forms become the same but for the labels. -/
structure Matches {α : Type} [HasTerms α] (D : Set Var) (f : Var → Var) (σ τ : Substitution)
    (x y : α) : Prop where
  within : Over D (σ.apply x)
  value : τ.apply y = relabel f (σ.apply x)

section

variable {vs : List Var} {D E : Set Var} {f g : Var → Var} {σ τ σ' τ' : Substitution}

theorem Agrees.advance (h : Agrees vs D f σ τ) (hc : Corresponds D f σ' τ') (hσ : σ.Advances σ')
    (hτ : τ.Advances τ') : Agrees vs D f σ' τ' where
  corresponds := hc
  left := hσ.reachable
  right := hτ.reachable
  known v hv := ⟨hσ.keeps _ (h.known v hv).1, hτ.keeps _ (h.known v hv).2⟩
  fixed := h.fixed

theorem Agrees.addVariables {α β : Type} [HasTerms α] [HasTerms β] (h : Agrees vs D f σ τ) (x : α)
    (y : β) : Agrees vs D f (σ.addVariables x) (τ.addVariables y) :=
  h.advance (h.corresponds.congr rfl rfl) (h.left.advances_addVariables x)
    (h.right.advances_addVariables y)

/-- What both make of substitutions that agree agrees again, where it corresponds. -/
theorem Agrees.advance_rel {a b : Option Substitution} (h : Agrees vs D f σ τ)
    (hab : Option.Rel (Corresponds D f) a b) (ha : ∀ σ' ∈ a, σ.Advances σ')
    (hb : ∀ τ' ∈ b, τ.Advances τ') :
    Option.Rel (fun σ' τ' => Agrees vs D f σ' τ' ∧ σ.Advances σ' ∧ τ.Advances τ') a b := by
  cases hab with
  | none => exact .none
  | some hc =>
    have hl := ha _ rfl
    have hr := hb _ rfl
    exact .some ⟨h.advance hc hl hr, hl, hr⟩

theorem Agrees.unifyPredicates {p q : Predicate} (h : Agrees vs D f σ τ) (hp : Over D p)
    (hq : Over D q) : Option.Rel (fun σ' τ' => Agrees vs D f σ' τ' ∧ σ.Advances σ' ∧ τ.Advances τ')
      (σ.unifyPredicates p q).toOption
      (τ.unifyPredicates (relabel f p) (relabel f q)).toOption := by
  have hadvances : ∀ {ρ : Substitution} {p q : Predicate}, ρ.Reachable →
      ∀ ρ' ∈ (ρ.unifyPredicates p q).toOption, ρ.Advances ρ' := by
    intro ρ p q hρ ρ' hρ'
    refine hρ.advances_unifyPredicates (p := p) (q := q) ?_
    revert hρ'
    cases ρ.unifyPredicates p q with
    | error => exact nofun
    | ok => exact fun hρ' => congrArg Except.ok (Option.some.inj hρ')
  exact h.advance_rel (h.corresponds.unifyPredicates hp hq) (hadvances h.left) (hadvances h.right)

theorem Agrees.solution? {c : Comparison} (h : Agrees vs D f σ τ) (hc : Over D c)
    (hop : c.op.isOrder = false) :
    Option.Rel (fun σ' τ' => Agrees vs D f σ' τ' ∧ σ.Advances σ' ∧ τ.Advances τ') (c.solution? σ)
      ((relabel f c).solution? τ) :=
  h.advance_rel (h.corresponds.solution? hc hop) (fun _ hσ => h.left.advances_solution? hσ)
    fun _ hτ => h.right.advances_solution? hτ

/-- The values of the given variables are the same but for the names of others. -/
theorem Agrees.isVariant {ws : List Var} (h : Agrees vs D f σ τ) (hws : ∀ v, v ∈ ws ↔ v ∈ vs) :
    IsVariant vs (σ.restrict vs) (τ.restrict ws) := by
  refine ⟨f, fun v hv => (h.fixed v hv).2, h.corresponds.apart.mono ?_, fun v => ?_⟩
  · rintro v (hv | ⟨w, t, hw, hv⟩)
    · exact (h.fixed v hv).1
    · rw [lookup_restrict, lookup_eq] at hw
      obtain ⟨hmem, hw⟩ := Option.ite_none_right_eq_some.1 hw
      obtain ⟨-, ht⟩ := Option.ite_none_left_eq_some.1 hw
      obtain rfl := Option.some.inj ht
      exact over_term.1 (h.corresponds.closed w (h.fixed w hmem).1) v hv
  · simp only [lookup_restrict, hws]
    by_cases hv : v ∈ vs
    · obtain ⟨hvD, hfv⟩ := h.fixed v hv
      have hvalue := h.corresponds.value v hvD
      have hself := relabel_eq_var h.corresponds.apart (h.corresponds.closed v hvD) hvD
      rw [hfv] at hvalue hself
      rw [if_pos hv, if_pos hv, lookup_eq, lookup_eq, hvalue]
      by_cases hvar : σ.valueOf v = .var v
      · rw [if_pos hvar, if_pos (hself.2 hvar)]
        rfl
      · rw [if_neg hvar, if_neg (hself.not.2 hvar)]
        rfl
    · rw [if_neg hv, if_neg hv]
      rfl

/-- Without bindings the variables in use can stand for themselves. -/
theorem agrees_of_unbound (hσ : σ.Reachable) (hτ : τ.Reachable)
    (hv : ∀ v ∈ vs, σ.valueOf v = .var v ∧ τ.valueOf v = .var v)
    (hknown : ∀ v ∈ vs, v.text ∈ σ.names ∧ v.text ∈ τ.names) :
    Agrees vs { v | v ∈ vs } id σ τ where
  corresponds := by
    refine ⟨Set.injOn_id _, fun v hmem => ?_, fun v hmem => ?_⟩
    · rw [(hv v hmem).1]
      exact over_var.2 hmem
    · rw [(hv v hmem).1]
      exact (hv v hmem).2
  left := hσ
  right := hτ
  known := hknown
  fixed v hmem := ⟨hmem, rfl⟩

/-! ## Matching forms -/

section

variable {α : Type} [HasTerms α] [LawfulTerms α] {x y : α}

theorem Corresponds.matches_relabel (h : Corresponds D f σ τ) (hx : Over D x) :
    Matches D f σ τ x (relabel f x) :=
  ⟨h.over_apply hx, h.apply_relabel hx⟩

/-- Forms that match still do when both searches have gone on. -/
theorem Matches.advance (h : Matches D f σ τ x y) (hc : Corresponds E g σ' τ') (hD : D ⊆ E)
    (hg : ∀ v ∈ D, g v = f v) (hσ : σ.Advances σ') (hτ : τ.Advances τ') :
    Matches E g σ' τ' x y := by
  have hover : Over E (σ.apply x) := h.within.mono hD
  constructor
  · rw [← hσ.apply]
    exact hc.over_apply hover
  · rw [← hτ.apply, h.value, ← h.within.relabel_congr hg, hc.apply_relabel hover, hσ.apply]

end

theorem Matches.cons {l : Literal} {todo todo' : List Literal}
    (h : Matches D f σ τ (l :: todo) todo') :
    ∃ l' rest, todo' = l' :: rest ∧ Matches D f σ τ l l' ∧ Matches D f σ τ todo rest := by
  obtain ⟨hover, hvalue⟩ := h
  cases todo' with
  | nil => cases hvalue
  | cons l' rest =>
    obtain ⟨hfirst, hrest⟩ := List.cons.inj hvalue
    refine ⟨l', rest, rfl, ⟨fun v hv => hover v ?_, hfirst⟩, fun v hv => hover v ?_, hrest⟩
    · exact List.mem_append_left _ hv
    · exact List.mem_append_right _ hv

theorem Matches.append {g g' todo todo' : List Literal} (h : Matches D f σ τ g g')
    (htodo : Matches D f σ τ todo todo') : Matches D f σ τ (g ++ todo) (g' ++ todo') := by
  have happly : ∀ (ρ : Substitution) (xs ys : List Literal),
      ρ.apply (xs ++ ys) = ρ.apply xs ++ ρ.apply ys := fun ρ xs ys => List.map_append
  have hlabel : ∀ xs ys : List Literal, relabel f (xs ++ ys) = relabel f xs ++ relabel f ys :=
    fun xs ys => List.map_append
  constructor
  · intro v hv
    rw [happly] at hv
    obtain ⟨l, hl, hv⟩ := List.mem_flatMap.1 hv
    rcases List.mem_append.1 hl with hl | hl
    · exact h.within v (List.mem_flatMap.2 ⟨l, hl, hv⟩)
    · exact htodo.within v (List.mem_flatMap.2 ⟨l, hl, hv⟩)
  · rw [happly, happly, hlabel, h.value, htodo.value]

theorem Matches.atom {a : Atom} {l : Literal} (h : Matches D f σ τ (.atom a) l) :
    ∃ b, l = .atom b ∧ Matches D f σ τ a b := by
  obtain ⟨hover, hvalue⟩ := h
  cases l with
  | atom b => exact ⟨b, rfl, hover, Literal.atom.inj hvalue⟩
  | not g => cases hvalue

theorem Matches.not {g : Goal} {l : Literal} (h : Matches D f σ τ (.not g) l) :
    ∃ g', l = .not g' ∧ Matches D f σ τ g g' := by
  obtain ⟨hover, hvalue⟩ := h
  have happly : ∀ (ρ : Substitution) (g : Goal), ρ.apply (Literal.not g) = .not (ρ.apply g) :=
    fun ρ g => Literal.rewrite_not _ g
  rw [happly] at hover hvalue
  rw [relabel, Literal.rewrite_not] at hvalue
  cases l with
  | atom b => cases hvalue
  | not g' =>
    rw [happly] at hvalue
    refine ⟨g', rfl, fun v hv => hover v ?_, Literal.not.inj hvalue⟩
    rwa [Literal.subterms_not]

/-! ## Renaming apart -/

end
end Substitution

namespace Renaming

/-- The images of the first renaming get the images of the labels under the second, and all else keeps
its label. -/
def transfer (ρ ρ' : Renaming) (g f : Var → Var) (u : Var) : Var :=
  match ρ.find? fun e => e.2 == u with
  | some e => (ρ'.lookup (g e.1)).getD u
  | none => f u

variable {ρ ρ' : Renaming} {σ τ : Substitution} {f g : Var → Var}

theorem transfer_of_mem_names (h : σ.IsApart (ρ, τ)) {u : Var} (hu : u.text ∈ σ.names) :
    ρ.transfer ρ' g f u = f u := by
  simp only [transfer, find?_of_mem_names h hu]

theorem transfer_image (h : σ.IsApart (ρ, τ)) {v u u' : Var} (hv : ρ.lookup v = some u)
    (hv' : ρ'.lookup (g v) = some u') : ρ.transfer ρ' g f u = u' := by
  obtain ⟨e, hfind, rfl⟩ := find?_image h hv
  simp only [transfer, hfind, hv', Option.getD_some]

end Renaming

namespace Substitution

variable {vs : List Var} {D : Set Var} {f g : Var → Var} {σ τ : Substitution}

/-- The images of the variables of a form under a renaming. -/
def images {α : Type} [HasTerms α] (ρ : Renaming) (x : α) : Set Var :=
  { u | ∃ v, Term.var v ∈ HasTerms.subterms x ∧ ρ.lookup v = some u }

/-- A correspondence is extended by variables that have no values on either side. -/
theorem Corresponds.union (h : Corresponds D f σ τ) {N : Set Var} (hg : ∀ v ∈ D, g v = f v)
    (hapart : Set.InjOn g (D ∪ N)) (hσ : ∀ u ∈ N, σ.valueOf u = .var u)
    (hτ : ∀ u ∈ N, τ.valueOf (g u) = .var (g u)) : Corresponds (D ∪ N) g σ τ where
  apart := hapart
  closed := by
    rintro v (hv | hv)
    · exact (h.closed v hv).mono Set.subset_union_left
    · rw [hσ v hv]
      exact over_var.2 (.inr hv)
  value := by
    rintro v (hv | hv)
    · rw [hg v hv, h.value v hv]
      exact Term.relabel_congr fun w hw => (hg w (over_term.1 (h.closed v hv) w hw)).symm
    · rw [hσ v hv, hτ v hv]
      rfl

theorem IsScoped.valueOf_of_not_mem (h : σ.IsScoped) {v : Var} (hv : v.text ∉ σ.names) :
    σ.valueOf v = .var v := by
  refine valueOf_of_unbound ?_
  cases hb : σ.bindings[v]? with
  | none => rfl
  | some t => exact absurd (h.bound v t hb) hv

/-- Renamed by the two renamings, variants are the same but for the labels of the images. -/
theorem relabel_rename {c : Clause} {ρ ρ' : Renaming} {l : Var → Var}
    (hc : ∀ v, Term.var v ∈ HasTerms.subterms c →
      ∃ u, ρ.lookup v = some u ∧ ρ'.lookup (l v) = some (g u)) :
    ρ'.apply (relabel l c) = relabel g (ρ.apply c) := by
  rw [Renaming.apply, Renaming.apply, replaceVars_eq_instantiate, replaceVars_eq_instantiate,
    instantiate_relabel, relabel_instantiate]
  refine instantiate_congr fun v hv => ?_
  obtain ⟨u, hu, hu'⟩ := hc v hv
  rw [hu, hu']
  rfl

theorem over_rename {c : Clause} {ρ : Renaming}
    (hc : ∀ v, Term.var v ∈ HasTerms.subterms c → ∃ u, ρ.lookup v = some u) :
    Over (images ρ c) (ρ.apply c) := by
  intro w hw
  rw [Renaming.apply, replaceVars_eq_instantiate] at hw
  obtain ⟨v, hv, hwv⟩ := exists_occurs_of_instantiate hw
  obtain ⟨u, hu⟩ := hc v hv
  obtain rfl : u = w := by simpa [hu, Term.occurs] using hwv
  exact ⟨v, hv, hu⟩

/-- The images of a clause and those of a variant of it get each other for labels. -/
theorem Agrees.union {c : Clause} {ρ ρ' : Renaming} {l : Var → Var} {σ' τ' : Substitution}
    (h : Agrees vs D f σ τ) (hσ : σ.IsApart (ρ, σ')) (hτ : τ.IsApart (ρ', τ'))
    (hσ' : σ.Advances σ') (hτ' : τ.Advances τ') (hbσ : σ'.bindings = σ.bindings)
    (hbτ : τ'.bindings = τ.bindings) (hl : Set.InjOn l { v | v ∈ «variables» c })
    (hg : ∀ v ∈ D, g v = f v) (hc : ∀ v, Term.var v ∈ HasTerms.subterms c →
      ∃ u, ρ.lookup v = some u ∧ ρ'.lookup (l v) = some (g u)) :
    Agrees vs (D ∪ images ρ c) g σ' τ' := by
  have hpair : ∀ u ∈ images ρ c, ∃ v, v ∈ «variables» c ∧ (v, u) ∈ ρ ∧ (l v, g u) ∈ ρ' := by
    rintro u ⟨v, hv, hu⟩
    obtain ⟨u', hu', hgu⟩ := hc v hv
    obtain rfl : u' = u := Option.some.inj (hu'.symm.trans hu)
    exact ⟨v, mem_variables_iff.2 hv, mem_of_lookup_eq_some hu, mem_of_lookup_eq_some hgu⟩
  have hnew : ∀ u ∈ images ρ c, u.text ∉ σ.names ∧ (g u).text ∉ τ.names := by
    intro u hu
    obtain ⟨v, -, hmem, hmem'⟩ := hpair u hu
    exact ⟨hσ.unused _ hmem, hτ.unused _ hmem'⟩
  have himages : Set.InjOn g (images ρ c) := by
    rintro u ⟨v, hv, hu⟩ w ⟨v', hv', hw⟩ heq
    obtain ⟨_, hu', hgu⟩ := hc v hv
    obtain ⟨_, hw', hgw⟩ := hc v' hv'
    rw [hu, Option.some.injEq] at hu'
    rw [hw, Option.some.injEq] at hw'
    subst hu' hw'
    have hlabels : l v = l v' :=
      hτ.single _ (mem_of_lookup_eq_some hgu) _ (mem_of_lookup_eq_some hgw) heq
    obtain rfl := hl (mem_variables_iff.2 hv) (mem_variables_iff.2 hv') hlabels
    exact Option.some.inj (hu.symm.trans hw)
  have hdisjoint : Disjoint D (images ρ c) :=
    Set.disjoint_left.2 fun v hv hu => (hnew v hu).1 (h.known v hv).1
  have hapart : Set.InjOn g (D ∪ images ρ c) := by
    refine (Set.injOn_union hdisjoint).2 ⟨?_, himages, fun v hv u hu heq => ?_⟩
    · exact h.corresponds.apart.congr fun v hv => (hg v hv).symm
    · rw [hg v hv] at heq
      exact (hnew u hu).2 (heq ▸ (h.known v hv).2)
  have hcorresponds : Corresponds (D ∪ images ρ c) g σ τ :=
    h.corresponds.union hg hapart
      (fun u hu => h.left.isClosed.isScoped.valueOf_of_not_mem (hnew u hu).1)
      (fun u hu => h.right.isClosed.isScoped.valueOf_of_not_mem (hnew u hu).2)
  refine ⟨hcorresponds.congr hbσ hbτ, hσ'.reachable, hτ'.reachable, ?_, fun v hv => ?_⟩
  · rintro v (hv | hv)
    · rw [hg v hv]
      exact ⟨hσ'.keeps _ (h.known v hv).1, hτ'.keeps _ (h.known v hv).2⟩
    · obtain ⟨w, -, hmem, hmem'⟩ := hpair v hv
      exact ⟨hσ.known _ hmem, hτ.known _ hmem'⟩
  · obtain ⟨hvD, hfv⟩ := h.fixed v hv
    exact ⟨.inl hvD, (hg v hvD).trans hfv⟩

/-- Variants are renamed apart to clauses that are the same but for the labels. -/
theorem Agrees.rename {c d : Clause} (h : Agrees vs D f σ τ) (hcd : c.IsVariant d) :
    ∃ E g, D ⊆ E ∧ (∀ v ∈ D, g v = f v) ∧ Agrees vs E g (σ.rename [] c).2.2 (τ.rename [] d).2.2 ∧
      Over E (σ.rename [] c).1 ∧ (τ.rename [] d).1 = relabel g (σ.rename [] c).1 := by
  obtain ⟨l, hl, rfl⟩ := hcd
  obtain ⟨hσ, hc⟩ := isApart_rename σ c
  obtain ⟨hτ, hd⟩ := isApart_rename τ (relabel l c)
  -- the labels so far, and for the image of a variable the image of its label in the variant
  let g := (σ.rename [] c).2.1.transfer (τ.rename [] (relabel l c)).2.1 l f
  have hg : ∀ v ∈ D, g v = f v := fun v hv => Renaming.transfer_of_mem_names hσ (h.known v hv).1
  have hpair : ∀ v, Term.var v ∈ HasTerms.subterms c → ∃ u, (σ.rename [] c).2.1.lookup v = some u ∧
      (τ.rename [] (relabel l c)).2.1.lookup (l v) = some (g u) := by
    intro v hv
    obtain ⟨u, hu⟩ := hc v hv
    obtain ⟨u', hu'⟩ := hd (l v) (mem_relabel hl (fun w hw => mem_variables_iff.2 hw) hv)
    exact ⟨u, hu, hu'.trans (congrArg some (Renaming.transfer_image hσ hu hu').symm)⟩
  have hagrees := h.union hσ hτ (h.left.advances_rename c) (h.right.advances_rename _)
    (bindings_rename σ [] c) (bindings_rename τ [] _) hl hg hpair
  exact ⟨_, g, Set.subset_union_left, hg, hagrees,
    (over_rename hc).mono Set.subset_union_right, relabel_rename hpair⟩

end Substitution
end Horn
