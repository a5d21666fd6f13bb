import Horn.Proofs.Candidates
import Horn.Proofs.Freshness
import Mathlib.Data.List.Forall2
import Mathlib.Data.Set.Function

/-!
Relabelling: every variable of a form is replaced by another one and everything else stays as it is,
lists included.  Two forms are variants when one is the other relabelled one to one.  Relabelling
commutes with everything that unification and the index do to a term.
-/

namespace Horn

/-! ## Terms -/

namespace Term

variable {f g : Var → Var} {t : Term}

mutual
/-- Puts a variable for every variable. -/
def relabel (f : Var → Var) : Term → Term
  | .const c => .const c
  | .var v => .var (f v)
  | .compound name args => .compound name (relabelAll f args)
  | .list items tail => .list (relabelAll f items) (relabelTail f tail)
  | .placeholder p => .placeholder p

def relabelAll (f : Var → Var) : List Term → List Term
  | [] => []
  | t :: rest => relabel f t :: relabelAll f rest

def relabelTail (f : Var → Var) : Option Term → Option Term
  | none => none
  | some t => some (relabel f t)
end

theorem relabelAll_eq_map (f : Var → Var) (ts : List Term) :
    relabelAll f ts = ts.map (relabel f) := by
  induction ts with
  | nil => rfl
  | cons t ts ih => exact congrArg (relabel f t :: ·) ih

theorem relabelTail_eq_map (f : Var → Var) (t : Option Term) :
    relabelTail f t = t.map (relabel f) := by
  cases t <;> rfl

theorem relabel_var (f : Var → Var) (v : Var) : (Term.var v).relabel f = .var (f v) := rfl

theorem relabel_compound (f : Var → Var) (name : String) (args : List Term) :
    (Term.compound name args).relabel f = .compound name (args.map (relabel f)) :=
  congrArg (Term.compound name) (relabelAll_eq_map f args)

theorem relabel_list (f : Var → Var) (items : List Term) (tail : Option Term) :
    (Term.list items tail).relabel f = .list (items.map (relabel f)) (tail.map (relabel f)) :=
  congrArg₂ Term.list (relabelAll_eq_map f items) (relabelTail_eq_map f tail)

theorem relabel_congr (h : ∀ v, t.occurs v = true → f v = g v) : t.relabel f = t.relabel g := by
  induction t using Term.induct with
  | const c => rfl
  | placeholder p => rfl
  | var v => exact congrArg Term.var (h v (by simp [occurs]))
  | compound name args ih =>
    rw [relabel_compound, relabel_compound]
    refine congrArg _ (List.map_congr_left fun t ht => ih t ht fun v hv => h v ?_)
    simpa [occurs] using occursAny_iff.2 ⟨t, ht, hv⟩
  | list items tail ihitems ihtail =>
    have hitems : items.map (relabel f) = items.map (relabel g) := by
      refine List.map_congr_left fun t ht => ihitems t ht fun v hv => h v ?_
      simp [occurs, occursAny_iff.2 ⟨t, ht, hv⟩]
    have htail : tail.map (relabel f) = tail.map (relabel g) := by
      refine Option.map_congr fun t ht => ihtail t ht fun v hv => h v ?_
      simp [occurs, ht, occursTail, hv]
    rw [relabel_list, relabel_list, hitems, htail]

theorem relabel_relabel (f g : Var → Var) (t : Term) :
    (t.relabel g).relabel f = t.relabel fun v => f (g v) := by
  induction t using Term.induct with
  | const c => rfl
  | placeholder p => rfl
  | var v => rfl
  | compound name args ih =>
    rw [relabel_compound, relabel_compound, relabel_compound, List.map_map]
    exact congrArg _ (List.map_congr_left ih)
  | list items tail ihitems ihtail =>
    rw [relabel_list, relabel_list, relabel_list, List.map_map, Option.map_map]
    exact congrArg₂ _ (List.map_congr_left ihitems) (Option.map_congr ihtail)

theorem relabel_id (t : Term) : t.relabel id = t := by
  induction t using Term.induct with
  | const c => rfl
  | placeholder p => rfl
  | var v => rfl
  | compound name args ih =>
    rw [relabel_compound, List.map_congr_left ih, List.map_id']
  | list items tail ihitems ihtail =>
    rw [relabel_list, List.map_congr_left ihitems, List.map_id', Option.map_congr ihtail,
      Option.map_id']

/-- Relabelling first is putting terms for the labels. -/
theorem instantiate_relabel (θ : Var → Term) (f : Var → Var) (t : Term) :
    instantiate θ (t.relabel f) = instantiate (fun v => θ (f v)) t := by
  induction t using Term.induct with
  | const c => rfl
  | placeholder p => rfl
  | var v => rfl
  | compound name args ih =>
    rw [relabel_compound, instantiate_compound, instantiate_compound, List.map_map]
    exact congrArg _ (List.map_congr_left ih)
  | list items tail ihitems ihtail =>
    rw [relabel_list, instantiate_list, instantiate_list, List.map_map, Option.map_map]
    exact congrArg₂ _ (List.map_congr_left ihitems) (Option.map_congr ihtail)

theorem asList_relabel (h : t.asList = none) : (t.relabel f).asList = none := by
  cases t <;> first | rfl | cases h

theorem relabel_listOf (f : Var → Var) (items : List Term) (tail : Option Term) :
    (listOf items tail).relabel f = listOf (items.map (relabel f)) (tail.map (relabel f)) := by
  fun_induction listOf items tail with
  | case1 items => rw [relabel_list, Option.map_none, listOf]
  | case2 items rest tail ih => rw [ih, List.map_append, Option.map_some, relabel_list, listOf]
  | case3 items t hlist h =>
    have hnil : items = [] := by simpa using h
    subst hnil
    cases t <;> first | exact (hlist _ _ rfl).elim | simp [relabel, listOf]
  | case4 items t hlist h =>
    have hnone : t.asList = none := by
      cases t <;> first | rfl | exact (hlist _ _ rfl).elim
    rw [relabel_list, Option.map_some,
      listOf_of_not_list (by simpa using h) (asList_relabel hnone)]

/-- Relabelling afterwards is relabelling what is put for the variables. -/
theorem relabel_instantiate (f : Var → Var) (θ : Var → Term) (t : Term) :
    (instantiate θ t).relabel f = instantiate (fun v => (θ v).relabel f) t := by
  induction t using Term.induct with
  | const c => rfl
  | placeholder p => rfl
  | var v => rfl
  | compound name args ih =>
    rw [instantiate_compound, relabel_compound, instantiate_compound, List.map_map]
    exact congrArg _ (List.map_congr_left ih)
  | list items tail ihitems ihtail =>
    rw [instantiate_list, relabel_listOf, instantiate_list, List.map_map, Option.map_map]
    exact congrArg₂ _ (List.map_congr_left ihitems) (Option.map_congr ihtail)

theorem occurs_relabel {w : Var} :
    (t.relabel f).occurs w = true ↔ ∃ v, t.occurs v = true ∧ f v = w := by
  induction t using Term.induct with
  | const c => simp [relabel, occurs]
  | placeholder p => simp [relabel, occurs]
  | var v => simp [relabel, occurs]
  | compound name args ih =>
    rw [relabel_compound]
    simp only [occurs, occursAny_iff, List.mem_map, exists_exists_and_eq_and]
    constructor
    · rintro ⟨t, ht, hw⟩
      obtain ⟨v, hv, rfl⟩ := (ih t ht).1 hw
      exact ⟨v, ⟨t, ht, hv⟩, rfl⟩
    · rintro ⟨v, ⟨t, ht, hv⟩, rfl⟩
      exact ⟨t, ht, (ih t ht).2 ⟨v, hv, rfl⟩⟩
  | list items tail ihitems ihtail =>
    rw [relabel_list]
    simp only [occurs, Bool.or_eq_true, occursAny_iff, List.mem_map, exists_exists_and_eq_and]
    have htail : occursTail w (tail.map (relabel f)) = true ↔
        ∃ v, occursTail v tail = true ∧ f v = w := by
      cases tail with
      | none => simp [occursTail]
      | some t => exact ihtail t rfl
    rw [htail]
    constructor
    · rintro (⟨t, ht, hw⟩ | ⟨v, hv, rfl⟩)
      · obtain ⟨v, hv, rfl⟩ := (ihitems t ht).1 hw
        exact ⟨v, .inl ⟨t, ht, hv⟩, rfl⟩
      · exact ⟨v, .inr hv, rfl⟩
    · rintro ⟨v, ⟨t, ht, hv⟩ | hv, rfl⟩
      · exact .inl ⟨t, ht, (ihitems t ht).2 ⟨v, hv, rfl⟩⟩
      · exact .inr ⟨v, hv, rfl⟩

/-- Agreement in shape has nothing to do with which variables there are. -/
theorem agrees_relabel (f g : Var → Var) (t u : Term) :
    (t.relabel f).agrees (u.relabel g) = t.agrees u := by
  induction t using Term.induct generalizing u with
  | const c => cases u <;> rfl
  | placeholder p => cases u <;> rfl
  | var v => cases u <;> rfl
  | list items tail _ _ => cases u <;> rfl
  | compound name args ih =>
    cases u with
    | compound name' args' =>
      have hall : agreesAll (args.map (relabel f)) (args'.map (relabel g)) = agreesAll args args' := by
        clear name name'
        induction args generalizing args' with
        | nil => cases args' <;> rfl
        | cons t ts ihts =>
          cases args' with
          | nil => rfl
          | cons u us =>
            obtain ⟨hfirst, hrest⟩ := List.forall_mem_cons.1 ih
            rw [List.map_cons, List.map_cons, agreesAll, agreesAll, hfirst, ihts hrest]
      rw [relabel_compound, relabel_compound, agrees, agrees, hall]
    | _ => rfl

end Term

/-! ## Forms -/

/-- Relabels the terms of a form. -/
def relabel {α : Type} [HasTerms α] (f : Var → Var) (x : α) : α :=
  HasTerms.rewrite (fun t => some (t.relabel f)) x

/-- The variables of a form are among the given ones. -/
def Over {α : Type} [HasTerms α] (D : Set Var) (x : α) : Prop :=
  ∀ v, Term.var v ∈ HasTerms.subterms x → v ∈ D

theorem relabel_term (f : Var → Var) (t : Term) : relabel f t = t.relabel f := Term.rewrite_some _ t

theorem over_term {D : Set Var} {t : Term} : Over D t ↔ ∀ v, t.occurs v = true → v ∈ D :=
  forall_congr' fun v => imp_congr_left (Term.var_mem_subterms v t)

theorem Over.mono {α : Type} [HasTerms α] {D E : Set Var} {x : α} (hx : Over D x) (h : D ⊆ E) :
    Over E x := fun v hv => h (hx v hv)

section

variable {α : Type} [HasTerms α] [LawfulTerms α] {f g : Var → Var} {D E : Set Var} {x y : α}

theorem relabel_congr (h : ∀ v, Term.var v ∈ HasTerms.subterms x → f v = g v) :
    relabel f x = relabel g x := by
  refine LawfulTerms.rewrite_congr fun t ht => Term.relabel_congr fun v hv => h v ?_
  exact LawfulTerms.subterms_subterms ht ((Term.var_mem_subterms v t).2 hv)

theorem Over.relabel_congr (hx : Over D x) (h : ∀ v ∈ D, f v = g v) : relabel f x = relabel g x :=
  Horn.relabel_congr fun v hv => h v (hx v hv)

theorem relabel_relabel (f g : Var → Var) (x : α) :
    relabel f (relabel g x) = relabel (fun v => f (g v)) x := by
  rw [relabel, relabel, LawfulTerms.rewrite_rewrite]
  exact LawfulTerms.rewrite_congr fun t _ => Term.relabel_relabel f g t

theorem relabel_id (x : α) : relabel id x = x :=
  (LawfulTerms.rewrite_congr (g := id) fun t _ => Term.relabel_id t).trans (LawfulTerms.rewrite_self x)

theorem instantiate_relabel (θ : Var → Term) (f : Var → Var) (x : α) :
    instantiate θ (relabel f x) = instantiate (fun v => θ (f v)) x := by
  rw [instantiate_eq_rewrite, instantiate_eq_rewrite, relabel, LawfulTerms.rewrite_rewrite]
  exact LawfulTerms.rewrite_congr fun t _ => Term.instantiate_relabel θ f t

theorem relabel_instantiate (f : Var → Var) (θ : Var → Term) (x : α) :
    relabel f (instantiate θ x) = instantiate (fun v => (θ v).relabel f) x := by
  rw [instantiate_eq_rewrite, instantiate_eq_rewrite, relabel, LawfulTerms.rewrite_rewrite]
  exact LawfulTerms.rewrite_congr fun t _ => Term.relabel_instantiate f θ t

theorem Over.instantiate {θ : Var → Term} (hx : Over D x) (h : ∀ v ∈ D, Over E (θ v)) :
    Over E (instantiate θ x) := by
  intro w hw
  obtain ⟨v, hv, hwv⟩ := Substitution.exists_occurs_of_instantiate hw
  exact over_term.1 (h v (hx v hv)) w hwv

/-- A variable of a relabelled form is the label of one. -/
theorem exists_of_mem_relabel {w : Var} (h : Term.var w ∈ HasTerms.subterms (relabel f x)) :
    ∃ v, Term.var v ∈ HasTerms.subterms x ∧ f v = w := by
  obtain ⟨t, ht, hw⟩ := LawfulTerms.subterms_rewrite h
  obtain ⟨v, hv, rfl⟩ := Term.occurs_relabel.1 ((Term.var_mem_subterms w _).1 hw)
  exact ⟨v, LawfulTerms.subterms_subterms ht ((Term.var_mem_subterms v t).2 hv), rfl⟩

/-- Where the labels keep the variables apart, relabelling can be undone. -/
theorem relabel_invFunOn (hf : Set.InjOn f D) (hx : Over D x) :
    relabel (Function.invFunOn f D) (relabel f x) = x := by
  rw [relabel_relabel]
  exact (hx.relabel_congr fun v hv => hf.leftInvOn_invFunOn hv).trans (relabel_id x)

theorem mem_relabel (hf : Set.InjOn f D) (hx : Over D x) {v : Var}
    (hv : Term.var v ∈ HasTerms.subterms x) : Term.var (f v) ∈ HasTerms.subterms (relabel f x) := by
  have hback : Term.var v ∈ HasTerms.subterms (relabel (Function.invFunOn f D) (relabel f x)) := by
    rwa [relabel_invFunOn hf hx]
  obtain ⟨w, hw, hwv⟩ := exists_of_mem_relabel hback
  obtain ⟨u, hu, rfl⟩ := exists_of_mem_relabel hw
  rw [hf.leftInvOn_invFunOn (hx u hu)] at hwv
  rwa [← hwv]

/-- Forms over variables that keep apart are told apart by their relabellings. -/
theorem relabel_inj (hf : Set.InjOn f D) (hx : Over D x) (hy : Over D y) :
    relabel f x = relabel f y ↔ x = y := by
  refine ⟨fun h => ?_, fun h => congrArg _ h⟩
  rw [← relabel_invFunOn hf hx, ← relabel_invFunOn hf hy, h]

end

/-! ## Variants -/

/-- The second clause is the first one with other variables, one to one. -/
def Clause.IsVariant (c d : Clause) : Prop :=
  ∃ f : Var → Var, Set.InjOn f { v | v ∈ «variables» c } ∧ d = relabel f c

theorem Clause.IsVariant.refl (c : Clause) : c.IsVariant c :=
  ⟨id, Set.injOn_id _, (relabel_id c).symm⟩

theorem headPredicate_relabel (f : Var → Var) (c : Clause) :
    (relabel f c).headPredicate = c.headPredicate.map (relabel f) := by
  obtain ⟨head, body⟩ := c
  match head with
  | none => rfl
  | some (.predicate p) => rfl
  | some (.compare d) => rfl

theorem Predicate.relabel_eq (f : Var → Var) (p : Predicate) :
    relabel f p = ⟨p.name, p.args.map (Term.relabel f)⟩ :=
  congrArg (Predicate.mk p.name) (List.map_congr_left fun t _ => relabel_term f t)

theorem Predicate.agrees_relabel (f g : Var → Var) (p q : Predicate) :
    (relabel f p).agrees (relabel g q) = p.agrees q := by
  have hall := Term.agrees_relabel f g (.compound p.name p.args) (.compound q.name q.args)
  rw [Term.relabel_compound, Term.relabel_compound, Term.agrees, Term.agrees] at hall
  rw [relabel_eq, relabel_eq, agrees, agrees]
  exact hall

/-- The clauses whose heads agree with a call in shape. -/
def matching (clauses : List Clause) : Lookup := fun p =>
  clauses.filter fun c => c.headPredicate.any (·.agrees p)

/-- Variants are found for variants. -/
theorem matching_variants {cs ds : List Clause} (h : List.Forall₂ Clause.IsVariant cs ds)
    (f : Var → Var) (p : Predicate) :
    List.Forall₂ Clause.IsVariant (matching cs p) (matching ds (relabel f p)) := by
  induction h with
  | nil => exact .nil
  | @cons c d cs ds hc _ ih =>
    obtain ⟨g, hg, rfl⟩ := hc
    have hsame : (relabel g c).headPredicate.any (·.agrees (relabel f p)) =
        c.headPredicate.any (·.agrees p) := by
      rw [headPredicate_relabel]
      cases c.headPredicate with
      | none => rfl
      | some q => exact Predicate.agrees_relabel g f q p
    rw [matching, matching, List.filter_cons, List.filter_cons, hsame]
    split
    · exact .cons ⟨g, hg, rfl⟩ ih
    · exact ih

end Horn
