import Horn.Proofs.NormalForm
import Horn.Substitution.Unification
import Horn.Substitution.Renaming
import Mathlib.Logic.Basic

/-!
Valuations: every variable gets a normal term.  Substitutions and renamings are compared through
the valuations that they allow, so the laws of replacing variables are stated here once for terms
and carried over to all forms built from terms.
-/

namespace Horn

/-- Puts a term for every variable. -/
def instantiate {α : Type} [HasTerms α] (θ : Var → Term) (x : α) : α :=
  replaceVars (fun v => some (θ v)) x

/-- A choice of a normal term for every variable. -/
structure Valuation where
  value : Var → Term
  normal : ∀ v, (value v).isNormal = true

namespace Valuation

def apply {α : Type} [HasTerms α] (θ : Valuation) (x : α) : α := instantiate θ.value x

/-- The valuation that leaves every variable as it is. -/
def identity : Valuation := ⟨.var, fun _ => rfl⟩

end Valuation

/-! ## Terms -/

namespace Term

theorem rewriteAll_eq_map (f : Term → Option Term) (ts : List Term) :
    rewriteAll f ts = ts.map (rewrite f) := by
  induction ts with
  | nil => rfl
  | cons t ts ih => rw [rewriteAll, ih, List.map_cons]

theorem rewriteTail_eq_map (f : Term → Option Term) (t : Option Term) :
    rewriteTail f t = t.map (rewrite f) := by
  cases t <;> rfl

section

variable (θ : Var → Term)

theorem instantiate_const (c : Constant) : instantiate θ (Term.const c) = .const c := rfl

theorem instantiate_placeholder (p : Placeholder) :
    instantiate θ (Term.placeholder p) = .placeholder p := rfl

theorem instantiate_var (v : Var) : instantiate θ (Term.var v) = θ v := rfl

theorem instantiate_compound (f : String) (args : List Term) :
    instantiate θ (Term.compound f args) = .compound f (args.map (instantiate θ)) := by
  show Term.compound f (rewriteAll _ args) = _
  rw [rewriteAll_eq_map]
  rfl

theorem instantiate_list (items : List Term) (tail : Option Term) :
    instantiate θ (Term.list items tail) =
      listOf (items.map (instantiate θ)) (tail.map (instantiate θ)) := by
  show listOf (rewriteAll _ items) (rewriteTail _ tail) = _
  rw [rewriteAll_eq_map, rewriteTail_eq_map]
  rfl

theorem instantiate_emptyList : instantiate θ emptyList = emptyList := by
  rw [emptyList, instantiate_list]
  simp [listOf]

end

/-- Only the images of the variables that occur matter. -/
theorem instantiate_congr {θ η : Var → Term} {t : Term}
    (h : ∀ v, t.occurs v = true → θ v = η v) : instantiate θ t = instantiate η t := by
  induction t using Term.induct with
  | const c => rfl
  | placeholder p => rfl
  | var v => exact h v (by simp [occurs])
  | compound f args ih =>
    rw [instantiate_compound, instantiate_compound]
    refine congrArg _ (List.map_congr_left fun t ht => ih t ht fun v hv => h v ?_)
    simpa [occurs] using occursAny_iff.2 ⟨t, ht, hv⟩
  | list items tail ihitems ihtail =>
    have hitems : items.map (instantiate θ) = items.map (instantiate η) := by
      refine List.map_congr_left fun t ht => ihitems t ht fun v hv => h v ?_
      simp [occurs, occursAny_iff.2 ⟨t, ht, hv⟩]
    have htail : tail.map (instantiate θ) = tail.map (instantiate η) := by
      cases tail with
      | none => rfl
      | some t =>
        have ht := ihtail t rfl fun v hv => h v (by simp [occurs, occursTail, hv])
        rw [Option.map_some, Option.map_some, ht]
    rw [instantiate_list, instantiate_list, hitems, htail]

theorem replaceVars_eq (image : Var → Option Term) (t : Term) :
    replaceVars image t = instantiate (fun v => (image v).getD (.var v)) t := by
  induction t using Term.induct with
  | const c => rfl
  | placeholder p => rfl
  | var v => rfl
  | compound f args ih =>
    rw [instantiate_compound, ← List.map_congr_left ih]
    show Term.compound f (rewriteAll _ args) = _
    rw [rewriteAll_eq_map]
    rfl
  | list items tail ihitems ihtail =>
    rw [instantiate_list, ← List.map_congr_left ihitems]
    show listOf (rewriteAll _ items) (rewriteTail _ tail) = _
    rw [rewriteAll_eq_map, rewriteTail_eq_map]
    cases tail with
    | none => rfl
    | some t =>
      rw [Option.map_some, Option.map_some, ← ihtail t rfl]
      rfl

/-- Whatever the term looks like, putting normal terms for its variables makes it normal. -/
theorem isNormal_apply (θ : Valuation) (t : Term) : (θ.apply t).isNormal = true := by
  unfold Valuation.apply
  induction t using Term.induct with
  | const c => rfl
  | placeholder p => rfl
  | var v => exact θ.normal v
  | compound f args ih =>
    rw [instantiate_compound, isNormal, allNormal_iff]
    intro u hu
    obtain ⟨t, ht, rfl⟩ := List.mem_map.1 hu
    exact ih t ht
  | list items tail ihitems ihtail =>
    rw [instantiate_list]
    refine isNormal_listOf (fun u hu => ?_) fun u hu => ?_
    · obtain ⟨t, ht, rfl⟩ := List.mem_map.1 hu
      exact ihitems t ht
    · obtain ⟨t, ht, rfl⟩ := Option.map_eq_some_iff.1 hu
      exact ihtail t ht

theorem apply_listOf (θ : Valuation) (items : List Term) (tail : Option Term) :
    θ.apply (listOf items tail) = listOf (items.map θ.apply) (tail.map θ.apply) := by
  fun_induction listOf items tail with
  | case1 items => exact instantiate_list θ.value items none
  | case2 items rest tail ih =>
    have hrest : θ.apply (.list rest tail) = listOf (rest.map θ.apply) (tail.map θ.apply) :=
      instantiate_list θ.value rest tail
    rw [ih, List.map_append, listOf_append, Option.map_some, hrest]
  | case3 items t _ h =>
    have hnil : items = [] := by simpa using h
    rw [hnil]
    exact (listOf_nil (isNormal_apply θ t)).symm
  | case4 items t _ h => exact instantiate_list θ.value items (some t)

/-- A normal term is not changed by putting every variable for itself. -/
theorem apply_identity {t : Term} (h : t.isNormal = true) : Valuation.identity.apply t = t := by
  unfold Valuation.apply
  induction t using Term.induct with
  | const c => rfl
  | placeholder p => rfl
  | var v => rfl
  | compound f args ih =>
    rw [instantiate_compound, List.map_congr_left fun t ht => ih t ht (isNormal_args h ht)]
    rw [List.map_id']
  | list items tail ihitems ihtail =>
    have htail : tail.map (instantiate .var) = tail := by
      cases tail with
      | none => rfl
      | some t => exact congrArg some (ihtail t rfl (isNormal_tail h))
    have hitems := List.map_congr_left fun t ht => ihitems t ht (isNormal_items h ht)
    rw [List.map_id'] at hitems
    show instantiate .var (Term.list items tail) = _
    rw [instantiate_list, htail]
    exact hitems.symm ▸ listOf_self h

end Term

/-- The valuation that first puts terms for the variables and then values for theirs. -/
def Valuation.after (θ : Valuation) (η : Var → Term) : Valuation :=
  ⟨fun v => θ.apply (η v), fun v => Term.isNormal_apply θ (η v)⟩

theorem Term.apply_instantiate (θ : Valuation) (η : Var → Term) (t : Term) :
    θ.apply (instantiate η t) = (θ.after η).apply t := by
  induction t using Term.induct with
  | const c => rfl
  | placeholder p => rfl
  | var v => rfl
  | compound f args ih =>
    show θ.apply (instantiate η (.compound f args)) = instantiate _ (Term.compound f args)
    rw [instantiate_compound, instantiate_compound]
    show instantiate _ (Term.compound f _) = _
    rw [instantiate_compound, List.map_map]
    exact congrArg _ (List.map_congr_left ih)
  | list items tail ihitems ihtail =>
    show θ.apply (instantiate η (.list items tail)) = instantiate _ (Term.list items tail)
    have hitems : (items.map (instantiate η)).map θ.apply = items.map (θ.after η).apply := by
      rw [List.map_map]
      exact List.map_congr_left ihitems
    have htail : (tail.map (instantiate η)).map θ.apply = tail.map (θ.after η).apply := by
      cases tail with
      | none => rfl
      | some t => exact congrArg some (ihtail t rfl)
    rw [instantiate_list, apply_listOf, instantiate_list, hitems, htail]
    rfl

/-! ## Forms built from terms -/

theorem mem_variables_iff {α : Type} [HasTerms α] {v : Var} {x : α} :
    v ∈ «variables» x ↔ Term.var v ∈ HasTerms.subterms x := by
  rw [«variables», List.mem_eraseDups, List.mem_filterMap]
  constructor
  · rintro ⟨t, ht, hv⟩
    rwa [← Term.asVar_eq_some.1 hv]
  · exact fun h => ⟨.var v, h, rfl⟩

/-- The forms whose terms are rewritten one by one and whose subterms are those of their terms. -/
class LawfulTerms (α : Type) [HasTerms α] : Prop where
  /-- Rewriting a form rewrites its terms. -/
  rewrite_eq (f : Term → Option Term) (x : α) :
    HasTerms.rewrite f x = HasTerms.rewrite (fun t => some (t.rewrite f)) x
  rewrite_congr {f g : Term → Term} {x : α} :
    (∀ t ∈ HasTerms.subterms x, f t = g t) →
      HasTerms.rewrite (fun t => some (f t)) x = HasTerms.rewrite (fun t => some (g t)) x
  rewrite_rewrite (f g : Term → Term) (x : α) :
    HasTerms.rewrite (fun t => some (f t)) (HasTerms.rewrite (fun t => some (g t)) x) =
      HasTerms.rewrite (fun t => some (f (g t))) x
  rewrite_self (x : α) : HasTerms.rewrite some x = x
  subterms_subterms {t u : Term} {x : α} :
    t ∈ HasTerms.subterms x → u ∈ t.subterms → u ∈ HasTerms.subterms x
  subterms_rewrite {f : Term → Term} {u : Term} {x : α} :
    u ∈ HasTerms.subterms (HasTerms.rewrite (fun t => some (f t)) x) →
      ∃ t ∈ HasTerms.subterms x, u ∈ (f t).subterms

section

variable {α : Type} [HasTerms α] [LawfulTerms α]

theorem replaceVars_eq_rewrite (image : Var → Option Term) (x : α) :
    replaceVars image x = HasTerms.rewrite (fun t => some (replaceVars image t)) x :=
  LawfulTerms.rewrite_eq _ x

theorem instantiate_eq_rewrite (θ : Var → Term) (x : α) :
    instantiate θ x = HasTerms.rewrite (fun t => some (instantiate θ t)) x :=
  LawfulTerms.rewrite_eq _ x

theorem replaceVars_eq_instantiate (image : Var → Option Term) (x : α) :
    replaceVars image x = instantiate (fun v => (image v).getD (.var v)) x := by
  rw [replaceVars_eq_rewrite, instantiate_eq_rewrite]
  exact LawfulTerms.rewrite_congr fun t _ => Term.replaceVars_eq image t

theorem instantiate_congr {θ η : Var → Term} {x : α}
    (h : ∀ v, Term.var v ∈ HasTerms.subterms x → θ v = η v) : instantiate θ x = instantiate η x := by
  rw [instantiate_eq_rewrite, instantiate_eq_rewrite]
  refine LawfulTerms.rewrite_congr fun t ht => Term.instantiate_congr fun v hv => h v ?_
  exact LawfulTerms.subterms_subterms ht ((Term.var_mem_subterms v t).2 hv)

theorem instantiate_of_isGround {θ η : Var → Term} {x : α} (h : isGround x = true) :
    instantiate θ x = instantiate η x :=
  instantiate_congr fun _ hv => nomatch List.all_eq_true.1 h _ hv

theorem Valuation.apply_instantiate (θ : Valuation) (η : Var → Term) (x : α) :
    θ.apply (instantiate η x) = (θ.after η).apply x := by
  show instantiate _ (instantiate η x) = instantiate _ x
  rw [instantiate_eq_rewrite, instantiate_eq_rewrite η, instantiate_eq_rewrite,
    LawfulTerms.rewrite_rewrite]
  exact LawfulTerms.rewrite_congr fun t _ => Term.apply_instantiate θ η t

theorem Valuation.normal_apply (θ : Valuation) (x : α) : Normal (θ.apply x) := by
  intro u hu
  have hu : u ∈ HasTerms.subterms (instantiate θ.value x) := hu
  rw [instantiate_eq_rewrite] at hu
  obtain ⟨t, _, hut⟩ := LawfulTerms.subterms_rewrite hu
  exact Term.isNormal_of_mem_subterms (Term.isNormal_apply θ t) hut

theorem Valuation.apply_of_normal {x : α} (h : Normal x) : Valuation.identity.apply x = x := by
  have hid := LawfulTerms.rewrite_congr (g := id) fun t ht => Term.apply_identity (h t ht)
  show instantiate _ x = x
  rw [instantiate_eq_rewrite]
  exact hid.trans (LawfulTerms.rewrite_self x)

end

theorem Term.rewrite_some (f : Term → Term) (t : Term) :
    HasTerms.rewrite (fun t => some (f t)) t = f t := by
  cases t <;> rfl

instance : LawfulTerms Term where
  rewrite_eq f t := (Term.rewrite_some (fun t => t.rewrite f) t).symm
  rewrite_congr h := by
    rw [Term.rewrite_some, Term.rewrite_some]
    exact h _ (Term.self_mem_subterms _)
  rewrite_rewrite f g t := by rw [Term.rewrite_some, Term.rewrite_some, Term.rewrite_some]
  rewrite_self t := Term.rewrite_some id t
  subterms_subterms := by
    intro t u x ht hu
    induction x using Term.induct with
    | compound f args ih =>
      rcases List.mem_cons.1 ht with rfl | h
      · exact hu
      · obtain ⟨s, hs, hts⟩ := Term.mem_subtermsAll.1 h
        exact List.mem_cons_of_mem _ (Term.mem_subtermsAll.2 ⟨s, hs, ih s hs hts⟩)
    | list items tail ihitems ihtail =>
      rcases List.mem_cons.1 ht with rfl | h
      · exact hu
      · refine List.mem_cons_of_mem _ (List.mem_append.2 ?_)
        rcases List.mem_append.1 h with h | h
        · obtain ⟨s, hs, hts⟩ := Term.mem_subtermsAll.1 h
          exact .inl (Term.mem_subtermsAll.2 ⟨s, hs, ihitems s hs hts⟩)
        · cases tail with
          | none => exact absurd h List.not_mem_nil
          | some s => exact .inr (ihtail s rfl h)
    | _ =>
      rw [List.mem_singleton.1 ht] at hu
      exact hu
  subterms_rewrite := by
    intro f u t hu
    rw [Term.rewrite_some] at hu
    exact ⟨t, Term.self_mem_subterms t, hu⟩

/-- Ground values are not changed by a valuation. -/
theorem Valuation.apply_of_isGround (ζ : Valuation) {t : Term} (hground : isGround t = true)
    (ht : t.isNormal = true) : ζ.apply t = t :=
  (instantiate_of_isGround hground).trans (Term.apply_identity ht)

section

variable {α : Type} [HasTerms α] [LawfulTerms α]

instance : LawfulTerms (List α) where
  rewrite_eq f xs := List.map_congr_left fun x _ => LawfulTerms.rewrite_eq f x
  rewrite_congr h := List.map_congr_left fun x hx =>
    LawfulTerms.rewrite_congr fun t ht => h t (List.mem_flatMap.2 ⟨x, hx, ht⟩)
  rewrite_rewrite f g xs := by
    show (xs.map _).map _ = xs.map _
    rw [List.map_map]
    exact List.map_congr_left fun x _ => LawfulTerms.rewrite_rewrite f g x
  rewrite_self xs := by
    show xs.map _ = xs
    rw [List.map_congr_left fun x _ => LawfulTerms.rewrite_self x]
    exact List.map_id' xs
  subterms_subterms := by
    intro t u xs ht hu
    obtain ⟨x, hx, htx⟩ := List.mem_flatMap.1 ht
    exact List.mem_flatMap.2 ⟨x, hx, LawfulTerms.subterms_subterms htx hu⟩
  subterms_rewrite := by
    intro f u xs hu
    obtain ⟨y, hy, huy⟩ := List.mem_flatMap.1 hu
    obtain ⟨x, hx, rfl⟩ := List.mem_map.1 hy
    obtain ⟨t, ht, hut⟩ := LawfulTerms.subterms_rewrite huy
    exact ⟨t, List.mem_flatMap.2 ⟨x, hx, ht⟩, hut⟩

end

instance : LawfulTerms Predicate where
  rewrite_eq f p := congrArg _ (LawfulTerms.rewrite_eq f p.args)
  rewrite_congr {_ _ p} h := congrArg (Predicate.mk p.name) (LawfulTerms.rewrite_congr h)
  rewrite_rewrite f g p := congrArg _ (LawfulTerms.rewrite_rewrite f g p.args)
  rewrite_self p := congrArg (Predicate.mk p.name) (LawfulTerms.rewrite_self p.args)
  subterms_subterms {_ _ p} := LawfulTerms.subterms_subterms (x := p.args)
  subterms_rewrite {_ _ p} := LawfulTerms.subterms_rewrite (x := p.args)

instance : LawfulTerms Expr where
  rewrite_eq f e := by
    induction e with
    | term t => exact congrArg Expr.term (LawfulTerms.rewrite_eq f t)
    | binary op l r ihl ihr => exact congrArg₂ (Expr.binary op) ihl ihr
    | neg e ih => exact congrArg Expr.neg ih
    | call m e ih => exact congrArg (Expr.call m) ih
  rewrite_congr {f g e} h := by
    induction e with
    | term t => exact congrArg Expr.term (LawfulTerms.rewrite_congr h)
    | binary op l r ihl ihr =>
      exact congrArg₂ (Expr.binary op) (ihl fun t ht => h t (List.mem_append_left _ ht))
        (ihr fun t ht => h t (List.mem_append_right _ ht))
    | neg e ih => exact congrArg Expr.neg (ih h)
    | call m e ih => exact congrArg (Expr.call m) (ih h)
  rewrite_rewrite f g e := by
    induction e with
    | term t => exact congrArg Expr.term (LawfulTerms.rewrite_rewrite f g t)
    | binary op l r ihl ihr => exact congrArg₂ (Expr.binary op) ihl ihr
    | neg e ih => exact congrArg Expr.neg ih
    | call m e ih => exact congrArg (Expr.call m) ih
  rewrite_self e := by
    induction e with
    | term t => exact congrArg Expr.term (LawfulTerms.rewrite_self t)
    | binary op l r ihl ihr => exact congrArg₂ (Expr.binary op) ihl ihr
    | neg e ih => exact congrArg Expr.neg ih
    | call m e ih => exact congrArg (Expr.call m) ih
  subterms_subterms {t u e} ht hu := by
    induction e with
    | term s => exact LawfulTerms.subterms_subterms (x := s) ht hu
    | binary op l r ihl ihr =>
      rcases List.mem_append.1 ht with h | h
      · exact List.mem_append_left _ (ihl h)
      · exact List.mem_append_right _ (ihr h)
    | neg e ih => exact ih ht
    | call m e ih => exact ih ht
  subterms_rewrite {f u e} hu := by
    induction e with
    | term s => exact LawfulTerms.subterms_rewrite (x := s) hu
    | binary op l r ihl ihr =>
      rcases List.mem_append.1 hu with h | h
      · obtain ⟨t, ht, hut⟩ := ihl h
        exact ⟨t, List.mem_append_left _ ht, hut⟩
      · obtain ⟨t, ht, hut⟩ := ihr h
        exact ⟨t, List.mem_append_right _ ht, hut⟩
    | neg e ih => exact ih hu
    | call m e ih => exact ih hu

instance : LawfulTerms Comparison where
  rewrite_eq f c :=
    congrArg₂ (Comparison.mk c.op) (LawfulTerms.rewrite_eq f c.left)
      (LawfulTerms.rewrite_eq f c.right)
  rewrite_congr {_ _ c} h :=
    congrArg₂ (Comparison.mk c.op)
      (LawfulTerms.rewrite_congr fun t ht => h t (List.mem_append_left _ ht))
      (LawfulTerms.rewrite_congr fun t ht => h t (List.mem_append_right _ ht))
  rewrite_rewrite f g c :=
    congrArg₂ (Comparison.mk c.op) (LawfulTerms.rewrite_rewrite f g c.left)
      (LawfulTerms.rewrite_rewrite f g c.right)
  rewrite_self c :=
    congrArg₂ (Comparison.mk c.op) (LawfulTerms.rewrite_self c.left)
      (LawfulTerms.rewrite_self c.right)
  subterms_subterms {t u c} ht hu := by
    rcases List.mem_append.1 ht with h | h
    · exact List.mem_append_left _ (LawfulTerms.subterms_subterms (x := c.left) h hu)
    · exact List.mem_append_right _ (LawfulTerms.subterms_subterms (x := c.right) h hu)
  subterms_rewrite {f u c} hu := by
    rcases List.mem_append.1 hu with h | h
    · obtain ⟨t, ht, hut⟩ := LawfulTerms.subterms_rewrite (x := c.left) h
      exact ⟨t, List.mem_append_left _ ht, hut⟩
    · obtain ⟨t, ht, hut⟩ := LawfulTerms.subterms_rewrite (x := c.right) h
      exact ⟨t, List.mem_append_right _ ht, hut⟩

instance : LawfulTerms Atom where
  rewrite_eq f
    | .predicate p => congrArg Atom.predicate (LawfulTerms.rewrite_eq f p)
    | .compare c => congrArg Atom.compare (LawfulTerms.rewrite_eq f c)
  rewrite_congr {_ _ a} h := match a with
    | .predicate _ => congrArg Atom.predicate (LawfulTerms.rewrite_congr h)
    | .compare _ => congrArg Atom.compare (LawfulTerms.rewrite_congr h)
  rewrite_rewrite f g
    | .predicate p => congrArg Atom.predicate (LawfulTerms.rewrite_rewrite f g p)
    | .compare c => congrArg Atom.compare (LawfulTerms.rewrite_rewrite f g c)
  rewrite_self
    | .predicate p => congrArg Atom.predicate (LawfulTerms.rewrite_self p)
    | .compare c => congrArg Atom.compare (LawfulTerms.rewrite_self c)
  subterms_subterms {_ _ a} := match a with
    | .predicate p => LawfulTerms.subterms_subterms (x := p)
    | .compare c => LawfulTerms.subterms_subterms (x := c)
  subterms_rewrite {_ _ a} := match a with
    | .predicate p => LawfulTerms.subterms_rewrite (x := p)
    | .compare c => LawfulTerms.subterms_rewrite (x := c)

/-- A clause rewrites like the list of its atoms. -/
theorem Clause.subterms_eq (c : Clause) :
    HasTerms.subterms c = HasTerms.subterms (c.head.toList ++ c.body) := by
  obtain ⟨head, body⟩ := c
  cases head <;> rfl

instance : LawfulTerms Clause where
  rewrite_eq f c := by
    obtain ⟨head, body⟩ := c
    have hbody := LawfulTerms.rewrite_eq f body
    cases head with
    | none => exact congrArg (Clause.mk none) hbody
    | some a =>
      exact congrArg₂ Clause.mk (congrArg some (LawfulTerms.rewrite_eq f a)) hbody
  rewrite_congr {f g c} h := by
    obtain ⟨head, body⟩ := c
    have hbody : HasTerms.rewrite (fun t => some (f t)) body =
        HasTerms.rewrite (fun t => some (g t)) body :=
      LawfulTerms.rewrite_congr fun t ht => h t (List.mem_append_right _ ht)
    cases head with
    | none => exact congrArg (Clause.mk none) hbody
    | some a =>
      have hhead : HasTerms.rewrite (fun t => some (f t)) a =
          HasTerms.rewrite (fun t => some (g t)) a :=
        LawfulTerms.rewrite_congr fun t ht => h t (List.mem_append_left _ ht)
      exact congrArg₂ Clause.mk (congrArg some hhead) hbody
  rewrite_rewrite f g c := by
    obtain ⟨head, body⟩ := c
    have hbody := LawfulTerms.rewrite_rewrite f g body
    cases head with
    | none => exact congrArg (Clause.mk none) hbody
    | some a =>
      exact congrArg₂ Clause.mk (congrArg some (LawfulTerms.rewrite_rewrite f g a)) hbody
  rewrite_self c := by
    obtain ⟨head, body⟩ := c
    have hbody := LawfulTerms.rewrite_self body
    cases head with
    | none => exact congrArg (Clause.mk none) hbody
    | some a =>
      exact congrArg₂ Clause.mk (congrArg some (LawfulTerms.rewrite_self a)) hbody
  subterms_subterms {t u c} ht hu := by
    rw [Clause.subterms_eq] at ht ⊢
    exact LawfulTerms.subterms_subterms ht hu
  subterms_rewrite {f u c} hu := by
    rw [Clause.subterms_eq] at hu ⊢
    refine LawfulTerms.subterms_rewrite (f := f) ?_
    obtain ⟨head, body⟩ := c
    cases head with
    | none => exact hu
    | some a => exact hu

namespace Literal

/-- Induction over a literal with a hypothesis for each literal inside a negation. -/
@[elab_as_elim]
theorem induct {motive : Literal → Prop} (atom : ∀ a, motive (.atom a))
    (not : ∀ g, (∀ l ∈ g, motive l) → motive (.not g)) : ∀ l, motive l
  | .atom a => atom a
  | .not g => not g fun l _ => induct atom not l

theorem subterms_not (g : List Literal) :
    HasTerms.subterms (Literal.not g) = HasTerms.subterms g := by
  show subtermsAll g = g.flatMap subterms
  induction g with
  | nil => rfl
  | cons l g ih => rw [subtermsAll, ih, List.flatMap_cons]

theorem rewrite_not (f : Term → Option Term) (g : List Literal) :
    HasTerms.rewrite f (Literal.not g) = .not (HasTerms.rewrite f g) := by
  show Literal.not (rewriteAll f g) = .not (g.map (rewrite f))
  congr 1
  induction g with
  | nil => rfl
  | cons l g ih => rw [rewriteAll, ih, List.map_cons]

end Literal

instance : LawfulTerms Literal where
  rewrite_eq f l := by
    induction l using Literal.induct with
    | atom a => exact congrArg Literal.atom (LawfulTerms.rewrite_eq f a)
    | not g ih =>
      rw [Literal.rewrite_not, Literal.rewrite_not]
      exact congrArg Literal.not (List.map_congr_left ih)
  rewrite_congr {f g l} h := by
    induction l using Literal.induct with
    | atom a => exact congrArg Literal.atom (LawfulTerms.rewrite_congr h)
    | not ls ih =>
      rw [Literal.subterms_not] at h
      rw [Literal.rewrite_not, Literal.rewrite_not]
      exact congrArg Literal.not (List.map_congr_left fun l hl =>
        ih l hl fun t ht => h t (List.mem_flatMap.2 ⟨l, hl, ht⟩))
  rewrite_rewrite f g l := by
    induction l using Literal.induct with
    | atom a => exact congrArg Literal.atom (LawfulTerms.rewrite_rewrite f g a)
    | not ls ih =>
      rw [Literal.rewrite_not, Literal.rewrite_not, Literal.rewrite_not]
      refine congrArg Literal.not ?_
      show (ls.map _).map _ = ls.map _
      rw [List.map_map]
      exact List.map_congr_left ih
  rewrite_self l := by
    induction l using Literal.induct with
    | atom a => exact congrArg Literal.atom (LawfulTerms.rewrite_self a)
    | not ls ih =>
      rw [Literal.rewrite_not]
      refine congrArg Literal.not ?_
      show ls.map _ = ls
      rw [List.map_congr_left ih]
      exact List.map_id' ls
  subterms_subterms {t u l} ht hu := by
    induction l using Literal.induct with
    | atom a => exact LawfulTerms.subterms_subterms (x := a) ht hu
    | not ls ih =>
      rw [Literal.subterms_not] at ht ⊢
      obtain ⟨l, hl, ht⟩ := List.mem_flatMap.1 ht
      exact List.mem_flatMap.2 ⟨l, hl, ih l hl ht⟩
  subterms_rewrite {f u l} hu := by
    induction l using Literal.induct with
    | atom a => exact LawfulTerms.subterms_rewrite (x := a) hu
    | not ls ih =>
      rw [Literal.rewrite_not, Literal.subterms_not] at hu
      rw [Literal.subterms_not]
      obtain ⟨l', hl', hu⟩ := List.mem_flatMap.1 hu
      obtain ⟨l, hl, rfl⟩ := List.mem_map.1 hl'
      obtain ⟨t, ht, hut⟩ := ih l hl hu
      exact ⟨t, List.mem_flatMap.2 ⟨l, hl, ht⟩, hut⟩

end Horn
