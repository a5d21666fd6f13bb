import Mathlib.Data.List.Induction
import Horn.Proofs.CanonicalNames

/-!
Renaming in one pass.  A pass gives a variable its image where it meets it first and puts the images in
as it goes on, so what it has gathered grows on the way.  It makes the same form as collecting the
variables first and replacing them then, since an image that is given is not changed any more.  Clauses
are renamed apart in this way, and get generic names.
-/

namespace Horn

/-! ## The pass -/

/-- What a pass does with the variables that it meets: each of them is entered in what has been gathered so
far, which has an image for it from then on. -/
structure Pass (S : Type) where
  enter : S → Var → S
  images : S → Renaming
  keeps : ∀ s v, (images (enter s v)).Extends (images s)
  enters : ∀ s v, ((images (enter s v)).lookup v).isSome = true
  again : ∀ s v, ((images s).lookup v).isSome = true → enter s v = s

/-- A pass over a list, from the first form to the last. -/
def passEach {α S : Type} (pass : α → S → α × S) : List α → S → List α × S
  | [], s => ([], s)
  | x :: xs, s =>
    let (y, s) := pass x s
    let (ys, s) := passEach pass xs s
    (y :: ys, s)

section

variable {S : Type} (p : Pass S)

namespace Term

mutual
def pass : Term → S → Term × S
  | .var v, s =>
    let s := p.enter s v
    (.var ((p.images s).image v), s)
  | .compound f args, s =>
    let (args, s) := passAll args s
    (.compound f args, s)
  | .list items tail, s =>
    let (items, s) := passAll items s
    let (tail, s) := passTail tail s
    (listOf items tail, s)
  | t, s => (t, s)

def passAll : List Term → S → List Term × S
  | [], s => ([], s)
  | t :: ts, s =>
    let (t, s) := pass t s
    let (ts, s) := passAll ts s
    (t :: ts, s)

def passTail : Option Term → S → Option Term × S
  | none, s => (none, s)
  | some t, s =>
    let (t, s) := pass t s
    (some t, s)
end

end Term

def Expr.pass : Expr → S → Expr × S
  | .term t, s =>
    let (t, s) := t.pass p s
    (.term t, s)
  | .binary op l r, s =>
    let (l, s) := l.pass s
    let (r, s) := r.pass s
    (.binary op l r, s)
  | .neg e, s =>
    let (e, s) := e.pass s
    (.neg e, s)
  | .call m e, s =>
    let (e, s) := e.pass s
    (.call m e, s)

def Atom.pass : Atom → S → Atom × S
  | .predicate q, s =>
    let (args, s) := passEach (Term.pass p) q.args s
    (.predicate ⟨q.name, args⟩, s)
  | .compare c, s =>
    let (l, s) := c.left.pass p s
    let (r, s) := c.right.pass p s
    (.compare ⟨c.op, l, r⟩, s)

/-- A clause is passed from its head to the end of its body. -/
def Clause.pass (c : Clause) (s : S) : Clause × S :=
  match c.head with
  | none =>
    let (body, s) := passEach (Atom.pass p) c.body s
    (⟨none, body⟩, s)
  | some h =>
    let (h, s) := h.pass p s
    let (body, s) := passEach (Atom.pass p) c.body s
    (⟨some h, body⟩, s)

end

/-! ## The images given on the way -/

namespace Pass

variable {S : Type} (p : Pass S)

theorem extends_foldl (vs : List Var) (s : S) :
    (p.images (vs.foldl p.enter s)).Extends (p.images s) := by
  induction vs generalizing s with
  | nil => exact .refl _
  | cons v vs ih => exact (ih _).trans (p.keeps s v)

theorem lookup_foldl {vs : List Var} {v : Var} (hv : v ∈ vs) (s : S) :
    ((p.images (vs.foldl p.enter s)).lookup v).isSome = true := by
  induction vs generalizing s with
  | nil => cases hv
  | cons w vs ih =>
    rcases List.mem_cons.1 hv with rfl | hv
    · obtain ⟨image, himage⟩ := Option.isSome_iff_exists.1 (p.enters s v)
      rw [List.foldl_cons, p.extends_foldl vs _ v image himage]
      rfl
    · exact ih hv _

/-- Entering the variables as they come is entering each where it comes first. -/
theorem foldl_eraseDups (vs : List Var) (s : S) :
    vs.eraseDups.foldl p.enter s = vs.foldl p.enter s := by
  induction vs using List.reverseRecOn with
  | nil => rfl
  | append_singleton vs v ih =>
    rw [List.foldl_append, List.foldl_cons, List.foldl_nil, List.eraseDups_append, List.foldl_append,
      ih]
    by_cases hv : v ∈ vs
    · rw [p.again _ v (p.lookup_foldl hv s)]
      simp [List.removeAll, hv]
    · simp [List.removeAll, hv, List.eraseDups_cons]

end Pass

/-! ## One pass and two -/

/-- The variables of a form where they stand. -/
def occurrences {α : Type} [HasTerms α] (x : α) : List Var :=
  (HasTerms.subterms x).filterMap Term.asVar

/-- A pass over a form enters its variables in the order in which they stand, and what it makes of the form
is the form under the images there are then and later. -/
def Pass.InOrder {S α : Type} [HasTerms α] (p : Pass S) (pass : α → S → α × S) (x : α) : Prop :=
  ∀ s, (pass x s).2 = (occurrences x).foldl p.enter s ∧
    ∀ ρ : Renaming, ρ.Extends (p.images (pass x s).2) → (pass x s).1 = ρ.apply x

section

variable {S α : Type} [HasTerms α] {p : Pass S} {pass : α → S → α × S}

/-- What comes after a form keeps the images that it got. -/
theorem Pass.InOrder.extends {x : α} (h : p.InOrder pass x) (s : S) :
    (p.images (pass x s).2).Extends (p.images s) := by
  rw [(h s).1]
  exact p.extends_foldl _ s

/-- A form with one part that is passed. -/
theorem Pass.InOrder.one {β : Type} [HasTerms β] {pass' : β → S → β × S} {x : α} {z : β}
    (hx : p.InOrder pass x) (g : α → β) (hpass : ∀ s, pass' z s = (g (pass x s).1, (pass x s).2))
    (hvars : occurrences z = occurrences x) (happly : ∀ ρ : Renaming, ρ.apply z = g (ρ.apply x)) :
    p.InOrder pass' z := by
  intro s
  rw [hpass, hvars]
  exact ⟨(hx s).1, fun ρ hρ => by rw [happly, (hx s).2 ρ hρ]⟩

/-- A form with two parts, the second passed after the first. -/
theorem Pass.InOrder.both {β γ : Type} [HasTerms β] [HasTerms γ]
    {pass' : β → S → β × S} {pass'' : γ → S → γ × S}
    {x : α} {y : β} {z : γ} (hx : p.InOrder pass x) (hy : p.InOrder pass' y) (g : α → β → γ)
    (hpass : ∀ s, pass'' z s = (g (pass x s).1 (pass' y (pass x s).2).1, (pass' y (pass x s).2).2))
    (hvars : occurrences z = occurrences x ++ occurrences y)
    (happly : ∀ ρ : Renaming, ρ.apply z = g (ρ.apply x) (ρ.apply y)) : p.InOrder pass'' z := by
  intro s
  rw [hpass, hvars, List.foldl_append, ← (hx s).1]
  refine ⟨(hy _).1, fun ρ hρ => ?_⟩
  rw [happly, (hx s).2 ρ (hρ.trans (hy.extends _)), (hy _).2 ρ hρ]

theorem Pass.inOrder_list {xs : List α} (h : ∀ x ∈ xs, p.InOrder pass x) :
    p.InOrder (passEach pass) xs := by
  induction xs with
  | nil => exact fun s => ⟨rfl, fun _ _ => rfl⟩
  | cons x xs ih =>
    obtain ⟨hx, hxs⟩ := List.forall_mem_cons.1 h
    exact hx.both (ih hxs) List.cons (fun _ => rfl) List.filterMap_append fun _ => rfl

/-- One pass is collecting the variables, entering them in the order of their first occurrence, and
replacing them then. -/
theorem Pass.InOrder.eq {x : α} (h : p.InOrder pass x) (s : S) :
    pass x s = ((p.images ((«variables» x).foldl p.enter s)).apply x,
      («variables» x).foldl p.enter s) := by
  have hentered : (pass x s).2 = («variables» x).foldl p.enter s :=
    (h s).1.trans (p.foldl_eraseDups _ s).symm
  exact Prod.ext (hentered ▸ (h s).2 _ (.refl _)) hentered

end

section

variable {S : Type} (p : Pass S)

namespace Term

theorem passAll_eq (ts : List Term) (s : S) : passAll p ts s = passEach (pass p) ts s := by
  induction ts generalizing s with
  | nil => rfl
  | cons t ts ih => simp only [passAll, passEach, ih]

theorem subtermsAll_eq (ts : List Term) : subtermsAll ts = HasTerms.subterms ts := by
  induction ts with
  | nil => rfl
  | cons t ts ih => exact congrArg (t.subterms ++ ·) ih

theorem inOrder (t : Term) : p.InOrder (pass p) t := by
  induction t using Term.induct with
  | const c => exact fun s => ⟨rfl, fun _ _ => rfl⟩
  | placeholder q => exact fun s => ⟨rfl, fun _ _ => rfl⟩
  | var v =>
    refine fun s => ⟨rfl, fun ρ hρ => ?_⟩
    obtain ⟨w, hw⟩ := Option.isSome_iff_exists.1 (p.enters s v)
    have himage : (p.images (p.enter s v)).image v = w := Renaming.image_of_lookup hw
    show Term.var _ = ((ρ.lookup v).map Term.var).getD (.var v)
    rw [himage, hρ v w hw]
    rfl
  | compound name args ih =>
    refine (Pass.inOrder_list ih).one (.compound name) (fun s => ?_) ?_ fun ρ => ?_
    · simp only [pass, passAll_eq]
    · rw [occurrences, occurrences, ← subtermsAll_eq]
      rfl
    · exact congrArg (Term.compound name) (rewriteAll_eq_map _ args)
  | list items tail ihitems ihtail =>
    cases tail with
    | none =>
      refine (Pass.inOrder_list ihitems).one (fun items => listOf items none) (fun s => ?_) ?_
        fun ρ => ?_
      · simp only [pass, passTail, passAll_eq]
      · rw [occurrences, occurrences, ← subtermsAll_eq, ← List.append_nil (subtermsAll items)]
        rfl
      · exact congrArg (listOf · none) (rewriteAll_eq_map _ items)
    | some t =>
      refine (Pass.inOrder_list ihitems).both (ihtail t rfl) (fun items t => listOf items (some t))
        (fun s => ?_) ?_ fun ρ => ?_
      · simp only [pass, passTail, passAll_eq]
      · rw [occurrences, occurrences, occurrences, ← subtermsAll_eq, ← List.filterMap_append]
        rfl
      · exact congrArg (listOf · _) (rewriteAll_eq_map _ items)

end Term

theorem Expr.inOrder (e : Expr) : p.InOrder (Expr.pass p) e := by
  induction e with
  | term t => exact (t.inOrder p).one Expr.term (fun _ => rfl) rfl fun _ => rfl
  | binary op l r ihl ihr =>
    exact ihl.both ihr (Expr.binary op) (fun _ => rfl) List.filterMap_append fun _ => rfl
  | neg e ih => exact ih.one Expr.neg (fun _ => rfl) rfl fun _ => rfl
  | call m e ih => exact ih.one (Expr.call m) (fun _ => rfl) rfl fun _ => rfl

theorem Atom.inOrder (a : Atom) : p.InOrder (Atom.pass p) a := by
  cases a with
  | predicate q =>
    exact (Pass.inOrder_list fun t (_ : t ∈ q.args) => t.inOrder p).one
      (fun args => Atom.predicate ⟨q.name, args⟩) (fun _ => rfl) rfl fun _ => rfl
  | compare c =>
    exact (c.left.inOrder p).both (c.right.inOrder p) (fun l r => Atom.compare ⟨c.op, l, r⟩)
      (fun _ => rfl) List.filterMap_append fun _ => rfl

theorem Clause.inOrder (c : Clause) : p.InOrder (Clause.pass p) c := by
  obtain ⟨head, body⟩ := c
  have hbody : p.InOrder (passEach (Atom.pass p)) body := Pass.inOrder_list fun a _ => a.inOrder p
  cases head with
  | none => exact hbody.one (Clause.mk none) (fun _ => rfl) rfl fun _ => rfl
  | some h =>
    exact (h.inOrder p).both hbody (fun h body => Clause.mk (some h) body) (fun _ => rfl)
      List.filterMap_append fun _ => rfl

end

/-! ## Renaming apart -/

namespace Substitution

/-- Each variable gets a fresh variable of its symbol. -/
def apart : Pass (Renaming × Substitution) where
  enter := renameVar
  images state := state.1
  keeps state v w u hw := by
    unfold renameVar
    split
    · exact hw
    · rename_i hnone
      have hne : w ≠ v := fun heq => hnone (by rw [← heq, hw]; rfl)
      rw [List.lookup_cons, beq_eq_false_iff_ne.2 hne]
      exact hw
  enters state v := by
    unfold renameVar
    split
    · assumption
    · simp
  again state v h := if_pos h

/-- Renaming a clause apart is one pass over it. -/
theorem rename_eq_pass (σ : Substitution) (ρ : Renaming) (c : Clause) :
    σ.rename ρ c = c.pass apart (ρ, σ) :=
  ((c.inOrder apart).eq (ρ, σ)).symm

end Substitution

/-! ## Generic names -/

namespace Renaming

/-- A variable without a name gets the next one. -/
def nameNext (ρ : Renaming) (v : Var) : Renaming :=
  if (ρ.lookup v).isSome then ρ else ρ ++ [(v, Var.named (genericName ρ.length))]

/-- Each variable gets the next name. -/
def naming : Pass Renaming where
  enter := nameNext
  images ρ := ρ
  keeps ρ v w u hw := by
    unfold nameNext
    split
    · exact hw
    · rw [List.lookup_append, hw, Option.some_or]
  enters ρ v := by
    unfold nameNext
    split
    · assumption
    · simp
  again ρ v h := if_pos h

/-- Naming variables as they come gives the names of their order of first occurrence. -/
theorem foldl_nameNext (vs : List Var) : vs.foldl nameNext [] = genericRenaming vs.eraseDups := by
  induction vs using List.reverseRecOn with
  | nil => rfl
  | append_singleton vs v ih =>
    have hknown : ((genericRenaming vs.eraseDups).lookup v).isSome = true ↔ v ∈ vs := by
      rw [List.lookup_isSome_iff, genericRenaming, ← List.mem_eraseDups, List.mem_iff_getElem]
      simp
    rw [List.foldl_append, List.foldl_cons, List.foldl_nil, ih, List.eraseDups_append, nameNext]
    by_cases hv : v ∈ vs
    · rw [if_pos (hknown.2 hv)]
      simp [List.removeAll, hv]
    · rw [if_neg fun h => hv (hknown.1 h)]
      simp [List.removeAll, hv, genericRenaming, List.eraseDups_cons]

end Renaming

/-- The clause with its variables named from its head to the end of its body. -/
def Clause.nameVars (c : Clause) (ρ : Renaming) : Clause × Renaming := c.pass Renaming.naming ρ

/-- A form under the names that one pass gives from none is the form with generic names. -/
theorem Pass.InOrder.fst_eq {α : Type} [HasTerms α] {pass : α → Renaming → α × Renaming} {x : α}
    (h : Renaming.naming.InOrder pass x) : (pass x []).1 = withGenericNames x := by
  rw [(h []).2 _ (.refl _), (h []).1]
  exact congrArg (Renaming.apply · x) (Renaming.foldl_nameNext _)

end Horn
