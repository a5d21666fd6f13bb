import Horn.Proofs.Agreement
import Horn.Proofs.GenericNames
import Horn.Proofs.SearchStep
import Horn.Proofs.SingleAnswers
import Horn.Proofs.StoreRefinement

/-!
Searching among clauses and among variants of them.  Both searches have the same branches but for the
names of variables, step by step: a clause is renamed apart on both sides, and the fresh variables get
each other for labels.  Only the standard order asks for names, so without it nothing can tell the two
searches apart.
-/

namespace Horn

/-! ## Atoms -/

/-- Whether an atom asks for the standard order of terms. -/
def Atom.usesOrder : Atom → Bool
  | .predicate _ => false
  | .compare c => c.op.isOrder

namespace Literal

mutual
def atoms : Literal → List Atom
  | .atom a => [a]
  | .not g => atomsAll g

def atomsAll : List Literal → List Atom
  | [] => []
  | l :: rest => atoms l ++ atomsAll rest
end

theorem atomsAll_append (g h : List Literal) : atomsAll (g ++ h) = atomsAll g ++ atomsAll h := by
  induction g with
  | nil => rfl
  | cons l g ih => rw [List.cons_append, atomsAll, ih, atomsAll, List.append_assoc]

theorem atomsAll_map (as : List Atom) : atomsAll (as.map .atom) = as := by
  induction as with
  | nil => rfl
  | cons a as ih =>
    rw [List.map_cons, atomsAll, ih]
    rfl

end Literal

/-- The atoms of a goal, those under negations included. -/
def Goal.atoms (g : Goal) : List Atom := Literal.atomsAll g

/-- Two lookups that find variants for the same calls, as far as calls of some kind are concerned.  What
is found has only atoms of this kind, and none of them asks for the standard order. -/
structure FindVariants (P : Atom → Prop) (lookup lookup' : Lookup) : Prop where
  instance_of : ∀ {a : Atom} (θ : Var → Term), P a → P (instantiate θ a)
  unordered : ∀ {a : Atom}, P a → a.usesOrder = false
  bodies : ∀ {p : Predicate}, P (.predicate p) → ∀ c ∈ lookup p, ∀ a ∈ c.body, P a
  found : ∀ {p : Predicate} (f : Var → Var), P (.predicate p) →
    List.Forall₂ Clause.IsVariant (lookup p) (lookup' (relabel f p))

/-- The bindings agree and what is left to do is the same under them, with atoms of some kind. -/
structure Pending (P : Atom → Prop) (vs : List Var) (D : Set Var) (f : Var → Var)
    (σ τ : Substitution) (todo todo' : List Literal) : Prop where
  agrees : Substitution.Agrees vs D f σ τ
  same : Substitution.Matches D f σ τ todo todo'
  kind : ∀ a ∈ Goal.atoms todo, P a

namespace Branch

/-- Branches that are the same but for the names of variables. -/
inductive Alike (P : Atom → Prop) (vs : List Var) : Branch → Branch → Prop where
  | goal {D f todo todo' σ τ} (h : Pending P vs D f σ τ todo todo') :
    Alike P vs (.goal todo σ) (.goal todo' τ)
  | call {D f p cs ds todo todo' σ τ} (h : Pending P vs D f σ τ todo todo') (hp : Over D p)
      (hclauses : List.Forall₂ Clause.IsVariant cs ds) (hbodies : ∀ c ∈ cs, ∀ a ∈ c.body, P a) :
    Alike P vs (.call p cs todo σ) (.call (relabel f p) ds todo' τ)

/-- The second stack has the branches of the first, and perhaps calls without clauses in between. -/
inductive Stacked (P : Atom → Prop) (vs : List Var) : List Branch → List Branch → Prop where
  | nil : Stacked P vs [] []
  | cons {b b' bs bs'} (hb : Alike P vs b b') (h : Stacked P vs bs bs') :
    Stacked P vs (b :: bs) (b' :: bs')
  | exhausted {bs bs' p todo σ} (h : Stacked P vs bs bs') :
    Stacked P vs bs (.call p [] todo σ :: bs')

end Branch

/-- The second search has the branches of the first but for the names of variables, and the same
steps. -/
structure Search.Alike (P : Atom → Prop) (vs : List Var) (s t : Search) : Prop where
  branches : Branch.Stacked P vs s.branches t.branches
  steps : t.steps = s.steps
  cut : t.cut = s.cut

section

variable {P : Atom → Prop} {lookup lookup' : Lookup} {vs : List Var} {D : Set Var} {f : Var → Var}
  {σ τ : Substitution} {p : Predicate} {todo todo' : List Literal} {c d : Clause}

theorem Clause.bodyGoal_rewrite (f : Term → Option Term) (c : Clause) :
    (HasTerms.rewrite f c).bodyGoal = HasTerms.rewrite f c.bodyGoal := by
  show (c.body.map (HasTerms.rewrite f)).map Literal.atom =
    (c.body.map Literal.atom).map (HasTerms.rewrite f)
  rw [List.map_map, List.map_map]
  rfl

theorem Clause.over_bodyGoal (h : Over D c) : Over D c.bodyGoal := by
  intro v hv
  obtain ⟨l, hl, hv⟩ := List.mem_flatMap.1 hv
  obtain ⟨a, ha, rfl⟩ := List.mem_map.1 hl
  exact h v (List.mem_append_right _ (List.mem_flatMap.2 ⟨a, ha, hv⟩))

theorem Clause.over_headPredicate (h : Over D c) (hp : c.headPredicate = some p) : Over D p := by
  intro v hv
  refine h v (List.mem_append_left _ ?_)
  rw [headPredicate_eq_some.1 hp]
  exact hv

/-- What a renamed clause asks for is of the same kind as what the clause asks for. -/
theorem FindVariants.body_rename (hP : FindVariants P lookup lookup') (σ : Substitution)
    (hc : ∀ a ∈ c.body, P a) : ∀ a ∈ (σ.rename [] c).1.body, P a := by
  have hrenamed : (σ.rename [] c).1 = instantiate (fun v => .var ((σ.rename [] c).2.1.image v)) c :=
    Renaming.apply_eq_instantiate _ c
  rw [hrenamed]
  intro a ha
  obtain ⟨b, hb, rfl⟩ := List.mem_map.1 ha
  exact hP.instance_of _ (hc b hb)

/-! ## Branches -/

theorem builtin?_relabel (f : Var → Var) (p : Predicate) : builtin? (relabel f p) = builtin? p := by
  rw [Predicate.relabel_eq]
  unfold builtin?
  rw [List.isEmpty_map]

theorem FindVariants.apply (hP : FindVariants P lookup lookup') (σ : Substitution) {a : Atom}
    (ha : P a) : P (σ.apply a) := by
  rw [Substitution.apply_eq_instantiate]
  exact hP.instance_of _ ha

namespace Pending

theorem advance {σ' τ' : Substitution} (h : Pending P vs D f σ τ todo todo')
    (hnew : Substitution.Agrees vs D f σ' τ' ∧ σ.Advances σ' ∧ τ.Advances τ') :
    Pending P vs D f σ' τ' todo todo' := by
  obtain ⟨hagrees, hσ, hτ⟩ := hnew
  exact ⟨hagrees, h.same.advance hagrees.corresponds subset_rfl (fun _ _ => rfl) hσ hτ, h.kind⟩

theorem atom {a : Atom} (h : Pending P vs D f σ τ (.atom a :: todo) todo') :
    ∃ b rest, todo' = .atom b :: rest ∧ Over D (σ.apply a) ∧ τ.apply b = relabel f (σ.apply a) ∧
      P a ∧ Pending P vs D f σ τ todo rest := by
  obtain ⟨hagrees, hsame, hkind⟩ := h
  obtain ⟨l, rest, rfl, hfirst, hrest⟩ := hsame.cons
  obtain ⟨b, rfl, hover, hvalue⟩ := hfirst.atom
  obtain ⟨ha, hkind⟩ := List.forall_mem_cons.1 hkind
  exact ⟨b, rest, rfl, hover, hvalue, ha, hagrees, hrest, hkind⟩

/-- A comparison to do next has the same outcome on both sides. -/
theorem compare (hP : FindVariants P lookup lookup') {a : Atom} {c : Comparison}
    (h : Pending P vs D f σ τ (.atom a :: todo) todo') (hc : σ.apply a = .compare c) :
    ∃ b rest, todo' = .atom b :: rest ∧ τ.apply b = .compare (relabel f c) ∧
      Option.Rel (fun σ' τ' => Pending P vs D f σ' τ' todo rest) (c.solution? σ)
        ((relabel f c).solution? τ) := by
  obtain ⟨b, rest, rfl, hover, hvalue, ha, hrest⟩ := h.atom
  have ha := hP.apply σ ha
  rw [hc] at hover hvalue ha
  refine ⟨b, rest, rfl, hvalue, ?_⟩
  have hrel := hrest.agrees.solution? hover (hP.unordered ha)
  generalize c.solution? σ = x at hrel
  generalize (relabel f c).solution? τ = y at hrel
  cases hrel with
  | none => exact .none
  | some hnew => exact .some (hrest.advance hnew)

/-- A call to do next is the same on both sides but for the labels. -/
theorem call (hP : FindVariants P lookup lookup') {a : Atom}
    (h : Pending P vs D f σ τ (.atom a :: todo) todo') (hp : σ.apply a = .predicate p) :
    ∃ b rest, todo' = .atom b :: rest ∧ τ.apply b = .predicate (relabel f p) ∧
      builtin? (relabel f p) = builtin? p ∧ Over D p ∧ P (.predicate p) ∧
      Pending P vs D f σ τ todo rest := by
  obtain ⟨b, rest, rfl, hover, hvalue, ha, hrest⟩ := h.atom
  have ha := hP.apply σ ha
  rw [hp] at hover hvalue ha
  exact ⟨b, rest, rfl, hvalue, builtin?_relabel f p, hover, ha, hrest⟩

theorem not {g : Goal} (h : Pending P vs D f σ τ (.not g :: todo) todo') :
    ∃ g' rest, todo' = .not g' :: rest ∧
      Pending P vs D f (σ.addVariables g) (τ.addVariables g') g g' ∧
      Pending P vs D f σ τ todo rest := by
  obtain ⟨hagrees, hsame, hkind⟩ := h
  obtain ⟨l, rest, rfl, hfirst, hrest⟩ := hsame.cons
  obtain ⟨g', rfl, hg⟩ := hfirst.not
  obtain ⟨hinside, hkind⟩ := List.forall_mem_append.1 hkind
  have hinner := hagrees.addVariables g g'
  have hgoal := hg.advance hinner.corresponds subset_rfl (fun _ _ => rfl)
    (hagrees.left.advances_addVariables g) (hagrees.right.advances_addVariables g')
  exact ⟨g', rest, rfl, ⟨hinner, hgoal, hinside⟩, hagrees, hrest, hkind⟩

end Pending

namespace Branch

/-- Resolving with variants succeeds for both or for neither. -/
theorem resolve?_alike (hP : FindVariants P lookup lookup') (h : Pending P vs D f σ τ todo todo')
    (hp : Over D p) (hcd : c.IsVariant d) (hbody : ∀ a ∈ c.body, P a) :
    Option.Rel (Alike P vs) (resolve? p c todo σ) (resolve? (relabel f p) d todo' τ) := by
  obtain ⟨E, g, hD, hg, hagrees, hover, hrenamed⟩ := h.agrees.rename hcd
  have hbodies := hP.body_rename σ hbody
  have hpg : relabel f p = relabel g p := (hp.relabel_congr hg).symm
  have hadvσ := h.agrees.left.advances_rename c
  have hadvτ := h.agrees.right.advances_rename d
  unfold resolve?
  dsimp only
  rw [hrenamed, headPredicate_relabel, hpg]
  generalize (σ.rename [] c).1 = renamed at *
  cases hhead : renamed.headPredicate with
  | none => exact .none
  | some head =>
    have hunify := hagrees.unifyPredicates (hp.mono hD) (Clause.over_headPredicate hover hhead)
    dsimp only [Option.map_some]
    cases hσ : (σ.rename [] c).2.2.unifyPredicates p head <;>
      cases hτ : (τ.rename [] d).2.2.unifyPredicates (relabel g p) (relabel g head) <;>
      rw [hσ, hτ] at hunify <;> cases hunify
    · exact .none
    · rename_i σ' τ' hnext
      obtain ⟨hnext, hσ', hτ'⟩ := hnext
      have hrest := h.same.advance hnext.corresponds hD hg (hadvσ.trans hσ') (hadvτ.trans hτ')
      have hfirst : Substitution.Matches E g σ' τ' renamed.bodyGoal (relabel g renamed).bodyGoal := by
        rw [relabel, Clause.bodyGoal_rewrite]
        exact hnext.corresponds.matches_relabel (Clause.over_bodyGoal hover)
      refine .some (.goal ⟨hnext, hfirst.append hrest, ?_⟩)
      rw [Goal.atoms, Literal.atomsAll_append, Clause.bodyGoal, Literal.atomsAll_map]
      exact List.forall_mem_append.2 ⟨hbodies, h.kind⟩

theorem Stacked.toList_append {x y : Option Branch} {bs bs' : List Branch}
    (hxy : Option.Rel (Alike P vs) x y) (h : Stacked P vs bs bs') :
    Stacked P vs (x.toList ++ bs) (y.toList ++ bs') := by
  cases hxy with
  | none => exact h
  | some hb => exact .cons hb h

end Branch

/-! ## Searches side by side -/

namespace Search

section

variable {s t : Search} {rest : List Branch}

theorem Alike.cons {b : Branch} (h : s.Alike P vs t) (hb : s.branches = b :: rest)
    (lookup' : Lookup) :
    ∃ b' left, next lookup' t = next lookup' ⟨b' :: left, s.steps, s.cut⟩ ∧ b.Alike P vs b' ∧
      Branch.Stacked P vs rest left := by
  obtain ⟨branches, steps, cut⟩ := t
  obtain ⟨hbranches, rfl, rfl⟩ := h
  dsimp only at hbranches
  rw [hb] at hbranches
  generalize hbs : b :: rest = bs at hbranches
  induction hbranches with
  | nil => cases hbs
  | cons hfirst hrest _ =>
    obtain ⟨rfl, rfl⟩ := List.cons.inj hbs
    exact ⟨_, _, rfl, hfirst, hrest⟩
  | exhausted _ ih =>
    obtain ⟨b', left, hnext, hfirst, hrest⟩ := ih hbs
    exact ⟨b', left, next_exhausted.trans hnext, hfirst, hrest⟩

theorem Alike.goal (h : s.Alike P vs t) (hb : s.branches = .goal todo σ :: rest)
    (lookup' : Lookup) :
    ∃ D f todo' τ left, next lookup' t = next lookup' ⟨.goal todo' τ :: left, s.steps, s.cut⟩ ∧
      Pending P vs D f σ τ todo todo' ∧ Branch.Stacked P vs rest left := by
  obtain ⟨b', left, hnext, hfirst, hrest⟩ := h.cons hb lookup'
  cases hfirst with
  | goal hpending => exact ⟨_, _, _, _, left, hnext, hpending, hrest⟩

theorem Alike.call {cs : List Clause} (h : s.Alike P vs t)
    (hb : s.branches = .call p cs todo σ :: rest) (lookup' : Lookup) :
    ∃ D f ds todo' τ left,
      next lookup' t = next lookup' ⟨.call (relabel f p) ds todo' τ :: left, s.steps, s.cut⟩ ∧
      Pending P vs D f σ τ todo todo' ∧ Over D p ∧ List.Forall₂ Clause.IsVariant cs ds ∧
      (∀ c ∈ cs, ∀ a ∈ c.body, P a) ∧ Branch.Stacked P vs rest left := by
  obtain ⟨b', left, hnext, hfirst, hrest⟩ := h.cons hb lookup'
  cases hfirst with
  | call hpending hp hclauses hbodies =>
    exact ⟨_, _, _, _, _, left, hnext, hpending, hp, hclauses, hbodies, hrest⟩

theorem Alike.done (h : s.Alike P vs t) (hb : s.branches = []) (lookup' : Lookup) :
    next lookup' t = (none, s) := by
  obtain ⟨branches, steps, cut⟩ := t
  obtain ⟨bs, n, b⟩ := s
  obtain ⟨hbranches, rfl, rfl⟩ := h
  dsimp only at hb hbranches
  subst hb
  generalize hbs : ([] : List Branch) = bs at hbranches
  induction hbranches with
  | nil => exact next_nil
  | cons => cases hbs
  | exhausted _ ih => exact next_exhausted.trans (ih hbs)

end

/-- To the next answer both searches go the same way. -/
theorem next_alike (hP : FindVariants P lookup lookup') {s t : Search} (h : s.Alike P vs t) :
    Option.Rel (Substitution.AgreeOn vs)
        (next lookup s).1 (next lookup' t).1 ∧
      (next lookup s).2.Alike P vs (next lookup' t).2 := by
  -- on the steps of the first search; before each the second leaves its exhausted calls
  fun_induction next lookup s generalizing t with
  | case1 s hb =>
    rw [h.done hb]
    refine ⟨.none, ?_, rfl, rfl⟩
    rw [hb]
    exact .nil
  | case2 s p todo σ rest hb _ ih =>
    obtain ⟨D, f, ds, todo', τ, left, hnext, -, -, hclauses, -, hrest⟩ := h.call hb lookup'
    cases hclauses
    rw [hnext, next_exhausted]
    exact ih ⟨hrest, rfl, rfl⟩
  | case3 s p c left todo σ rest hb h0 =>
    obtain ⟨D, f, ds, todo', τ, left, hnext, -, -, hclauses, -, hrest⟩ := h.call hb lookup'
    cases hclauses
    rw [hnext, h0, next_giveUp]
    exact ⟨.none, .nil, h0.symm, rfl⟩
  | case4 s p c clauses todo σ rest hb h0 _ ih =>
    obtain ⟨D, f, ds, todo', τ, left, hnext, hpending, hp, hclauses, hbodies, hrest⟩ :=
      h.call hb lookup'
    obtain ⟨n, hn⟩ : ∃ n, s.steps = n + 1 := ⟨s.steps - 1, by omega⟩
    cases hclauses with
    | cons hcd hclauses =>
      obtain ⟨hbody, hbodies⟩ := List.forall_mem_cons.1 hbodies
      rw [hnext, hn, next_tried]
      refine ih ⟨.toList_append (Branch.resolve?_alike hP hpending hp hcd hbody)
        (.cons (.call hpending hp hclauses hbodies) hrest), ?_, rfl⟩
      simp [tried, hn]
  | case5 s σ rest hb =>
    obtain ⟨D, f, todo', τ, left, hnext, hpending, hrest⟩ := h.goal hb lookup'
    obtain rfl : todo' = [] := List.map_eq_nil_iff.1 hpending.same.value
    rw [hnext, next_answer]
    exact ⟨.some ⟨D, f, hpending.agrees⟩, hrest, rfl, rfl⟩
  | case6 s a todo σ rest hb c hc hnone _ ih =>
    obtain ⟨D, f, todo', τ, left, hnext, hpending, hrest⟩ := h.goal hb lookup'
    obtain ⟨b, todo', rfl, hvalue, hrel⟩ := hpending.compare hP hc
    rw [hnone] at hrel
    rw [hnext, next_compare hvalue]
    cases hτ : (relabel f c).solution? τ <;> rw [hτ] at hrel <;> cases hrel
    exact ih ⟨hrest, rfl, rfl⟩
  | case7 s a todo σ rest hb c hc σ' hσ' _ ih =>
    obtain ⟨D, f, todo', τ, left, hnext, hpending, hrest⟩ := h.goal hb lookup'
    obtain ⟨b, todo', rfl, hvalue, hrel⟩ := hpending.compare hP hc
    rw [hσ'] at hrel
    rw [hnext, next_compare hvalue]
    cases hτ : (relabel f c).solution? τ <;> rw [hτ] at hrel <;> cases hrel
    rename_i hnew
    exact ih ⟨.cons (.goal hnew) hrest, rfl, rfl⟩
  | case8 s a todo σ rest hb p hp hbuilt _ ih =>
    obtain ⟨D, f, todo', τ, left, hnext, hpending, hrest⟩ := h.goal hb lookup'
    obtain ⟨b, todo', rfl, hvalue, hsame, -, -, hpending⟩ := hpending.call hP hp
    rw [hnext, next_true hvalue (hsame.trans hbuilt)]
    exact ih ⟨.cons (.goal hpending) hrest, rfl, rfl⟩
  | case9 s a todo σ rest hb p hp hbuilt _ ih =>
    obtain ⟨D, f, todo', τ, left, hnext, hpending, hrest⟩ := h.goal hb lookup'
    obtain ⟨b, todo', rfl, hvalue, hsame, -, -, hpending⟩ := hpending.call hP hp
    rw [hnext, next_fail hvalue (hsame.trans hbuilt)]
    exact ih ⟨hrest, rfl, rfl⟩
  | case10 s a todo σ rest hb p hp hbuilt _ ih =>
    obtain ⟨D, f, todo', τ, left, hnext, hpending, hrest⟩ := h.goal hb lookup'
    obtain ⟨b, todo', rfl, hvalue, hsame, hover, ha, hpending⟩ := hpending.call hP hp
    rw [hnext, next_call hvalue (hsame.trans hbuilt)]
    exact ih ⟨.cons (.call hpending hover (hP.found f ha) (hP.bodies ha)) hrest, rfl, rfl⟩
  | case11 s g todo σ rest hb _ answer inner hinner hb' ihin ih =>
    obtain ⟨D, f, todo', τ, left, hnext, hpending, hrest⟩ := h.goal hb lookup'
    obtain ⟨g', todo', rfl, hinside, hpending⟩ := hpending.not
    -- the search inside the negation is found on both sides or on neither
    have hin := ihin (t := ⟨[.goal g' (τ.addVariables g')], s.steps, s.cut⟩)
      ⟨.cons (.goal hinside) .nil, rfl, rfl⟩
    rw [hinner] at hin
    rw [hnext, next_not]
    generalize next lookup' ⟨[.goal g' (τ.addVariables g')], s.steps, s.cut⟩ = r at hin ⊢
    obtain ⟨answer', inner'⟩ := r
    obtain ⟨hanswer, hleft⟩ := hin
    rw [dite_eq_ite] at ih
    refine ih ⟨?_, congrArg (min s.steps) hleft.steps, hleft.cut⟩
    show Branch.Stacked P vs (if answer.isSome then rest else .goal todo σ :: rest)
      (if answer'.isSome then left else .goal todo' τ :: left)
    cases hanswer with
    | none => exact .cons (.goal hpending) hrest
    | some => exact hrest

/-- All further answers are the same but for the names of variables that are not asked for. -/
theorem rest_alike (hP : FindVariants P lookup lookup') {s t : Search} (h : s.Alike P vs t) :
    List.Forall₂ (Substitution.AgreeOn vs)
        (s.rest lookup).1 (t.rest lookup').1 ∧
      (s.rest lookup).2.Alike P vs (t.rest lookup').2 := by
  fun_induction Search.rest lookup s generalizing t with
  | case1 s u hnext =>
    obtain ⟨hanswer, hu⟩ := next_alike hP h
    rw [hnext] at hanswer hu
    cases ht : next lookup' t with
    | mk answer v =>
      rw [ht] at hanswer hu
      cases hanswer
      rw [rest_of_next_none ht]
      exact ⟨.nil, hu⟩
  | case2 s σ u hnext _ more ended hrest ih =>
    obtain ⟨hanswer, hu⟩ := next_alike hP h
    rw [hnext] at hanswer hu
    cases ht : next lookup' t with
    | mk answer v =>
      rw [ht] at hanswer hu
      cases hanswer with
      | some hagrees =>
        obtain ⟨hmore, hended⟩ := ih hu
        rw [hrest] at hmore hended
        rw [rest_of_next_some ht]
        exact ⟨.cons hagrees hmore, hended⟩

theorem take_alike (hP : FindVariants P lookup lookup') (n : Nat) {s t : Search}
    (h : s.Alike P vs t) :
    List.Forall₂ (Substitution.AgreeOn vs)
        (s.take lookup n).1 (t.take lookup' n).1 ∧
      (s.take lookup n).2.Alike P vs (t.take lookup' n).2 := by
  induction n generalizing s t with
  | zero => exact ⟨.nil, h⟩
  | succ n ih =>
    obtain ⟨hanswer, hleft⟩ := next_alike hP h
    rw [take, take]
    generalize next lookup s = r at *
    generalize next lookup' t = r' at *
    obtain ⟨answer, u⟩ := r
    obtain ⟨answer', u'⟩ := r'
    cases hanswer with
    | none => exact ⟨.nil, hleft⟩
    | some hagrees =>
      obtain ⟨hmore, hended⟩ := ih hleft
      exact ⟨.cons hagrees hmore, hended⟩

end Search

end

/-! ## Stores of variants -/

/-- A goal is searched from the same state, where its variables stand for themselves. -/
theorem Search.start_alike {P : Atom → Prop} {g : Goal} (hg : ∀ a ∈ g.atoms, P a) (steps : Nat) :
    (Search.start g Substitution.empty steps).Alike P («variables» g)
      (Search.start g Substitution.empty steps) := by
  have hreachable : (Substitution.empty.addVariables g).Reachable := .addVariables g .empty
  have hknown := Substitution.knows_addVariables Substitution.empty g
  have hagrees := Substitution.agrees_of_unbound hreachable hreachable (fun v _ => ⟨rfl, rfl⟩)
    fun v hv => ⟨hknown v (mem_variables_iff.1 hv), hknown v (mem_variables_iff.1 hv)⟩
  have hsame := hagrees.corresponds.matches_relabel (x := g) fun v hv => mem_variables_iff.2 hv
  rw [relabel_id] at hsame
  exact ⟨.cons (.goal ⟨hagrees, hsame, hg⟩) .nil, rfl, rfl⟩

theorem Goal.restricted_variants {g g' : Goal} (hvars : ∀ v, v ∈ «variables» g' ↔ v ∈ «variables» g)
    {σs τs : List Substitution} (h : List.Forall₂ (Substitution.AgreeOn («variables» g)) σs τs) :
    List.Forall₂ (Substitution.IsVariant («variables» g)) (g.restricted σs) (g'.restricted τs) := by
  rw [restricted, restricted, List.forall₂_map_left_iff, List.forall₂_map_right_iff]
  exact h.imp fun σ τ ⟨D, f, hagrees⟩ => hagrees.isVariant hvars

theorem Atom.usesOrder_instantiate (θ : Var → Term) (a : Atom) :
    (instantiate θ a).usesOrder = a.usesOrder := by
  cases a <;> rfl

namespace Store

variable {s t : Store}

theorem findVariants (hs : s.Reachable) (ht : t.Reachable)
    (hst : List.Forall₂ Clause.IsVariant s.clauses t.clauses)
    (horder : ∀ c ∈ s.clauses, ∀ a ∈ c.body, a.usesOrder = false) :
    FindVariants (fun a => a.usesOrder = false) s.candidates t.candidates where
  instance_of θ ha := (Atom.usesOrder_instantiate θ _).trans ha
  unordered ha := ha
  bodies _ c hc := horder c (mem_clauses_of_mem_candidates hc)
  found f _ := by
    rw [hs.isFiled.candidates_eq, ht.isFiled.candidates_eq]
    exact matching_variants hst f _

/-- The names of the variables in a store do not matter: stores of variants give a goal the same
answers in the same order but for the names of variables that the goal does not have, and leave the
same steps. -/
theorem answersFrom_variants (hs : s.Reachable) (ht : t.Reachable)
    (hst : List.Forall₂ Clause.IsVariant s.clauses t.clauses)
    (horder : ∀ c ∈ s.clauses, ∀ a ∈ c.body, a.usesOrder = false) {g : Goal}
    (hg : ∀ a ∈ g.atoms, a.usesOrder = false) (steps : Nat) (most : Option Nat) :
    let r := g.answersFrom s.candidates steps Substitution.empty most
    let r' := g.answersFrom t.candidates steps Substitution.empty most
    List.Forall₂ (Substitution.IsVariant («variables» g)) r.1 r'.1 ∧
      r'.2.cut = r.2.cut ∧ r'.2.steps = r.2.steps := by
  have hfind := findVariants hs ht hst horder
  have hstart := Search.start_alike (P := fun a => a.usesOrder = false) hg steps
  dsimp only
  unfold Goal.answersFrom
  cases most with
  | none =>
    obtain ⟨hanswers, hended⟩ := Search.rest_alike hfind hstart
    exact ⟨Goal.restricted_variants (fun _ => Iff.rfl) hanswers, hended.cut, hended.steps⟩
  | some n =>
    obtain ⟨hanswers, hended⟩ := Search.take_alike hfind n hstart
    exact ⟨Goal.restricted_variants (fun _ => Iff.rfl) hanswers, hended.cut, hended.steps⟩

/-- The clauses `q(a, X)` and `p(_) :- q(_, _)`, where the rule has two given variables. -/
def ruleClauses (x z : Var) : List Clause :=
  [.fact (.predicate ⟨"q", [.symbol "a", .var (.named "X")]⟩),
    .rule (.predicate ⟨"p", [.var x]⟩) [.predicate ⟨"q", [.var x, .var z]⟩]]

theorem value_of_proves_rule {x z : Var} {t : Term}
    (h : Proves (ruleClauses x z) (.predicate ⟨"p", [t]⟩)) : t = .symbol "a" := by
  obtain ⟨c, hc, θ, p, hhead, hname, hargs, hbody⟩ := h.exists_instance rfl
  rcases List.mem_pair.1 hc with rfl | rfl <;> cases hhead
  · simp at hname
  · have hq : Proves (ruleClauses x z) (.predicate ⟨"q", [θ.value x, θ.value z]⟩) :=
      hbody _ List.mem_cons_self
    obtain ⟨d, hd, η, q, hhead', hname', hargs', -⟩ := hq.exists_instance rfl
    have hx : θ.value x = t := (List.cons.inj hargs).1
    rcases List.mem_pair.1 hd with rfl | rfl <;> cases hhead'
    · have ha : Term.symbol "a" = θ.value x := (List.cons.inj hargs').1
      exact hx.symm.trans ha.symm
    · simp at hname'

/-- One answer is found through the rule. -/
theorem answersFrom_rule {s : Store} (hs : s.Reachable) {x z : Var}
    (hclauses : s.clauses = ruleClauses x z) :
    ∃ σ, Goal.answersFrom [.atom (.predicate ⟨"p", [.var (.named "Z")]⟩)] s.candidates 5
        Substitution.empty none = ([σ], ⟨[], 3, false⟩) ∧
      σ.apply (Term.var (.named "Z")) = .symbol "a" := by
  have hnormal : ∀ c ∈ s.clauses, Normal c := by
    rw [hclauses]
    refine List.forall_mem_cons.2 ⟨by decide, List.forall_mem_singleton.2 fun t ht => ?_⟩
    have ht : t ∈ [Term.var x, .var x, .var z] := ht
    simp only [List.mem_cons, List.not_mem_nil, or_false] at ht
    rcases ht with rfl | rfl | rfl <;> rfl
  have hplain : ∀ c ∈ s.clauses, c.IsPlain := by
    rw [hclauses]
    exact List.forall_mem_cons.2
      ⟨nofun, List.forall_mem_singleton.2 (List.forall_mem_singleton.2 trivial)⟩
  have hsole : ∀ p, (s.candidates p).length ≤ 1 := by
    refine hs.length_candidates_le_one ?_
    rw [hclauses]
    show ([some "q", some "p"] : List (Option String)).Nodup
    decide
  let η : Valuation := ⟨fun _ => .symbol "a", fun _ => rfl⟩
  let goal : List Atom := [.predicate ⟨"p", [.var (.named "Z")]⟩]
  have hproof : ProvedWith s.clauses 2 (goal.map η.apply) := by
    rw [hclauses]
    refine .clause η (List.mem_cons_of_mem _ List.mem_cons_self) rfl rfl ?_
    exact .clause η List.mem_cons_self rfl rfl .done
  have hcomplete := (Knowledge.IsStored.store hs).isComplete hnormal
  have hgoal : ∀ a ∈ goal, a.IsPlain := List.forall_mem_singleton.2 trivial
  obtain ⟨σ, hσ, hproved⟩ := Goal.exists_single_answer hcomplete hsole hplain hgoal hproof 3
  have hproved : Proves (ruleClauses x z) (.predicate ⟨"p", [σ.apply (Term.var (.named "Z"))]⟩) :=
    hclauses ▸ hproved _ List.mem_cons_self
  exact ⟨σ, hσ, value_of_proves_rule hproved⟩

/-- The rule `p(X) :- q(X, Z)` and the rule `p(Y) :- q(Y, X)` in its place. -/
theorem answersFrom_variants_rule :
    let g : Goal := [.atom (.predicate ⟨"p", [.var (.named "Z")]⟩)]
    ∃ s t : Store, s.clauses = ruleClauses (.named "X") (.named "Z") ∧
      t.clauses = ruleClauses (.named "Y") (.named "X") ∧
      let r := g.answersFrom s.candidates 5 Substitution.empty none
      let r' := g.answersFrom t.candidates 5 Substitution.empty none
      List.Forall₂ (Substitution.IsVariant («variables» g)) r.1 r'.1 ∧
        (∃ σ, r.1 = [σ] ∧ σ.apply (Term.var (.named "Z")) = .symbol "a") ∧
        (∃ τ, r'.1 = [τ] ∧ τ.apply (Term.var (.named "Z")) = .symbol "a") ∧
        r.2.steps = 3 ∧ r'.2.steps = 3 ∧ r.2.cut = false ∧ r'.2.cut = false := by
  intro g
  let label (v : Var) : Var := if v = .named "X" then .named "Y" else .named "X"
  let rule (x z : Var) : Clause :=
    .rule (.predicate ⟨"p", [.var x]⟩) [.predicate ⟨"q", [.var x, .var z]⟩]
  obtain ⟨s, hs, hsclauses⟩ : ∃ s, Reachable s ∧ s.clauses = ruleClauses (.named "X") (.named "Z") :=
    exists_clauses (by decide) (by decide)
  obtain ⟨t, ht, htclauses⟩ : ∃ t, Reachable t ∧ t.clauses = ruleClauses (.named "Y") (.named "X") :=
    exists_clauses (by decide) (by decide)
  have hvars : «variables» (rule (.named "X") (.named "Z")) = [.named "X", .named "Z"] := by decide
  have hlabel : Set.InjOn label { v | v ∈ «variables» (rule (.named "X") (.named "Z")) } := by
    rw [hvars]
    intro v hv w hw h
    rcases List.mem_pair.1 hv with rfl | rfl <;> rcases List.mem_pair.1 hw with rfl | rfl <;>
      revert h <;> decide
  have hrule : (rule (.named "X") (.named "Z")).IsVariant (rule (.named "Y") (.named "X")) :=
    ⟨label, hlabel, by decide⟩
  have hst : List.Forall₂ Clause.IsVariant s.clauses t.clauses := by
    rw [hsclauses, htclauses]
    exact .cons (.refl _) (.cons hrule .nil)
  have horder : ∀ c ∈ s.clauses, ∀ a ∈ c.body, a.usesOrder = false := by
    rw [hsclauses]
    decide
  obtain ⟨hanswers, -, -⟩ := answersFrom_variants hs ht hst horder (g := g) (by decide) 5 none
  obtain ⟨σ, hσ, hσvalue⟩ := answersFrom_rule hs hsclauses
  obtain ⟨τ, hτ, hτvalue⟩ := answersFrom_rule ht htclauses
  refine ⟨s, t, hsclauses, htclauses, hanswers, ?_⟩
  rw [hσ, hτ]
  exact ⟨⟨σ, rfl, hσvalue⟩, ⟨τ, rfl, hτvalue⟩, rfl, rfl, rfl, rfl⟩

end Store
end Horn
