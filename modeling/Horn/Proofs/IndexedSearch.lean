import Horn.Proofs.FactBases
import Horn.Proofs.StoreRefinement

/-!
Searching with the index and without it.  Without the index a call is tried with every clause of its
name and arity.  The clauses that the index spares do not unify with the call, so trying one of them
costs a step and leaves nothing behind: no branch, no binding and no name in use, since a failed
attempt keeps only the substitution that it started from.  As long as the search without the index has
steps enough, the search with it goes the same way and has no fewer steps left.
-/

namespace Horn

theorem Substitution.normal_apply {α : Type} [HasTerms α] [LawfulTerms α] {σ : Substitution}
    (h : σ.IsNormal) (x : α) : Normal (σ.apply x) := by
  rw [← valuation_apply h]
  exact Valuation.normal_apply _ x

/-- A clause that resolves with a call has a head that agrees with it in shape. -/
theorem Clause.agrees_of_resolve? {p : Predicate} {c : Clause} {todo : List Literal}
    {σ : Substitution} {b : Branch} (hp : Normal p) (hc : Normal c) (hσ : σ.IsNormal)
    (h : Branch.resolve? p c todo σ = some b) : c.headPredicate.any (·.agrees p) = true := by
  have hrenamed : (σ.rename [] c).1 =
      instantiate (fun v => (((σ.rename [] c).2.1.lookup v).map Term.var).getD (.var v)) c :=
    replaceVars_eq_instantiate (fun v => ((σ.rename [] c).2.1.lookup v).map Term.var) c
  obtain ⟨head, τ, hhead, hunify, -⟩ := Branch.resolve?_eq_some_iff.1 h
  have hτ : τ.IsNormal := (hσ.congr (Substitution.bindings_rename σ [] c)).solve hunify
  have hmeet := (Substitution.respects_of_unifyPredicates hunify).1
    (Substitution.valuation_respects hτ)
  rw [hrenamed, headPredicate_instantiate] at hhead
  obtain ⟨q, hq, rfl⟩ := Option.map_eq_some_iff.1 hhead
  have heq := hmeet.2
  rw [Valuation.apply_instantiate] at heq
  rw [hq]
  exact Predicate.agrees_of_apply_eq (normal_headPredicate hc hq) hp heq.symm

/-- All stored clauses for a predicate of this name and arity, in their order. -/
def Store.sharing (s : Store) (p : Predicate) : List Clause :=
  s.clauses.filter fun c => c.headPredicate.any (·.signature == p.signature)

/-! ## Fewer clauses -/

/-- The second list leaves out clauses of the first that do not resolve with the call. -/
inductive Spares (p : Predicate) (σ : Substitution) : List Clause → List Clause → Prop where
  | nil : Spares p σ [] []
  | kept {c all few} (h : Spares p σ all few) : Spares p σ (c :: all) (c :: few)
  | spared {c all few} (hc : ∀ todo, Branch.resolve? p c todo σ = none) (h : Spares p σ all few) :
    Spares p σ (c :: all) few

theorem spares_filter {p : Predicate} {σ : Substitution} {keep : Clause → Bool} {cs : List Clause}
    (h : ∀ c ∈ cs, keep c = false → ∀ todo, Branch.resolve? p c todo σ = none) :
    Spares p σ cs (cs.filter keep) := by
  induction cs with
  | nil => exact .nil
  | cons c cs ih =>
    obtain ⟨hc, hcs⟩ := List.forall_mem_cons.1 h
    cases hkeep : keep c with
    | true =>
      rw [List.filter_cons_of_pos hkeep]
      exact .kept (ih hcs)
    | false =>
      rw [List.filter_cons_of_neg (by simp [hkeep])]
      exact .spared (hc hkeep) (ih hcs)

theorem Predicate.signature_eq_of_agrees {p q : Predicate} (h : p.agrees q = true) :
    p.signature = q.signature := by
  rw [agrees, Bool.and_eq_true, beq_iff_eq] at h
  obtain ⟨hname, hargs⟩ := h
  exact congrArg₂ Signature.mk hname (Term.agreesAll_iff.1 hargs).1

namespace Store

variable {s : Store}

/-- The index narrows down the clauses of a name and arity by the shapes of the arguments. -/
theorem IsFiled.candidates_eq_filter (h : s.IsFiled) (q : Predicate) :
    s.candidates q = (s.sharing q).filter fun c => c.headPredicate.any (·.agrees q) := by
  rw [h.candidates_eq, sharing, List.filter_filter]
  refine List.filter_congr fun c _ => ?_
  cases c.headPredicate with
  | none => rfl
  | some p =>
    cases hp : p.agrees q with
    | false => simp [hp]
    | true => simp [hp, Predicate.signature_eq_of_agrees hp]

theorem IsFiled.spares (h : s.IsFiled) (hn : ∀ c ∈ s.clauses, Normal c) {p : Predicate}
    {σ : Substitution} (hp : Normal p) (hσ : σ.Reachable) :
    Spares p σ (s.sharing p) (s.candidates p) := by
  rw [h.candidates_eq_filter]
  refine spares_filter fun c hc hkeep todo => ?_
  have hc : Normal c := hn c (List.mem_filter.1 hc).1
  cases hresolve : Branch.resolve? p c todo σ with
  | none => rfl
  | some b => cases hkeep.symm.trans (Clause.agrees_of_resolve? hp hc hσ.isNormal hresolve)

end Store

/-! ## Searches side by side -/

/-- The same branch, a call perhaps with fewer clauses. -/
inductive Branch.Thinned : Branch → Branch → Prop where
  | goal {todo σ} (hσ : σ.Reachable) : Thinned (.goal todo σ) (.goal todo σ)
  | call {p all few todo σ} (hσ : σ.Reachable) (h : Spares p σ all few) :
    Thinned (.call p all todo σ) (.call p few todo σ)

theorem Branch.thinned_of_resolve? {p : Predicate} {c : Clause} {todo : List Literal}
    {σ : Substitution} {b : Branch} (hσ : σ.Reachable) (h : resolve? p c todo σ = some b) :
    b.Thinned b := by
  have hb := reachable_of_resolve? hσ h
  rw [Interpreter.resolve?_eq_resolvent?] at h
  obtain ⟨r, -, rfl⟩ := Option.map_eq_some_iff.1 h
  exact .goal hb

namespace Search

/-- The second search has the branches of the first with fewer clauses and no fewer steps. -/
structure Thinned (s t : Search) : Prop where
  branches : List.Forall₂ Branch.Thinned s.branches t.branches
  steps : s.steps ≤ t.steps
  cut : s.cut = t.cut

section

variable {s t : Search} {todo : List Literal} {σ : Substitution} {rest : List Branch}

theorem Thinned.goal (h : s.Thinned t) (hb : s.branches = .goal todo σ :: rest) :
    σ.Reachable ∧ ∃ left steps, t = ⟨.goal todo σ :: left, steps, s.cut⟩ ∧
      List.Forall₂ Branch.Thinned rest left ∧ s.steps ≤ steps := by
  obtain ⟨branches, steps, cut⟩ := t
  obtain ⟨hbranches, hsteps, rfl⟩ := h
  rw [hb] at hbranches
  cases hbranches with
  | cons hfirst hrest =>
    cases hfirst with
    | goal hσ => exact ⟨hσ, _, steps, rfl, hrest, hsteps⟩

theorem Thinned.call {p : Predicate} {all : List Clause} (h : s.Thinned t)
    (hb : s.branches = .call p all todo σ :: rest) :
    σ.Reachable ∧ ∃ few left steps, t = ⟨.call p few todo σ :: left, steps, s.cut⟩ ∧
      Spares p σ all few ∧ List.Forall₂ Branch.Thinned rest left ∧ s.steps ≤ steps := by
  obtain ⟨branches, steps, cut⟩ := t
  obtain ⟨hbranches, hsteps, rfl⟩ := h
  rw [hb] at hbranches
  cases hbranches with
  | cons hfirst hrest =>
    cases hfirst with
    | call hσ hspares => exact ⟨hσ, _, _, steps, rfl, hspares, hrest, hsteps⟩

end

section

variable {all few : Lookup}
  (hspares : ∀ (p : Predicate) (σ : Substitution), Normal p → σ.Reachable → Spares p σ (all p) (few p))

include hspares

/-- To its next answer a search that is not cut is followed by one with fewer clauses. -/
theorem next_thinned {s t : Search} (h : s.Thinned t) (hcut : (s.next all).2.cut = false) :
    (t.next few).1 = (s.next all).1 ∧ (s.next all).2.Thinned (t.next few).2 := by
  fun_induction next all s generalizing t with
  | case1 s hb =>
    have hbranches := h.branches
    obtain ⟨branches, steps, cut⟩ := t
    rw [hb] at hbranches
    cases hbranches
    rw [next_nil]
    exact ⟨rfl, h⟩
  | case2 s p todo σ rest hb _ ih =>
    obtain ⟨hσ, few, left, steps, rfl, hclauses, hrest, hsteps⟩ := h.call hb
    cases hclauses
    rw [next_exhausted]
    exact ih ⟨hrest, hsteps, rfl⟩ hcut
  | case3 s p c left todo σ rest hb h0 => cases hcut
  | case4 s p c clauses todo σ rest hb h0 _ ih =>
    obtain ⟨hσ, few, left, steps, rfl, hclauses, hrest, hsteps⟩ := h.call hb
    cases hclauses with
    | kept hclauses =>
      obtain ⟨n, rfl⟩ : ∃ n, steps = n + 1 := ⟨steps - 1, by omega⟩
      rw [next_tried]
      refine ih ⟨?_, Nat.sub_le_of_le_add hsteps, rfl⟩ hcut
      refine List.rel_append ?_ (.cons (.call hσ hclauses) hrest)
      cases hresolve : Branch.resolve? p c todo σ with
      | none => exact .nil
      | some b => exact .cons (Branch.thinned_of_resolve? hσ hresolve) .nil
    | spared hnone hclauses =>
      -- the attempt fails, so the first search comes to the rest of its clauses and the second stays
      refine ih ⟨?_, Nat.le_trans (Nat.sub_le _ _) hsteps, rfl⟩ hcut
      show List.Forall₂ Branch.Thinned
        ((Branch.resolve? p c todo σ).toList ++ .call p clauses todo σ :: rest) _
      rw [hnone todo]
      exact .cons (.call hσ hclauses) hrest
  | case5 s σ rest hb =>
    obtain ⟨hσ, left, steps, rfl, hrest, hsteps⟩ := h.goal hb
    rw [next_answer]
    exact ⟨rfl, hrest, hsteps, rfl⟩
  | case6 s a todo σ rest hb c hc hnone _ ih =>
    obtain ⟨hσ, left, steps, rfl, hrest, hsteps⟩ := h.goal hb
    rw [next_compare hc, hnone]
    exact ih ⟨hrest, hsteps, rfl⟩ hcut
  | case7 s a todo σ rest hb c hc τ hτ _ ih =>
    obtain ⟨hσ, left, steps, rfl, hrest, hsteps⟩ := h.goal hb
    rw [next_compare hc, hτ]
    exact ih ⟨.cons (.goal (Comparison.reachable_of_solution? hσ hτ)) hrest, hsteps, rfl⟩ hcut
  | case8 s a todo σ rest hb p hp hbuilt _ ih =>
    obtain ⟨hσ, left, steps, rfl, hrest, hsteps⟩ := h.goal hb
    rw [next_true hp hbuilt]
    exact ih ⟨.cons (.goal hσ) hrest, hsteps, rfl⟩ hcut
  | case9 s a todo σ rest hb p hp hbuilt _ ih =>
    obtain ⟨hσ, left, steps, rfl, hrest, hsteps⟩ := h.goal hb
    rw [next_fail hp hbuilt]
    exact ih ⟨hrest, hsteps, rfl⟩ hcut
  | case10 s a todo σ rest hb p hp hbuilt _ ih =>
    obtain ⟨hσ, left, steps, rfl, hrest, hsteps⟩ := h.goal hb
    have hnormal : Normal (Atom.predicate p) := hp ▸ Substitution.normal_apply hσ.isNormal a
    rw [next_call hp hbuilt]
    exact ih ⟨.cons (.call hσ (hspares p σ hnormal hσ)) hrest, hsteps, rfl⟩ hcut
  | case11 s g todo σ rest hb _ answer inner hnext hb' ihin ih =>
    obtain ⟨hσ, left, steps, rfl, hrest, hsteps⟩ := h.goal hb
    -- the search goes on with the flag of the nested one, so neither is cut
    have hresumed := uncut_of_next hcut
    have hinner : inner.cut = false := hresumed
    have hin := ihin (t := ⟨[.goal g (σ.addVariables g)], steps, s.cut⟩)
      ⟨.cons (.goal (.addVariables g hσ)) .nil, hsteps, rfl⟩ (by rw [hnext]; exact hinner)
    rw [hnext] at hin
    rw [next_not]
    generalize next few ⟨[.goal g (σ.addVariables g)], steps, s.cut⟩ = r at hin ⊢
    obtain ⟨answer', inner'⟩ := r
    obtain ⟨rfl, hleft⟩ : answer' = answer ∧ inner.Thinned inner' := hin
    rw [dite_eq_ite] at ih
    refine ih ⟨?_, ?_, hleft.cut⟩ hcut
    · show List.Forall₂ Branch.Thinned (if answer'.isSome then rest else .goal todo σ :: rest)
        (if answer'.isSome then left else .goal todo σ :: left)
      by_cases hfound : answer'.isSome = true
      · rw [if_pos hfound, if_pos hfound]
        exact hrest
      · rw [if_neg hfound, if_neg hfound]
        exact .cons (.goal hσ) hrest
    · have hle := hleft.steps
      show min s.steps inner.steps ≤ min steps inner'.steps
      omega

theorem rest_thinned {s t : Search} (h : s.Thinned t) (hcut : (s.rest all).2.cut = false) :
    (t.rest few).1 = (s.rest all).1 ∧ (s.rest all).2.Thinned (t.rest few).2 := by
  fun_induction Search.rest all s generalizing t with
  | case1 s u hnext =>
    have hstep := next_thinned hspares h (by rw [hnext]; exact hcut)
    rw [hnext] at hstep
    cases hfew : next few t with
    | mk answer v =>
      rw [hfew] at hstep
      obtain ⟨rfl, hu⟩ : answer = none ∧ u.Thinned v := hstep
      rw [rest_of_next_none hfew]
      exact ⟨rfl, hu⟩
  | case2 s σ u hnext _ more ended hrest ih =>
    have hu : u.cut = false := uncut_of_rest (by rw [hrest]; exact hcut)
    have hstep := next_thinned hspares h (by rw [hnext]; exact hu)
    rw [hnext] at hstep
    cases hfew : next few t with
    | mk answer v =>
      rw [hfew] at hstep
      obtain ⟨rfl, huv⟩ : answer = some σ ∧ u.Thinned v := hstep
      rw [hrest] at ih
      obtain ⟨hmore, hended⟩ := ih huv hcut
      rw [rest_of_next_some hfew, hmore]
      exact ⟨rfl, hended⟩

end

end Search

/-- Where the search through all clauses of a name and arity is not cut, the search through the index
gives the same answers in the same order, is not cut either and has spent no more steps. -/
theorem Store.answersFrom_sharing {s : Store} (hs : s.Reachable) (hn : ∀ c ∈ s.clauses, Normal c)
    {σ : Substitution} (hσ : σ.Reachable) (g : Goal) (steps : Nat)
    (h : (g.answersFrom s.sharing steps σ none).2.cut = false) :
    (g.answersFrom s.candidates steps σ none).1 = (g.answersFrom s.sharing steps σ none).1 ∧
      (g.answersFrom s.candidates steps σ none).2.cut = false ∧
      (g.answersFrom s.sharing steps σ none).2.steps ≤ (g.answersFrom s.candidates steps σ none).2.steps := by
  have hstart : (Search.start g σ steps).Thinned (Search.start g σ steps) :=
    ⟨.cons (.goal (.addVariables g hσ)) .nil, Nat.le_refl _, rfl⟩
  obtain ⟨hanswers, hended⟩ :=
    Search.rest_thinned (fun p σ hp hσ => hs.isFiled.spares hn hp hσ) hstart h
  exact ⟨congrArg g.restricted hanswers, hended.cut.symm.trans h, hended.steps⟩

/-- For the call `p(b)` the index spares the fact `p(a)`. -/
theorem Store.answersFrom_sharing_facts :
    let a := Clause.fact (.predicate ⟨"p", [.symbol "a"]⟩)
    let b := Clause.fact (.predicate ⟨"p", [.symbol "b"]⟩)
    let call : Predicate := ⟨"p", [.symbol "b"]⟩
    let g : Goal := [.atom (.predicate call)]
    ∃ s : Store, s.sharing call = [a, b] ∧ s.candidates call = [b] ∧
      (g.answersFrom s.sharing 2 Substitution.empty none).2.cut = false ∧
      (g.answersFrom s.candidates 2 Substitution.empty none).1 =
        (g.answersFrom s.sharing 2 Substitution.empty none).1 ∧
      (g.answersFrom s.candidates 2 Substitution.empty none).2.cut = false := by
  intro a b call g
  obtain ⟨s, hs, hclauses⟩ : ∃ s, Store.Reachable s ∧ s.clauses = [a, b] :=
    Store.exists_clauses (by decide) (by decide)
  have hsharing : s.sharing call = [a, b] := by
    rw [sharing, hclauses]
    decide
  have hcandidates : s.candidates call = [b] := by
    rw [hs.isFiled.candidates_eq, hclauses]
    decide
  have hn : ∀ c ∈ s.clauses, Normal c := by
    rw [hclauses]
    decide
  have hcut : (g.answersFrom s.sharing 2 Substitution.empty none).2.cut = false := by
    have hcall : Search.next s.sharing (Search.start g Substitution.empty 2) =
        Search.next s.sharing
          ⟨[.call call (s.sharing call) [] (Substitution.empty.addVariables g)], 2, false⟩ :=
      Search.next_call rfl rfl
    show (Search.rest s.sharing (Search.start g Substitution.empty 2)).2.cut = false
    rw [Search.rest_congr hcall, hsharing]
    exact (Search.rest_facts (by decide) (Nat.le_refl 2)).1
  obtain ⟨hanswers, hsame, -⟩ := answersFrom_sharing hs hn .empty g 2 hcut
  exact ⟨s, hsharing, hcandidates, hcut, hanswers, hsame⟩

end Horn
