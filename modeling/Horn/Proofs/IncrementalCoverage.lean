import Horn.Proofs.Entailment
import Horn.Proofs.Narrowing

/-!
Coverage counted on the way to a hypothesis, against a count over all the examples.  The two agree
just where what a hypothesis covers is covered by all that it was refined from.
-/

namespace Horn
namespace HypothesisSpace

variable {s : HypothesisSpace}

/-- Refinement appends an atom from the cursor on. -/
theorem exists_of_mem_refine {h h' : Hypothesis} (hmem : h' ∈ s.refine h) :
    ∃ k a, h.cursor ≤ k ∧ s.bottom.body[k]? = some a ∧ h' = s.refined h k a := by
  obtain ⟨j, hj⟩ := List.getElem?_of_mem hmem
  rw [getElem?_refine] at hj
  split at hj
  · cases hj
  · obtain ⟨a, ha, rfl⟩ := Option.map_eq_some_iff.1 hj
    exact ⟨h.cursor + j, a, Nat.le_add_right _ _, ha, rfl⟩

/-- The hypotheses that refinement leads to from the bare head. -/
inductive Reached (s : HypothesisSpace) : Hypothesis → Prop where
  | root {h : Hypothesis} (start : s.root? = some h) : s.Reached h
  | refine {h h' : Hypothesis} (before : s.Reached h) (step : h' ∈ s.refine h) : s.Reached h'

/-- What is reached is a choice of places, scored on the way to it. -/
theorem Reached.spec {h : Hypothesis} (hh : s.Reached h) :
    s.IsChoice h.chosen ∧ h = s.along h.chosen := by
  induction hh with
  | root start =>
    rw [root?_eq] at start
    obtain ⟨-, -, rfl⟩ := Option.map_eq_some_iff.1 start
    exact ⟨isChoice_nil, rfl⟩
  | @refine h h' _ step ih =>
    obtain ⟨hchoice, halong⟩ := ih
    obtain ⟨k, a, hk, ha, rfl⟩ := exists_of_mem_refine step
    have hcursor : h.cursor = nextPlace h.chosen := by
      rw [halong, (along_spec hchoice).2.2.1, ← halong]
    refine ⟨isChoice_append.2 ⟨hchoice, hcursor ▸ hk, (List.getElem?_eq_some_iff.1 ha).1⟩, ?_⟩
    show _ = s.along (h.chosen ++ [k])
    rw [along_append ha, ← halong]

theorem Reached.clause_eq {h : Hypothesis} (hh : s.Reached h) :
    h.clause = (s.scored h.chosen).clause := by
  obtain ⟨hchoice, halong⟩ := hh.spec
  rw [halong, (along_spec hchoice).1, ← halong]
  rfl

/-- The examples counted as covered are all those that the clause covers. -/
structure IsExact (s : HypothesisSpace) (h : Hypothesis) : Prop where
  positives : h.positives = s.covered h.clause s.positives (List.range s.positives.length)
  negatives : h.negatives = s.covered h.clause s.negatives (List.range s.negatives.length)

/-- A count on the way to a choice is a count over all the examples just where coverage narrows. -/
theorem filter_coversAlong_eq_iff (ks : List Nat) (examples : List Clause) :
    (List.range examples.length).filter (s.coversAlong ks examples) =
        s.covered (s.scored ks).clause examples (List.range examples.length) ↔
      ∀ e ∈ examples, s.accepts (s.scored ks).clause e = true →
        ∀ i ≤ ks.length, s.accepts (s.scored (ks.take i)).clause e = true := by
  have hwhole : ∀ e, (∀ i ≤ ks.length, s.accepts (s.scored (ks.take i)).clause e = true) →
      s.accepts (s.scored ks).clause e = true := fun e h => by
    simpa only [List.take_length] using h ks.length (Nat.le_refl _)
  rw [covered_eq_filter]
  constructor
  · intro h e he haccepts
    obtain ⟨place, hplace⟩ := List.getElem?_of_mem he
    have hcovers : s.covers (s.scored ks).clause examples place = true := by
      rw [covers_eq, hplace]
      exact haccepts
    have hmem : place ∈ (List.range examples.length).filter (s.coversAlong ks examples) := by
      rw [h]
      exact List.mem_filter.2 ⟨List.mem_range.2 (List.getElem?_eq_some_iff.1 hplace).1, hcovers⟩
    exact (coversAlong_iff hplace).1 (List.mem_filter.1 hmem).2
  · intro h
    refine List.filter_congr fun place hplace => ?_
    have he := List.getElem?_eq_getElem (List.mem_range.1 hplace)
    rw [Bool.eq_iff_iff, coversAlong_iff he, covers_eq, he]
    exact ⟨hwhole _, h _ (List.getElem_mem _)⟩

/-- Where coverage narrows on the way to a choice, it scores as if it were scored on every example. -/
theorem along_eq_scored {ks : List Nat} (hks : s.IsChoice ks)
    (h : ∀ e ∈ s.positives ++ s.negatives, s.accepts (s.scored ks).clause e = true →
      ∀ i ≤ ks.length, s.accepts (s.scored (ks.take i)).clause e = true) :
    s.along ks = s.scored ks := by
  obtain ⟨hclause, hchosen, hcursor, hmissing, -, -⟩ := along_spec hks
  obtain ⟨hpositives, hnegatives⟩ := covered_along hks
  rw [List.forall_mem_append, ← filter_coversAlong_eq_iff, ← filter_coversAlong_eq_iff,
    ← hpositives, ← hnegatives] at h
  cases hh : s.along ks with
  | mk clause chosen cursor missing positives negatives =>
    rw [hh] at hclause hchosen hcursor hmissing h
    obtain rfl : clause = _ := hclause
    obtain rfl : chosen = ks := hchosen
    obtain rfl : cursor = _ := hcursor
    obtain rfl : missing = _ := hmissing
    exact congrArg₂ (Hypothesis.mk _ _ _ _) h.1 h.2

/-- Coverage is counted exactly just where it narrows on the way, as it does where everything is plain
and no test before the hypothesis is cut. -/
theorem Reached.isExact {h : Hypothesis} (hh : s.Reached h) :
    (s.IsExact h ↔ ∀ e ∈ s.positives ++ s.negatives, s.accepts h.clause e = true →
      ∀ i ≤ h.chosen.length, s.accepts (s.scored (h.chosen.take i)).clause e = true) ∧
    (s.knowledge.IsFiled →
      (∀ c ∈ s.bottom.clause :: s.knowledge.clauses, Normal c ∧ c.IsPlain) →
      (∀ e ∈ s.positives ++ s.negatives, ∀ a, e.head = some a → a.IsPlain) →
      (∀ e ∈ s.positives ++ s.negatives, ∀ i < h.chosen.length,
        s.Decides (s.scored (h.chosen.take i)).clause e) →
      s.IsExact h) := by
  obtain ⟨hchoice, halong⟩ := hh.spec
  obtain ⟨hpositives, hnegatives⟩ := covered_along hchoice
  rw [← halong] at hpositives hnegatives
  have hclause := hh.clause_eq
  have hiff : s.IsExact h ↔ ∀ e ∈ s.positives ++ s.negatives, s.accepts h.clause e = true →
      ∀ i ≤ h.chosen.length, s.accepts (s.scored (h.chosen.take i)).clause e = true := by
    rw [List.forall_mem_append, hclause, ← filter_coversAlong_eq_iff, ← filter_coversAlong_eq_iff,
      ← hclause, ← hpositives, ← hnegatives]
    exact ⟨fun h => ⟨h.positives, h.negatives⟩, fun h => ⟨h.1, h.2⟩⟩
  refine ⟨hiff, fun hfiled hplain hheads huncut => hiff.2 fun e he haccepts i hi => ?_⟩
  rw [hclause] at haccepts
  rcases Nat.lt_or_eq_of_le hi with hlt | rfl
  · exact accepts_take hfiled hplain (hheads e he) haccepts (huncut e he i hlt)
  · rwa [List.take_length]

end HypothesisSpace

namespace Sample

open HypothesisSpace

/-- The fact `q(x)`. -/
def known : Predicate := ⟨"q", [x]⟩

/-- The bottom clause `p(X) :- q(X)`. -/
def lone : BottomClause :=
  let v : Var := .named "X"
  ⟨.rule (.predicate ⟨"p", [.var v]⟩) [.predicate ⟨"q", [.var v]⟩], ⟨[v], []⟩, [⟨[v], []⟩]⟩

/-- Learning from the bottom clause where `p(x)` should hold and `p(y)` should not. -/
def tested (knowledge : LayeredStore) : HypothesisSpace :=
  .make lone knowledge [.fact (.predicate head)] [.fact (.predicate ⟨"p", [y]⟩)] 2 1

section

variable {k : LayeredStore} (hk : k.Holds [known])

include hk

theorem plain_tested : ∀ c ∈ (tested k).bottom.clause :: (tested k).knowledge.clauses,
    Normal c ∧ c.IsPlain := by
  have hlone : Normal lone.clause ∧ lone.clause.IsPlain :=
    ⟨by decide, List.forall_mem_singleton.2 trivial⟩
  refine List.forall_mem_cons.2 ⟨hlone, fun c hc => ?_⟩
  obtain ⟨q, hq, rfl⟩ := (hk.mem c).1 hc
  obtain rfl := List.mem_singleton.1 hq
  exact ⟨by decide, nofun⟩

/-- The test of the bare head is not cut. -/
theorem decides_tested : ∀ e ∈ (tested k).positives ++ (tested k).negatives,
    (tested k).Decides ((tested k).scored []).clause e := by
  have hp : ∀ p : Predicate, p.name = "p" →
      (tested k).Decides ((tested k).scored []).clause (.fact (.predicate p)) := by
    intro p hname t ht
    have hmem := (trial?_spec ht hk.filed).2
    have hfacts : ∀ c ∈ t.clauses, c ∈ [((tested k).scored []).clause, .fact (.predicate known)] := by
      intro c hc
      rcases (hmem c).1 hc with rfl | hc
      · exact List.mem_cons_self
      · obtain ⟨q, hq, rfl⟩ := (hk.mem c).1 hc
        obtain rfl := List.mem_singleton.1 hq
        exact List.mem_cons_of_mem _ List.mem_cons_self
    refine Clause.isDecided_of_facts rfl (by rw [hname]; decide) (fun q c hc => ?_) fun q => ?_
    · rcases List.mem_pair.1 (hfacts c (t.knowledge.within q c hc)) with rfl | rfl <;> rfl
    · exact t.length_candidates_le hfacts q
  exact List.forall_mem_cons.2 ⟨hp _ rfl, List.forall_mem_singleton.2 (hp _ rfl)⟩

end

theorem exists_holds : ∃ k : LayeredStore, k.Holds [known] := by
  have haccepted : ∀ c ∈ [Clause.fact (.predicate known)],
      c.headPredicate.isSome = true ∧ hasPlaceholders c = false :=
    List.forall_mem_singleton.2 ⟨rfl, rfl⟩
  obtain ⟨facts, hfacts⟩ := Store.exists_addAll .empty haccepted
  have hground : ∀ q ∈ [known], isGround q = true ∧ Normal q := by decide
  exact ⟨_, holds hground hfacts⟩

/-- The counts of the only clause longer than the bare head are exact. -/
theorem isExact_tested : ∃ k : LayeredStore, k.Holds [known] ∧ ∃ h, (tested k).Reached h ∧
    h.chosen = [0] ∧ (tested k).IsExact h := by
  obtain ⟨k, hk⟩ := exists_holds
  have hroot : (tested k).Reached ((tested k).scored []) := .root rfl
  have hreached : (tested k).Reached
      ((tested k).refined ((tested k).scored []) 0 (.predicate ⟨"q", [.var (.named "X")]⟩)) :=
    .refine hroot List.mem_cons_self
  have hheads : ∀ p : Predicate, ∀ a, (Clause.fact (.predicate p)).head = some a → a.IsPlain := by
    rintro p a ⟨⟩
    trivial
  refine ⟨k, hk, _, hreached, rfl, hreached.isExact.2 hk.filed (plain_tested hk) ?_ ?_⟩
  · exact List.forall_mem_cons.2 ⟨hheads _, List.forall_mem_singleton.2 (hheads _)⟩
  · intro e he i hi
    obtain rfl : i = 0 := Nat.lt_one_iff.1 hi
    exact decides_tested hk e he

end Sample
end Horn
