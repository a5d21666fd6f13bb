import Horn.Proofs.BottomClauses
import Horn.Proofs.SortingLearner

/-!
Learned clauses and the negative examples.  A search tests a hypothesis only on the negative examples
that the hypotheses on the way to it cover.  Where coverage narrows along the way and no test is cut,
nothing is missed, and no negative example follows from what is learned.
-/

namespace Horn
namespace Learner

variable {l : Learner} {positives : List Clause}

/-- Every hypothesis that is found was reached on a way along which coverage narrows, and no test of
its clause on a negative example is cut. -/
def Checks (l : Learner) (positives : List Clause) : Prop :=
  ∀ s space hyp, l.Finds positives s space hyp →
    space.Narrows hyp.chosen ∧ ∀ e ∈ l.negatives, space.Decides hyp.clause e

/-- Once something is learned no negative example follows from it, since the clause learned last was
tested with all of it. -/
theorem Stage.rejects (hbg : l.background.IsFiled) (hchecks : l.Checks positives) {n : Nat}
    {left : List Clause} {s : State} (hs : l.Stage positives n left s) :
    s.learned.clauses = [] ∨
      ∀ e ∈ l.negatives, ¬ e.IsDerived (l.knowledge s.learned).candidates := by
  refine hs.learned_inv (P := fun learned => learned.clauses = [] ∨
    ∀ e ∈ l.negatives, ¬ e.IsDerived (l.knowledge learned).candidates) (.inl Store.clauses_empty) ?_
  intro s space hyp isNew t hfinds hnew _
  obtain ⟨hnarrow, hdecides⟩ := hchecks s space hyp hfinds
  obtain ⟨htraced, hsol⟩ := hfinds.solution
  refine .inr fun e he => hfinds.not_isDerived hbg hnew (hdecides e he) ?_
  exact htraced.not_accepts hsol hnarrow (hfinds.space_eq.2 ▸ he)

/-! ## Where coverage narrows -/

theorem Finds.relaxes {s : State} {space : HypothesisSpace} {hyp : Hypothesis}
    (h : l.Finds positives s space hyp) : hyp.clause.Relaxes space.bottom.clause := by
  have hclause : hyp.clause = (space.scored hyp.chosen).clause := h.solution.1.clause_eq
  rw [hclause]
  exact HypothesisSpace.relaxes_bottom hyp.chosen

theorem Finds.bottom_spec {s : State} {space : HypothesisSpace} {hyp : Hypothesis}
    (h : l.Finds positives s space hyp) :
    Normal space.bottom.clause ∧ space.bottom.clause.IsPlain := by
  obtain ⟨_, _, _, _, -, hspace, -⟩ := h
  obtain ⟨bottom, hbottom, rfl⟩ := exists_of_map_eq_ok hspace
  exact BottomClause.ofExample_spec hbottom

/-- What is learned are predicates in list normal form. -/
theorem Stage.learned_spec {n : Nat} {left : List Clause} {s : State}
    (hs : l.Stage positives n left s) : ∀ c ∈ s.learned.clauses, Normal c ∧ c.IsPlain := by
  refine hs.learned_inv (P := fun learned => ∀ c ∈ learned.clauses, Normal c ∧ c.IsPlain) ?_ ?_
  · rw [Store.clauses_empty]
    exact nofun
  · intro s space hyp isNew t hfinds hnew hlearned c hc
    rcases (hfinds.isFiled.mem_clauses_add hnew).1 hc with rfl | hc
    · exact hfinds.relaxes.spec hfinds.bottom_spec
    · exact hlearned c hc

/-- When background and negative examples have no comparisons but `=`, coverage narrows wherever the
tests on the way are not cut. -/
theorem checks_of_isPlain (hbg : l.background.IsFiled)
    (hplain : ∀ c ∈ l.background.clauses, Normal c ∧ c.IsPlain)
    (hnegative : ∀ e ∈ l.negatives, ∀ a, e.head = some a → a.IsPlain)
    (hdecides : ∀ s space hyp, l.Finds positives s space hyp → ∀ e ∈ l.negatives,
      ∀ i ≤ hyp.chosen.length, space.Decides (space.scored (hyp.chosen.take i)).clause e) :
    l.Checks positives := by
  intro s space hyp hfinds
  obtain ⟨hknown, hnegatives⟩ := hfinds.space_eq
  have hall : ∀ c ∈ space.bottom.clause :: space.knowledge.clauses, Normal c ∧ c.IsPlain := by
    refine List.forall_mem_cons.2 ⟨hfinds.bottom_spec, fun c hc => ?_⟩
    rw [hknown, mem_clauses_knowledge] at hc
    obtain ⟨_, _, _, _, before, -, -⟩ := hfinds
    exact hc.elim (before.learned_spec c) (hplain c)
  have hfiled : space.knowledge.IsFiled := hknown ▸ isFiled_knowledge hbg hfinds.isFiled
  refine ⟨?_, fun e he => ?_⟩
  · exact HypothesisSpace.narrows_of_isPlain hfiled hall (hnegatives ▸ hnegative)
      (hnegatives ▸ hdecides s space hyp hfinds)
  · have hclause : hyp.clause = (space.scored hyp.chosen).clause := hfinds.solution.1.clause_eq
    have hwhole := hdecides s space hyp hfinds e he hyp.chosen.length (Nat.le_refl _)
    rwa [List.take_length, ← hclause] at hwhole

/-- A learner that sorts things by their attributes misses no negative example. -/
theorem Sorts.checks {k : Classification} {attributes negatives : List String}
    (hl : l.Sorts k attributes negatives) (things : List String) :
    l.Checks (things.map (said k.name)) := by
  refine checks_of_isPlain hl.stores.filed
    (fun c hc => Classification.spec_of_mem ((hl.stores.mem c).1 hc)) ?_ ?_
  · rw [hl.negatives]
    intro e he a ha
    obtain ⟨thing, -, rfl⟩ := List.mem_map.1 he
    obtain rfl := Option.some.inj ha
    trivial
  · intro s space hyp hfinds e he i _
    rw [hl.negatives] at he
    obtain ⟨thing, -, rfl⟩ := List.mem_map.1 he
    exact hfinds.decides hl (hfinds.solution.1.choice.take i) thing

/-! ## The outcome -/

/-- No negative example follows from learned clauses and the background, as far as the search for them
was right that coverage narrows and had steps enough for its tests. -/
theorem induce_consistent (hbg : ∀ layer ∈ l.background.layers, layer.store.Reachable)
    (hchecks : l.Checks positives) {r : Induction} (h : l.induce positives = .ok r)
    (hsome : r.learned ≠ []) :
    ∃ store, Store.ofClauses r.learned = .ok store ∧
      ∀ e ∈ l.negatives, l.covers store e = false := by
  obtain ⟨n, left, s, hs, -, hlearned, -⟩ := exists_stage_of_induce h
  have hfiled : l.background.IsFiled := fun layer hlayer => (hbg layer hlayer).isFiled
  have hrejects := (hs.rejects hfiled hchecks).resolve_left (hlearned ▸ hsome)
  exact ⟨s.learned, hlearned ▸ hs.isReplayed, fun e he => covers_eq_false (hrejects e he)⟩

/-- The two rules learned for the members of a class leave out the thing that must not be of it. -/
theorem kinds_not_covered : ∃ background : LayeredStore,
    (∀ layer ∈ background.layers, layer.store.Reachable) ∧ background.Stores kinds ∧
      (kindsLearner background).Checks kindsExamples ∧
      (kindsLearner background).negatives = [said "p" "d"] ∧
      ∃ v w r, (kindsLearner background).induce kindsExamples = .ok r ∧ r.learned ≠ [] ∧
        r.learned = [sortingRule v "p" ["q"], sortingRule w "p" ["r"]] ∧
        ∃ store, Store.ofClauses r.learned = .ok store ∧
          ∀ e ∈ (kindsLearner background).negatives,
            (kindsLearner background).covers store e = false := by
  obtain ⟨facts, hreachable, hstores⟩ := kinds.exists_stores (by decide) (by decide)
  have hbg : ∀ layer ∈ (LayeredStore.ofStore facts).layers, layer.store.Reachable :=
    List.forall_mem_singleton.2 hreachable
  have hchecks := (sorts_kinds hstores).checks ["a", "c", "b"]
  obtain ⟨v, w, r, -, hinduce, hlearned, -⟩ := induce_kinds hstores
  have hsome : r.learned ≠ [] := by
    rw [hlearned]
    exact List.cons_ne_nil _ _
  exact ⟨_, hbg, hstores, hchecks, rfl, v, w, r, hinduce, hsome, hlearned,
    induce_consistent hbg hchecks hinduce hsome⟩

end Learner
end Horn
