import Horn.Proofs.SortingLearner

/-!
The positive examples that an induction reports.  An example is reported when its own turn leaves it
uncovered, and is not looked at again.  So besides the examples that are uncovered at the end those are
reported that a clause found later covers, and every example when no turn is allowed.
-/

namespace Horn
namespace Learner

/-- An example that is reported, and that a clause found after that covers. -/
def IsOvertaken (l : Learner) (positives : List Clause) (e : Clause) : Prop :=
  ∃ s space hyp, l.Finds positives s space hyp ∧ e ∈ s.uncovered ∧
    space.accepts hyp.clause e = true

section

variable {l : Learner} {positives left others : List Clause} {n : Nat} {s t : State}
  {seed e : Clause}

/-- What follows from the learned clauses follows from more of them. -/
theorem isDerived_mono (hbg : l.background.IsFiled) {learned more : Store} (hlearned : learned.IsFiled)
    (hmore : more.IsFiled) (hsub : ∀ c ∈ learned.clauses, c ∈ more.clauses)
    (he : e.IsDerived (l.knowledge learned).candidates) :
    e.IsDerived (l.knowledge more).candidates := by
  refine he.mono ((isFiled_knowledge hbg hlearned).candidates_mono (isFiled_knowledge hbg hmore)
    fun c hc => ?_)
  rw [mem_clauses_knowledge] at hc ⊢
  exact hc.imp_left (hsub c)

/-- An example is left, reported, or follows from what is learned. -/
theorem Stage.accounted (hbg : l.background.IsFiled) (hs : l.Stage positives n left s)
    (he : e ∈ positives) :
    e ∈ left ∨ e ∈ s.uncovered ∨ e.IsDerived (l.knowledge s.learned).candidates := by
  induction hs with
  | start => exact .inl he
  | @turn n seed others left s t before turned ih =>
    obtain ⟨-, hleft, huncovered⟩ := turn_eq_ok turned
    by_cases hcovers : l.covers t.learned e = true
    · exact .inr (.inr (Clause.isDerived_of_isCovered hcovers))
    obtain ⟨ht, hclauses, hreported⟩ := turn_mono before.isFiled turned
    rcases ih with hwaiting | hold | hderived
    · rcases List.mem_cons.1 hwaiting with rfl | hothers
      · rw [huncovered, if_neg hcovers]
        exact .inr (.inl (List.mem_append_right _ (List.mem_singleton_self e)))
      · rw [hleft]
        exact .inl (List.mem_filter.2 ⟨hothers, by simpa using hcovers⟩)
    · exact .inr (.inl (hreported e hold))
    · exact .inr (.inr (isDerived_mono hbg before.isFiled ht hclauses hderived))

/-- What was reported is not covered unless a clause found later covers it, or the test of that clause is
cut. -/
theorem Stage.reported (hbg : l.background.IsFiled)
    (htested : ∀ s space hyp, l.Finds positives s space hyp → space.Decides hyp.clause e)
    (hs : l.Stage positives n left s) (he : e ∈ s.uncovered) :
    l.IsOvertaken positives e ∨ l.covers s.learned e = false := by
  induction hs with
  | start => cases he
  | @turn n seed others left s t before turned ih =>
    obtain ⟨-, -, huncovered⟩ := turn_eq_ok turned
    have hold : e ∈ s.uncovered → l.IsOvertaken positives e ∨ l.covers t.learned e = false := by
      intro he
      obtain hsame | ⟨space, hyp, isNew, hfinds, hnew⟩ := before.learned_cases turned
      · rw [hsame]
        exact ih he
      cases haccepts : space.accepts hyp.clause e with
      | true => exact .inl ⟨s, space, hyp, hfinds, he, haccepts⟩
      | false =>
        exact .inr (covers_eq_false
          (hfinds.not_isDerived hbg hnew (htested s space hyp hfinds) haccepts))
    rw [huncovered] at he
    split at he
    · exact hold he
    · rename_i hseed
      rcases List.mem_append.1 he with he | he
      · exact hold he
      · rw [List.mem_singleton.1 he]
        exact .inr (by simpa using hseed)

/-- After a turn the examples left are not covered. -/
theorem Stage.waiting (hs : l.Stage positives n left s) :
    n = l.options.maxClauses ∧ left = positives ∨ ∀ e ∈ left, l.covers s.learned e = false := by
  cases hs with
  | start => exact .inl ⟨rfl, rfl⟩
  | turn before turned =>
    obtain ⟨-, hleft, -⟩ := turn_eq_ok turned
    refine .inr fun e he => ?_
    rw [hleft] at he
    simpa using (List.mem_filter.1 he).2

/-- What a clause found later covers stays reported, and follows from what is learned at the end. -/
theorem IsOvertaken.spec (hbg : l.background.IsFiled) (he : l.IsOvertaken positives e)
    {r : Induction} (h : l.induce positives = .ok r) {store : Store} (hstore : store.IsFiled)
    (hlearned : r.learned = store.clauses) :
    e ∈ r.uncovered ∧ e.IsDerived (l.knowledge store).candidates := by
  obtain ⟨s, space, hyp, hfinds, hreported, haccepts⟩ := he
  obtain ⟨isNew, after, last, hadd, hlast, huncovered, -, hclauses, hkept⟩ := hfinds.exists_end h
  refine ⟨huncovered ▸ hkept e hreported, ?_⟩
  refine isDerived_mono hbg (hfinds.isFiled.add hadd) hstore (fun c hc => ?_)
    (hfinds.isDerived hbg hadd haccepts)
  rw [← hlearned, hlast]
  exact hclauses c hc

/-- Where the tests of an example are not cut it is reported if it is not covered at the end; and one
that is covered is reported as well exactly when a clause found after its report covers it, or when the
induction is allowed no turn. -/
theorem induce_reports (hbg : ∀ layer ∈ l.background.layers, layer.store.Reachable)
    {r : Induction} (h : l.induce positives = .ok r) :
    ∃ store, Store.ofClauses r.learned = .ok store ∧ ∀ e ∈ positives,
      (∀ s space hyp, l.Finds positives s space hyp → space.Decides hyp.clause e) →
      e.IsDecided (l.knowledge store).candidates l.options.h →
        (l.covers store e = false → e ∈ r.uncovered) ∧
        (l.covers store e = true →
          (e ∈ r.uncovered ↔ l.options.maxClauses = 0 ∨ l.IsOvertaken positives e)) := by
  obtain ⟨n, left, s, hs, hend, hlearned, huncovered⟩ := exists_stage_of_induce h
  have hfiled : l.background.IsFiled := fun layer hlayer => (hbg layer hlayer).isFiled
  refine ⟨s.learned, hlearned ▸ hs.isReplayed, fun e he htested hdecided =>
    ⟨fun hno => ?_, fun hcovered => ⟨fun hreported => ?_, fun hwhy => ?_⟩⟩⟩
  · rw [huncovered, List.mem_append]
    rcases hs.accounted hfiled he with hleft | hreported | hderived
    · exact .inr hleft
    · exact .inl hreported
    · rw [covers, hdecided.isCovered_iff.2 hderived] at hno
      cases hno
  · rw [huncovered] at hreported
    rcases List.mem_append.1 hreported with hreported | hleft
    · refine (hs.reported hfiled htested hreported).elim .inr fun hno => ?_
      rw [hno] at hcovered
      cases hcovered
    · rcases hs.waiting with ⟨rfl, -⟩ | hwaiting
      · refine .inl (hend.resolve_right fun hnil => ?_)
        rw [hnil] at hleft
        cases hleft
      · rw [hwaiting e hleft] at hcovered
        cases hcovered
  · rcases hwhy with hzero | hovertaken
    · obtain ⟨t, hturns, -, hreported⟩ := turns_of_induce h
      rw [hzero, turns_zero] at hturns
      obtain rfl := Except.ok.inj hturns
      rw [hreported]
      exact he
    · exact (hovertaken.spec hfiled h hs.isFiled hlearned).1

end

/-- The last turn for the two kinds finds a clause when `c` has been reported. -/
theorem finds_kinds {background : LayeredStore} (h : background.Stores kinds) :
    ∃ s space hyp, (kindsLearner background).Finds kindsExamples s space hyp ∧
      s.uncovered = [said "p" "c"] := by
  obtain ⟨v, w, s₁, s₂, s₃, hturn₁, hknows₁, -, hturn₂, hsame, hreported, hturn₃, hknows₃, -⟩ :=
    turns_kinds h
  obtain ⟨⟨space, log, hspace, hcases⟩, -, -⟩ := turn_eq_ok hturn₃
  obtain ⟨-, hkept⟩ | ⟨hyp, -, hrun, -⟩ := hcases
  · have hlength := congrArg List.length hknows₃.clauses
    rw [hkept, hsame, hknows₁.clauses] at hlength
    cases hlength
  · exact ⟨s₂, space, hyp, ⟨0, _, _, log, .turn (.turn .start hturn₁) hturn₂, hspace, hrun⟩, hreported⟩

/-- Of the members of the class `c` is reported, which is not covered, and the clause found after that
does not cover it; the others are covered. -/
theorem kinds_reported : ∃ background : LayeredStore,
    (∀ layer ∈ background.layers, layer.store.Reachable) ∧ background.Stores kinds ∧
      let l := kindsLearner background
      (∃ s space hyp, l.Finds kindsExamples s space hyp ∧ s.uncovered = [said "p" "c"]) ∧
      ∃ r store, l.induce kindsExamples = .ok r ∧ Store.ofClauses r.learned = .ok store ∧
        r.learned.length = 2 ∧ r.uncovered = [said "p" "c"] ∧
        (∀ e ∈ kindsExamples,
          (∀ s space hyp, l.Finds kindsExamples s space hyp → space.Decides hyp.clause e) ∧
            e.IsDecided (l.knowledge store).candidates l.options.h) ∧
        l.covers store (said "p" "c") = false ∧ said "p" "c" ∈ r.uncovered ∧
        ∀ e ∈ [said "p" "a", said "p" "b"], l.covers store e = true ∧ e ∉ r.uncovered ∧
          ¬ (l.options.maxClauses = 0 ∨ l.IsOvertaken kindsExamples e) := by
  obtain ⟨facts, hreachable, hstores⟩ := kinds.exists_stores (by decide) (by decide)
  refine ⟨_, List.forall_mem_singleton.2 hreachable, hstores, ?_⟩
  intro l
  have hl := sorts_kinds hstores
  obtain ⟨v, w, r, store, hinduce, hlearned, huncovered, hstore, hknows⟩ := induce_kinds hstores
  have hmost : 2 ≤ l.options.maxClauses := (by decide : 2 ≤ kindsOptions.maxClauses)
  obtain ⟨store', hstore', hreports⟩ := induce_reports (l := l)
    (List.forall_mem_singleton.2 hreachable) hinduce
  obtain rfl := Except.ok.inj (hstore.symm.trans hstore')
  have htests : ∀ e ∈ kindsExamples,
      (∀ s space hyp, l.Finds kindsExamples s space hyp → space.Decides hyp.clause e) ∧
        e.IsDecided (l.knowledge store).candidates l.options.h := by
    intro e he
    obtain ⟨thing, -, rfl⟩ := List.mem_map.1 he
    refine ⟨fun s space hyp hfinds => ?_, ?_⟩
    · have hfinds : l.Finds (["a", "c", "b"].map (said kinds.name)) s space hyp := hfinds
      have htraced := hfinds.solution.1
      have hdecides := hfinds.decides hl htraced.choice thing
      have hclause : (space.scored hyp.chosen).clause = hyp.clause := htraced.clause_eq.symm
      rwa [hclause] at hdecides
    · exact (hknows.stores hl).isDecided (hknows.affords hl (show 2 + 0 ≤ _ from hmost)) thing
  have hcovers : ∀ thing, l.covers store (said "p" thing) =
      [(v, ["q"]), (w, ["r"])].any fun r => kinds.hasAll r.2 thing := hknows.covers_eq hl hmost
  have hc : l.covers store (said "p" "c") = false := hcovers "c"
  have hmem : ∀ e ∈ kindsExamples, _ := fun e he => hreports e he (htests e he).1 (htests e he).2
  refine ⟨finds_kinds hstores, r, store, hinduce, hstore, by rw [hlearned]; rfl, huncovered, htests, hc,
    (hmem _ (by decide)).1 hc, ?_⟩
  have hab : ∀ e ∈ [said "p" "a", said "p" "b"], l.covers store e = true :=
    List.forall_mem_cons.2 ⟨hcovers "a", List.forall_mem_singleton.2 (hcovers "b")⟩
  have hexamples : ∀ e ∈ [said "p" "a", said "p" "b"], e ∈ kindsExamples ∧ e ∉ [said "p" "c"] := by decide
  intro e he
  obtain ⟨hexample, hnot⟩ := hexamples e he
  rw [← huncovered] at hnot
  exact ⟨hab e he, hnot, fun hwhy => hnot (((hmem e hexample).2 (hab e he)).2 hwhy)⟩

end Learner
end Horn
