import Horn.Proofs.Entailment

/-!
The bottom clause leaves out no answer.  Each round calls every body mode with all tuples of the terms
that the round before produced, so a ground answer of such a call has its lifted atom in the body.  The
terms that a round produces replace those available before, and tuples that mix them are not called.
-/

namespace Horn

namespace BottomClause

/-- A ground answer to a call that counts all its answers, of one of the modes and with terms that are
all available at first, or that were all produced in one round but the last. -/
def IsAnswer (lookup : Lookup) (options : Options) (modes : List Mode) (first : List Term)
    (f : Finding) : Prop :=
  ∃ m ∈ modes, ∃ r < options.i, ∃ inputs : List Term, inputs.length = m.width ∧
    (∀ t ∈ inputs, t ∈ Saturation.pool lookup options modes first r) ∧
    m.IsWhole lookup options inputs ∧ ∃ steps terms, terms ∈ (m.call lookup steps inputs).1 ∧
      (∀ t ∈ terms, isGround t = true) ∧ f = ⟨m.template, terms⟩

theorem IsAnswer.mem_findings {lookup : Lookup} {options : Options} {modes : List Mode}
    {first : List Term} {f : Finding} (h : IsAnswer lookup options modes first f) :
    f ∈ Saturation.findings lookup options modes options.i first := by
  obtain ⟨m, hm, r, hr, inputs, hlength, hinputs, hwhole, steps, terms, hterms, hground, rfl⟩ := h
  refine Saturation.mem_findings.2 ⟨r, hr, Saturation.mem_round.2 ⟨m, hm, ?_⟩⟩
  exact Mode.mem_findings.2 ⟨rfl, hground, inputs, hlength, hinputs, hwhole.mem_answers hterms⟩

/-- The bottom clause has the lifted atom of every ground answer to a call of a permitted body mode
with terms that are all inputs of the head, or that were all produced in one round but the last.  In
the lifting no two terms of the head and of the answers have the same variable. -/
theorem ofExample_most_specific {c : Clause} {modes : ModeTable} {background : LayeredStore}
    {options : Options} {b : BottomClause} {p : Predicate} (hp : c.headPredicate = some p)
    (hground : isGround p = true) (h : ofExample c modes background options = .ok b) :
    ∃ hm facts k, modes.headMode p.signature = .ok hm ∧
      Store.ofClauses (c.body.map Clause.fact) = .ok facts ∧ b = k.bottom ∧
      k.head.template = hm.headTemplate p ∧ k.head.fact = Valuation.identity.apply p ∧
      let answer := IsAnswer (lookupOf background facts) options (modes.bodyModesFor hm) (start k)
      (∀ f, answer f → .predicate (f.atom k.name) ∈ b.clause.body) ∧
        ∀ f g, f = k.head ∨ answer f → g = k.head ∨ answer g → ∀ t u, f.Lifts t → g.Lifts u →
          k.name t = k.name u → t = u := by
  obtain ⟨hm, facts, k, hmode, hfacts, htemplate, hfact, hk⟩ := exists_composition hp hground h
  refine ⟨hm, facts, k, hmode, hfacts, hk.bottom, htemplate, hfact, fun f hf => ?_, ?_⟩
  · obtain ⟨g, hg, heq⟩ := hk.recorded f hf.mem_findings
    rw [hk.bottom, ← heq]
    exact List.mem_map_of_mem hg
  · have hnamed : ∀ f, f = k.head ∨ IsAnswer (lookupOf background facts) options
        (modes.bodyModesFor hm) (start k) f → ∀ t, f.Lifts t → k.Named t := by
      rintro f (rfl | hf) t ht
      · exact ⟨k.head, List.mem_cons_self, ht⟩
      · exact hk.named f hf.mem_findings t ht
    exact fun f g hf hg t u ht hu => k.name_inj (hnamed f hf t ht) (hnamed g hg u hu)

end BottomClause

namespace Sample

section

variable {stored : Store}
  (hstored : Store.ofClauses ((clause facts).body.map Clause.fact) = .ok stored)

include hstored

theorem isWhole {m : Mode} (hm : m ∈ [next, pair]) (inputs : List Term) :
    m.IsWhole (BottomClause.lookupOf ⟨[]⟩ stored) .default inputs := by
  have hmode : m.atom.name ∉ ["true", "fail", "false"] ∧
      facts.length ≤ m.recall.limit Options.default.maxRecall := by
    revert m
    decide
  exact Mode.isWhole_of_holds ((holds ground_facts hstored).holdsFor _) hmode.1 (by decide) hmode.2

theorem mem_call {m : Mode} (hm : m ∈ [next, pair]) :
    [x, y] ∈ (m.call (BottomClause.lookupOf ⟨[]⟩ stored) Options.default.h
      (⟨m.template, [x, y]⟩ : Finding).inputs).1 := by
  have hheld := holds ground_facts hstored
  rcases List.mem_pair.1 hm with rfl | rfl
  · exact (next.mem_call_iff (hheld.holdsFor _) (by decide) (by decide) rfl (by decide)).2
      (and_left_comm.1 ⟨rfl, (Mode.fits_flat (hheld.holdsFor _) rfl).2 ⟨rfl, by decide⟩⟩)
  · exact (pair.mem_call_iff (hheld.holdsFor _) (by decide) (by decide) rfl (by decide)).2
      (and_left_comm.1 ⟨rfl, (Mode.fits_flat (hheld.holdsFor _) rfl).2 ⟨rfl, by decide⟩⟩)

end

/-- The answer to the call of `q` with the input of the head is in the bottom clause, with different
variables for its two terms. -/
theorem ofExample_finds_next :
    (clause facts).headPredicate = some head ∧ isGround head = true ∧
      ∃ (b : BottomClause) (v w : Var),
        BottomClause.ofExample (clause facts) modes ⟨[]⟩ .default = .ok b ∧ v ≠ w ∧
          .predicate ⟨"q", [.var v, .var w]⟩ ∈ b.clause.body := by
  obtain ⟨b, hb⟩ := exists_bottom_facts
  obtain ⟨m, stored, k, hm, hstored, hbottom, htemplate, hfact, hfinds, hapart⟩ :=
    BottomClause.ofExample_most_specific (p := head) rfl rfl hb
  obtain rfl : mode .head "p" [.input] = m := Except.ok.inj hm
  have hstart : ∀ t ∈ [x], t ∈ BottomClause.start k := fun t ht => by
    rwa [BottomClause.mem_start, inputs_head htemplate hfact]
  have hanswer : BottomClause.IsAnswer (BottomClause.lookupOf ⟨[]⟩ stored) .default
      (modes.bodyModesFor (mode .head "p" [.input])) (BottomClause.start k)
      ⟨next.template, [x, y]⟩ :=
    ⟨next, List.mem_cons_self, 0, by decide, [x], rfl, hstart, isWhole hstored List.mem_cons_self _, _,
      [x, y], mem_call hstored List.mem_cons_self, by decide, rfl⟩
  have hproper : (⟨next.template, [x, y]⟩ : Finding).IsProper :=
    ((Mode.fits_flat ((holds ground_facts hstored).holdsFor _) rfl).2 ⟨rfl, by decide⟩).1
  have hatom : (⟨next.template, [x, y]⟩ : Finding).atom k.name =
      ⟨"q", [.var (k.name x), .var (k.name y)]⟩ := hproper.fill_of_flat rfl _
  have hx : (⟨next.template, [x, y]⟩ : Finding).Lifts x := Finding.lifts_iff.2 (.inl (by decide))
  have hy : (⟨next.template, [x, y]⟩ : Finding).Lifts y := Finding.lifts_iff.2 (.inr (by decide))
  refine ⟨rfl, rfl, b, k.name x, k.name y, hb, fun hname => ?_, hatom ▸ hfinds _ hanswer⟩
  have heq := hapart _ _ (.inr hanswer) (.inr hanswer) x y hx hy hname
  exact absurd heq (by decide)

section

variable {stored : Store}
  (hstored : Store.ofClauses ((clause facts).body.map Clause.fact) = .ok stored)

include hstored

/-- What a call finds has the terms of the facts and takes its inputs from those available. -/
theorem eq_of_mem_findings {m : Mode} (hm : m ∈ [next, pair]) {available : List Term}
    (havailable : ∀ t ∈ available, isGround t = true ∧ t.isNormal = true) {f : Finding}
    (hf : f ∈ m.findings (BottomClause.lookupOf ⟨[]⟩ stored) .default available) :
    f = ⟨m.template, [x, y]⟩ ∧ ∀ t ∈ (⟨m.template, [x, y]⟩ : Finding).inputs, t ∈ available := by
  have hheld := holds ground_facts hstored
  obtain ⟨template, terms⟩ := f
  have hspec : template = m.template ∧ terms = [x, y] ∧
      ∀ t ∈ (⟨template, terms⟩ : Finding).inputs, t ∈ available := by
    rcases List.mem_pair.1 hm with rfl | rfl
    · obtain ⟨htemplate, -, hterms, hinputs⟩ := (next.mem_findings_flat (hheld.holdsFor _) (by decide) rfl
        (by decide) (by decide) havailable).1 hf
      exact ⟨htemplate, by simpa [facts, next, mode] using hterms, hinputs⟩
    · obtain ⟨htemplate, -, hterms, hinputs⟩ := (pair.mem_findings_flat (hheld.holdsFor _) (by decide) rfl
        (by decide) (by decide) havailable).1 hf
      exact ⟨htemplate, by simpa [facts, pair, mode] using hterms, hinputs⟩
  obtain ⟨rfl, rfl, hinputs⟩ := hspec
  exact ⟨rfl, hinputs⟩

/-- The second term of the facts is all that any round produces, so no round has both terms. -/
theorem not_available (n : Nat) :
    ∃ t ∈ [x, y], t ∉ Saturation.pool (BottomClause.lookupOf ⟨[]⟩ stored) .default [next, pair] [x]
      n := by
  have hground : ∀ t ∈ [x], isGround t = true ∧ t.isNormal = true := by decide
  cases n with
  | zero =>
    have hy : y ∉ [x] := by decide
    exact ⟨y, by decide, hy⟩
  | succ n =>
    refine ⟨x, by decide, fun hx => ?_⟩
    obtain ⟨f, hf, hx⟩ := Saturation.mem_pool_succ.1 hx
    obtain ⟨m, hm, hf⟩ := Saturation.mem_round.1 hf
    rw [(eq_of_mem_findings hstored hm (Saturation.ground_pool hground n) hf).1] at hx
    have houtputs : ∀ m ∈ [next, pair], x ∉ (⟨m.template, [x, y]⟩ : Finding).outputs := by decide
    exact houtputs m hm hx

theorem available_second : y ∈ Saturation.pool (BottomClause.lookupOf ⟨[]⟩ stored) .default
    [next, pair] [x] 1 := by
  have hfound : ⟨next.template, [x, y]⟩ ∈
      next.findings (BottomClause.lookupOf ⟨[]⟩ stored) .default [x] :=
    Mode.mem_findings.2 ⟨rfl, by decide, [x], rfl, fun t ht => ht,
      (isWhole hstored List.mem_cons_self [x]).mem_answers (mem_call hstored List.mem_cons_self)⟩
  exact Saturation.mem_pool_succ.2 ⟨_, Saturation.mem_round.2 ⟨next, List.mem_cons_self, hfound⟩,
    by decide⟩

/-- No round finds the fact that takes both terms. -/
theorem findings_without_pair {f : Finding} (hf : f ∈ Saturation.findings
    (BottomClause.lookupOf ⟨[]⟩ stored) .default [next, pair] Options.default.i [x]) :
    f.template.atom.name ≠ "r" := by
  have hground : ∀ t ∈ [x], isGround t = true ∧ t.isNormal = true := by decide
  obtain ⟨r, -, hf⟩ := Saturation.mem_findings.1 hf
  obtain ⟨m, hm, hf⟩ := Saturation.mem_round.1 hf
  obtain ⟨rfl, hinputs⟩ := eq_of_mem_findings hstored hm (Saturation.ground_pool hground r) hf
  obtain ⟨t, ht, hnot⟩ := not_available hstored r
  rcases List.mem_pair.1 hm with rfl | rfl
  · show "q" ≠ "r"
    decide
  · exact absurd (hinputs t ht) hnot

end

/-- The call of `r` with the head's input and the term that the first round produces has an answer, and
no call is cut, but the bottom clause has no atom of `r`. -/
theorem ofExample_misses_mixed_inputs : ∃ b stored k,
    BottomClause.ofExample (clause facts) modes ⟨[]⟩ .default = .ok b ∧
      Store.ofClauses ((clause facts).body.map Clause.fact) = .ok stored ∧ b = k.bottom ∧
      k.head.template = (mode .head "p" [.input]).headTemplate head ∧
      k.head.fact = Valuation.identity.apply head ∧
      (∀ m ∈ modes.bodyModesFor (mode .head "p" [.input]), ∀ inputs : List Term,
        m.IsWhole (BottomClause.lookupOf ⟨[]⟩ stored) .default inputs) ∧
      pair ∈ modes.bodyModesFor (mode .head "p" [.input]) ∧
      x ∈ k.head.inputs ∧ 1 < Options.default.i ∧
      y ∈ Saturation.pool (BottomClause.lookupOf ⟨[]⟩ stored) .default
        (modes.bodyModesFor (mode .head "p" [.input])) (BottomClause.start k) 1 ∧
      [x, y] ∈ (pair.call (BottomClause.lookupOf ⟨[]⟩ stored) Options.default.h [x, y]).1 ∧
      (∀ t ∈ [x, y], isGround t = true) ∧
      ∀ q, .predicate q ∈ b.clause.body → q.name ≠ "r" := by
  obtain ⟨b, hb⟩ := exists_bottom_facts
  obtain ⟨m, stored, k, hm, hstored, htemplate, hfact, hk⟩ :=
    BottomClause.exists_composition (p := head) rfl rfl hb
  obtain rfl : mode .head "p" [.input] = m := Except.ok.inj hm
  have hinputs : k.head.inputs = [x] := inputs_head htemplate hfact
  have hstart : BottomClause.start k = [x] := by
    rw [BottomClause.start, hinputs]
    rfl
  have hmissing : ∀ q, .predicate q ∈ b.clause.body → q.name ≠ "r" := by
    intro q hq
    rw [hk.bottom] at hq
    obtain ⟨f, hf, heq⟩ := List.mem_map.1 hq
    obtain rfl := Atom.predicate.inj heq
    exact findings_without_pair hstored (hstart ▸ hk.found f hf)
  refine ⟨b, stored, k, hb, hstored, hk.bottom, htemplate, hfact, fun m hm => isWhole hstored hm,
    List.mem_cons_of_mem _ List.mem_cons_self, hinputs ▸ List.mem_singleton_self x, by decide, ?_,
    mem_call hstored (List.mem_cons_of_mem _ List.mem_cons_self), by decide, hmissing⟩
  rw [hstart]
  exact available_second hstored

end Sample
end Horn
