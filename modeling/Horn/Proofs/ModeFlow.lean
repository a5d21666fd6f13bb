import Horn.Proofs.Entailment
import Horn.Proofs.Narrowing

/-!
The flow of variables through learned clauses.  In a bottom clause every input of an atom is provided
by the head or by an earlier atom.  A search asks only that the atoms it chooses provide all that they
take, in whatever order, so an atom may be chosen that is fed by itself.
-/

namespace Horn

/-! ## Estimates -/

namespace Depths

variable {depths : Depths} {vs : List Var} {links : List Link} {n : Nat}

/-- No depth is greater than the given one. -/
def AtMost (depths : Depths) (n : Nat) : Prop := ∀ (v : Var) (d : Nat), depths[v]? = some d → d ≤ n

theorem AtMost.fill (h : depths.AtMost n) : (depths.fill vs n).AtMost n := by
  induction vs generalizing depths with
  | nil => exact h
  | cons v vs ih =>
    have hnext : (if depths.contains v then depths else depths.insert v n).AtMost n → _ := ih
    refine hnext ?_
    split
    · exact h
    · intro w d hd
      rw [Std.TreeMap.getElem?_insert] at hd
      split at hd
      · exact Nat.le_of_eq (Option.some.inj hd).symm
      · exact h w d hd

theorem AtMost.grow (h : depths.AtMost n) (rounds : Nat) :
    (grow links depths n rounds).AtMost (n + rounds) := by
  induction rounds generalizing depths n with
  | zero => exact h
  | succ rounds ih =>
    have hnext : depths.AtMost (n + 1) := fun v d hd => Nat.le_succ_of_le (h v d hd)
    have hfilled : (depths.fill (depths.provided links) (n + 1)).AtMost (n + 1) := hnext.fill
    have hgrown := ih hfilled
    rwa [Nat.add_right_comm] at hgrown

/-- A variable is provided after no more atoms than there are. -/
theorem atMost_ofLinks (head : Link) (links : List Link) :
    (ofLinks head links).AtMost links.length := by
  have hempty : (∅ : Depths).AtMost 0 := fun v d hd => by simp at hd
  have hfilled : ((∅ : Depths).fill head.inputs 0).AtMost 0 := hempty.fill
  have hgrown : (grow links ((∅ : Depths).fill head.inputs 0) 0 links.length).AtMost
      (0 + links.length) := hfilled.grow links.length
  rwa [Nat.zero_add] at hgrown

end Depths

namespace BottomClause

variable {b : BottomClause} {ks : List Nat} {v : Var} {l : Link}

theorem remainingDepth_le (b : BottomClause) (ks : List Nat) :
    b.remainingDepth b.depths ks ≤ max 1 b.links.length := by
  unfold remainingDepth
  split
  · exact Nat.zero_le _
  · refine Nat.max_le.2 ⟨Nat.le_max_left _ _, ?_⟩
    cases h : ((b.unresolved ks).filterMap fun v => b.depths[v]?).min? with
    | none => exact Nat.le_max_left _ _
    | some d =>
      obtain ⟨v, -, hd⟩ := List.mem_filterMap.1 (List.min?_mem h)
      exact Nat.le_trans (Depths.atMost_ofLinks b.head b.links v d hd) (Nat.le_max_right _ _)

/-! ## Providers -/

/-- The head takes the variable, or an atom at one of the places provides it. -/
def Provides (b : BottomClause) (ks : List Nat) (v : Var) : Prop :=
  v ∈ b.head.inputs ∨ ∃ k ∈ ks, ∃ l, b.links[k]? = some l ∧ v ∈ l.outputs

theorem mem_chosenLinks : l ∈ b.chosenLinks ks ↔ ∃ k ∈ ks, b.links[k]? = some l :=
  List.mem_filterMap

theorem mem_unresolved : v ∈ b.unresolved ks ↔
    (v ∈ b.head.outputs ∨ ∃ l ∈ b.chosenLinks ks, v ∈ l.inputs) ∧ ¬ b.Provides ks v := by
  have havailable : v ∈ b.head.inputs ++ (b.chosenLinks ks).flatMap Link.outputs ↔
      b.Provides ks v := by
    simp only [List.mem_append, List.mem_flatMap, mem_chosenLinks, Provides]
    grind
  unfold unresolved
  rw [List.mem_filter, List.mem_append, List.mem_flatMap, ← havailable, Bool.not_eq_true',
    ← Bool.not_eq_true, List.contains_iff_mem]

/-- A choice needs nothing more when it provides the outputs of the head and the inputs of its atoms. -/
theorem unresolved_eq_nil_iff : b.unresolved ks = [] ↔
    (∀ v ∈ b.head.outputs, b.Provides ks v) ∧
      ∀ k ∈ ks, ∀ l, b.links[k]? = some l → ∀ v ∈ l.inputs, b.Provides ks v := by
  simp only [List.eq_nil_iff_forall_not_mem, mem_unresolved, mem_chosenLinks]
  grind

theorem remainingDepth_eq_zero_iff {depths : Depths} :
    b.remainingDepth depths ks = 0 ↔ b.unresolved ks = [] := by
  unfold remainingDepth
  split
  · rename_i h
    exact iff_of_true rfl h
  · rename_i needed h
    refine iff_of_false ?_ h
    omega

/-- In a bottom clause the atoms before an atom provide what it takes. -/
theorem ComesFrom.provides {head : Finding} {lookup : Lookup} {options : Options}
    {modes : List Mode} {k : Composition} (h : b.ComesFrom head lookup options modes k) {i : Nat}
    (hl : b.links[i]? = some l) (hv : v ∈ l.inputs) : b.Provides (List.range i) v := by
  obtain rfl := h.bottom
  have hlinks : k.bottom.links = k.body.map fun f => f.link k.name := rfl
  rw [hlinks, List.getElem?_map] at hl
  obtain ⟨f, hf, rfl⟩ := Option.map_eq_some_iff.1 hl
  obtain ⟨t, ht, rfl⟩ := List.mem_map.1 hv
  rcases h.flows i f hf t ht with ht | ⟨j, g, hj, hg, ht⟩
  · exact .inl (List.mem_map_of_mem ht)
  · refine .inr ⟨j, List.mem_range.2 hj, g.link k.name, ?_, List.mem_map_of_mem ht⟩
    rw [hlinks, List.getElem?_map, hg]
    rfl

end BottomClause

namespace HypothesisSpace

/-- What a search learns from the bottom clause of a ground example: the chosen atoms, in some order,
provide what they take and what the head gives, and in the bottom clause what an atom takes is provided
before it. -/
theorem run_provides {c : Clause} {modes : ModeTable} {background : LayeredStore}
    {options : Options} {b : BottomClause} {p : Predicate} (hp : c.headPredicate = some p)
    (hground : isGround p = true)
    (hb : BottomClause.ofExample c modes background options = .ok b)
    {knowledge : LayeredStore} {positives negatives : List Clause} {steps maxBody : Nat}
    {log : EventLog} {h : Hypothesis}
    (hrun : ((make b knowledge positives negatives steps maxBody).run log).1 = some h) :
    h.clause = ⟨b.clause.head, h.chosen.filterMap fun k => b.body[k]?⟩ ∧
      (∀ k ∈ h.chosen, ∃ a l, b.body[k]? = some a ∧ b.links[k]? = some l ∧
        ∀ v ∈ l.inputs, b.Provides h.chosen v ∧ b.Provides (List.range k) v) ∧
      ∀ v ∈ b.head.outputs, b.Provides h.chosen v := by
  obtain ⟨ht, hsol⟩ := run_eq_some hrun
  obtain ⟨m, facts, k, -, -, -, -, hk⟩ := BottomClause.exists_composition hp hground hb
  have hmissing : b.remainingDepth b.depths h.chosen = 0 := by
    have halong := (along_spec ht.choice).2.2.2.1
    rw [← ht.along, (f_eq_of_isSolution hsol).2.1] at halong
    exact halong.symm
  obtain ⟨houtputs, hinputs⟩ := BottomClause.unresolved_eq_nil_iff.1
    (BottomClause.remainingDepth_eq_zero_iff.1 hmissing)
  have hlength : b.links.length = b.body.length := by
    rw [hk.bottom]
    exact (List.length_map _).trans (List.length_map _).symm
  refine ⟨ht.clause_eq, fun i hi => ?_, houtputs⟩
  have hbody : i < b.body.length := ht.choice.inside i hi
  have hlinks := List.getElem?_eq_getElem (hlength ▸ hbody)
  exact ⟨_, _, List.getElem?_eq_getElem hbody, hlinks, fun v hv =>
    ⟨hinputs i hi _ hlinks v hv, hk.provides hlinks hv⟩⟩

end HypothesisSpace

/-! ## An atom that feeds itself -/

/-- A list without repetitions of two elements has them in one of two orders. -/
theorem eq_pair_of_nodup {α : Type} {xs : List α} {a b : α} (hxs : xs.Nodup)
    (h : ∀ x ∈ xs, x = a ∨ x = b) (ha : a ∈ xs) (hb : b ∈ xs) (hab : a ≠ b) :
    xs = [a, b] ∨ xs = [b, a] := by
  have hperm : xs.Perm [a, b] :=
    (List.perm_ext_iff_of_nodup hxs (by simp [hab])).2 fun x => by grind
  obtain ⟨c, d, rfl⟩ := List.length_eq_two.1 hperm.length_eq
  grind

namespace Sample

/-- Gives a term. -/
def giver : Mode := mode .body "q" [.output]

/-- Takes a term and gives two. -/
def feeder : Mode := mode .body "e" [.input, .output, .output]

def loopModes : ModeTable := ⟨[mode .head "p" [.output], giver, feeder], []⟩

/-- The facts `q(y)` and `e(y, y, x)`. -/
def loopFacts : List Predicate := [⟨"q", [y]⟩, ⟨"e", [y, y, x]⟩]

def given : Finding := ⟨giver.template, [y]⟩

def fed : Finding := ⟨feeder.template, [y, y, x]⟩

/-- The bottom clause `p(X) :- q(Y), e(Y, Y, X)`. -/
def loop (v w : Var) : BottomClause :=
  ⟨.rule (.predicate ⟨"p", [.var v]⟩)
      [.predicate ⟨"q", [.var w]⟩, .predicate ⟨"e", [.var w, .var w, .var v]⟩],
    ⟨[], [v]⟩, [⟨[], [w]⟩, ⟨[w], [w, v]⟩]⟩

section

variable {stored : Store} {k : Composition}
  (hstored : Store.ofClauses ((clause loopFacts).body.map Clause.fact) = .ok stored)

include hstored

/-- A round finds the second fact where its first term is available. -/
theorem mem_round_loop {available : List Term}
    (hground : ∀ t ∈ available, isGround t = true ∧ t.isNormal = true) {f : Finding} :
    f ∈ Saturation.round (BottomClause.lookupOf ⟨[]⟩ stored) .default [giver, feeder] available ↔
      f = given ∨ f = fed ∧ y ∈ available := by
  have hheld : ((⟨[]⟩ : LayeredStore).under .owned stored).Holds loopFacts :=
    holds (by decide) hstored
  have hgiver : f ∈ giver.findings (BottomClause.lookupOf ⟨[]⟩ stored) .default available ↔ _ :=
    Mode.mem_findings_flat (hheld.holdsFor _) (by decide) rfl (by decide) (by decide) hground
  have hfeeder : f ∈ feeder.findings (BottomClause.lookupOf ⟨[]⟩ stored) .default available ↔ _ :=
    Mode.mem_findings_flat (hheld.holdsFor _) (by decide) rfl (by decide) (by decide) hground
  rw [Saturation.mem_round]
  simp only [List.mem_cons, List.not_mem_nil, or_false, exists_eq_or_imp, exists_eq_left, hgiver,
    hfeeder]
  obtain ⟨template, terms⟩ := f
  refine or_congr ⟨?_, ?_⟩ ⟨?_, ?_⟩
  · rintro ⟨rfl, -, hterms, -⟩
    obtain rfl : terms = [y] := by simpa [loopFacts, giver, mode] using hterms
    rfl
  · rintro ⟨⟩
    exact ⟨rfl, rfl, by decide, List.forall_mem_nil _⟩
  · rintro ⟨rfl, -, hterms, hinputs⟩
    obtain rfl : terms = [y, y, x] := by simpa [loopFacts, feeder, mode] using hterms
    exact ⟨rfl, hinputs y List.mem_cons_self⟩
  · rintro ⟨⟨⟩, hy⟩
    exact ⟨rfl, rfl, by decide, List.forall_mem_singleton.2 hy⟩

/-- The second round finds both facts. -/
theorem mem_findings_loop {f : Finding} :
    f ∈ Saturation.findings (BottomClause.lookupOf ⟨[]⟩ stored) .default [giver, feeder]
      Options.default.i (BottomClause.start k) ↔ f = given ∨ f = fed := by
  let pool := Saturation.pool (BottomClause.lookupOf ⟨[]⟩ stored) .default [giver, feeder]
    (BottomClause.start k)
  have hground : ∀ r, ∀ t ∈ pool r, isGround t = true ∧ t.isNormal = true :=
    Saturation.ground_pool (BottomClause.ground_start k)
  rw [Saturation.mem_findings]
  constructor
  · rintro ⟨r, -, hf⟩
    exact ((mem_round_loop hstored (hground r)).1 hf).imp_right And.left
  · intro hf
    refine ⟨1, by decide, (mem_round_loop hstored (hground 1)).2 (hf.imp_right fun hf => ⟨hf, ?_⟩)⟩
    have hgiven := (mem_round_loop hstored (hground 0)).2 (.inl rfl)
    exact Saturation.mem_pool_succ.2 ⟨given, hgiven, List.mem_singleton_self y⟩

theorem body_eq {b : BottomClause} (hinputs : k.head.inputs = [])
    (hk : b.ComesFrom k.head (BottomClause.lookupOf ⟨[]⟩ stored) .default [giver, feeder] k) :
    k.body = [given, fed] := by
  have hfound : ∀ f ∈ k.body, f = given ∨ f = fed := fun f hf =>
    (mem_findings_loop hstored).1 (hk.found f hf)
  have hother : (given.atom k.name).name ≠ (fed.atom k.name).name := by
    show "q" ≠ "e"
    decide
  have hmem : given ∈ k.body ∧ fed ∈ k.body := by
    obtain ⟨g, hg, hgname⟩ := hk.recorded given ((mem_findings_loop hstored).2 (.inl rfl))
    obtain ⟨f, hf, hfname⟩ := hk.recorded fed ((mem_findings_loop hstored).2 (.inr rfl))
    refine ⟨?_, ?_⟩
    · rcases hfound g hg with rfl | rfl
      · exact hg
      · exact absurd (congrArg Predicate.name hgname.symm) hother
    · rcases hfound f hf with rfl | rfl
      · exact absurd (congrArg Predicate.name hfname) hother
      · exact hf
  have hne : given ≠ fed := fun h => hother (congrArg (fun f => (f.atom k.name).name) h)
  have hnodup : k.body.Nodup :=
    (List.pairwise_map.1 hk.once).imp fun hne heq => hne (congrArg (Finding.atom k.name) heq)
  rcases eq_pair_of_nodup hnodup hfound hmem.1 hmem.2 hne with hbody | hbody
  · exact hbody
  -- what feeds itself could not come first
  · have hflows := hk.flows 0 fed (by rw [hbody]; rfl) y List.mem_cons_self
    rw [hinputs] at hflows
    rcases hflows with h | ⟨j, g, hj, -⟩
    · exact absurd h List.not_mem_nil
    · exact absurd hj (Nat.not_lt_zero j)

end

theorem exists_loop : ∃ v w, v ≠ w ∧
    BottomClause.ofExample (clause loopFacts) loopModes ⟨[]⟩ .default = .ok (loop v w) := by
  obtain ⟨b, hb⟩ : ∃ b,
      BottomClause.ofExample (clause loopFacts) loopModes ⟨[]⟩ .default = .ok b :=
    exists_bottom (by decide) rfl .default
  obtain ⟨m, stored, k, hm, hstored, htemplate, hfact, hk⟩ :=
    BottomClause.exists_composition (p := head) rfl rfl hb
  obtain rfl : mode .head "p" [.output] = m := Except.ok.inj hm
  have hbody := body_eq hstored (inputs_head htemplate hfact) hk
  have hhead : k.head = ⟨(mode .head "p" [.output]).headTemplate head, [x]⟩ := by
    rw [← htemplate, ← terms_head htemplate hfact]
  have hx : k.Named x := ⟨k.head, List.mem_cons_self, Finding.lifts_iff.2 (.inr (by
    rw [hhead]
    exact List.mem_singleton_self x))⟩
  have hy : k.Named y := ⟨given, List.mem_cons_of_mem _ (hbody ▸ List.mem_cons_self),
    Finding.lifts_iff.2 (.inr (List.mem_singleton_self y))⟩
  have hatoms : k.head.atom k.name = ⟨"p", [.var (k.name x)]⟩ ∧
      given.atom k.name = ⟨"q", [.var (k.name y)]⟩ ∧
      fed.atom k.name = ⟨"e", [.var (k.name y), .var (k.name y), .var (k.name x)]⟩ := by
    refine ⟨?_, ?_, ?_⟩
    · rw [Finding.atom, (k.proper k.head List.mem_cons_self).fill_of_flat (by rw [hhead]; rfl), hhead]
      rfl
    · exact (k.proper given (by simp [hbody])).fill_of_flat rfl _
    · exact (k.proper fed (by simp [hbody])).fill_of_flat rfl _
  have hlink : k.head.link k.name = ⟨[], [k.name x]⟩ := by
    rw [hhead]
    rfl
  refine ⟨k.name x, k.name y, fun h => ?_, ?_⟩
  · have hxy := Composition.name_inj hx hy h
    revert hxy
    decide
  · have hbottom : k.bottom = loop (k.name x) (k.name y) := by
      unfold Composition.bottom Composition.clause
      rw [hlink, hatoms.1, hbody, List.map_cons, List.map_cons, List.map_nil, hatoms.2.1, hatoms.2.2]
      rfl
    rw [hb, hk.bottom, hbottom]

/-- Learning from the bottom clause with four examples that hold anyway and one that must not. -/
def loopSpace (v w : Var) : HypothesisSpace :=
  .make (loop v w) ⟨[]⟩ (List.replicate 4 (.fact (.predicate ⟨"true", []⟩)))
    [.fact (.predicate head)] 1 1

section

open HypothesisSpace

variable {v w : Var}

theorem plain_loopSpace : ∀ c ∈ (loopSpace v w).bottom.clause :: (loopSpace v w).knowledge.clauses,
    Normal c ∧ c.IsPlain := by
  refine List.forall_mem_singleton.2 ⟨?_, ?_⟩
  · intro t ht
    have hvar : t = .var v ∨ t = .var w ∨ t = .var v := by
      simpa [loopSpace, make, loop, Clause.rule, HasTerms.subterms, Term.subterms] using ht
    rcases hvar with rfl | rfl | rfl <;> rfl
  · exact List.forall_mem_cons.2 ⟨trivial, List.forall_mem_singleton.2 trivial⟩

theorem exists_trial (ks : List Nat) :
    ∃ k, (loopSpace v w).trial? ((loopSpace v w).scored ks).clause = some k := by
  obtain ⟨k, hk⟩ := Option.isSome_iff_exists.1
    ((trial?_isSome (s := loopSpace v w) (c := (loop v w).clause)).2 ⟨rfl, rfl⟩)
  exact (relaxes_bottom ks).exists_trial? hk

theorem covered_true (ks : List Nat) {places : List Nat} (h : ∀ i ∈ places, i < 4) :
    (loopSpace v w).covered ((loopSpace v w).scored ks).clause (loopSpace v w).positives places =
      places := by
  obtain ⟨k, hk⟩ := exists_trial (v := v) (w := w) ks
  have haccepts : (loopSpace v w).accepts ((loopSpace v w).scored ks).clause
      (.fact (.predicate ⟨"true", []⟩)) = true := by
    refine (Option.any_eq_true _ _).2 ⟨k, hk, ?_⟩
    show Goal.succeeds [.atom (.predicate ⟨"true", []⟩)] k.candidates 1 = true
    rw [Goal.succeeds_eq]
    show (Search.next k.candidates
      ⟨[.goal [.atom (.predicate ⟨"true", []⟩)] _], 1, false⟩).1.isSome = true
    rw [Search.next_true (p := ⟨"true", []⟩) rfl rfl, Search.next_answer]
    rfl
  rw [covered_eq_filter, List.filter_eq_self]
  intro i hi
  rw [covers_eq, show (loopSpace v w).positives[i]? = some (.fact (.predicate ⟨"true", []⟩)) from
    List.getElem?_replicate_of_lt (h i hi)]
  exact haccepts

/-- The bare head covers the negative example. -/
theorem accepts_head : (loopSpace v w).accepts ((loopSpace v w).scored []).clause
    (.fact (.predicate head)) = true := by
  obtain ⟨k, hk⟩ := exists_trial (v := v) (w := w) []
  have hmem := (trial?_spec hk (List.forall_mem_nil _)).2
  have hfacts : ∀ c ∈ k.clauses, c = ((loopSpace v w).scored []).clause := fun c hc =>
    ((hmem c).1 hc).resolve_right List.not_mem_nil
  have hdecides : (loopSpace v w).Decides ((loopSpace v w).scored []).clause
      (.fact (.predicate head)) := by
    intro k' hk'
    obtain rfl : k' = k := Option.some.inj (hk'.symm.trans hk)
    refine Clause.isDecided_of_facts rfl (by decide) (fun p c hc => ?_) fun p => ?_
    · rw [hfacts c (k'.knowledge.within p c hc)]
      rfl
    · have hsingle : ∀ c ∈ k'.clauses, c ∈ [((loopSpace v w).scored []).clause] := fun c hc =>
        List.mem_singleton.2 (hfacts c hc)
      exact k'.length_candidates_le hsingle p
  let θ : Valuation := ⟨fun _ => x, fun _ => rfl⟩
  have hproved : Proves (((loopSpace v w).scored []).clause :: (loopSpace v w).knowledge.clauses)
      (θ.apply (.predicate head)) :=
    .clause θ List.mem_cons_self rfl rfl nofun
  exact accepts_of_proves (s := loopSpace v w) (List.forall_mem_nil _) plain_loopSpace rfl trivial hk
    hdecides hproved

/-- The head with the atom that feeds itself does not, for nothing is known of that atom. -/
theorem not_accepts_fed : (loopSpace v w).accepts ((loopSpace v w).scored [1]).clause
    (.fact (.predicate head)) = false := by
  by_contra haccepts
  obtain ⟨θ, hproved⟩ := exists_proves_of_accepts (s := loopSpace v w) (a := .predicate head)
    (List.forall_mem_nil _) plain_loopSpace rfl trivial (by simpa using haccepts)
  let fed : Predicate := ⟨"e", [.var w, .var w, .var v]⟩
  let clauses : List Clause := [.rule (.predicate ⟨"p", [.var v]⟩) [.predicate fed]]
  have hrule : ∀ q, builtin? q = none → Proves clauses (.predicate q) →
      q.name = "p" ∧ ∃ η : Valuation, Proves clauses (.predicate (η.apply fed)) := by
    intro q hq hproved
    cases hproved with
    | truth => cases hq
    | clause η stored resolved hhead body =>
      obtain rfl := List.mem_singleton.1 stored
      exact ⟨congrArg Predicate.name (Atom.predicate.inj (Option.some.inj hhead)).symm, η,
        body _ List.mem_cons_self⟩
  obtain ⟨-, η, hfed⟩ := hrule (θ.apply head) rfl hproved
  have hname : "e" = "p" := (hrule _ rfl hfed).1
  revert hname
  decide

/-- The first atom leaves the output of the head open, the second needs nothing more. -/
theorem remainingDepth_loop (hvw : v ≠ w) (depths : Depths) :
    0 < (loop v w).remainingDepth depths [0] ∧ (loop v w).remainingDepth depths [1] = 0 := by
  refine ⟨Nat.pos_of_ne_zero fun h => hvw ?_, BottomClause.remainingDepth_eq_zero_iff.2 ?_⟩
  · have hneeded := (BottomClause.unresolved_eq_nil_iff.1
      (BottomClause.remainingDepth_eq_zero_iff.1 h)).1 v List.mem_cons_self
    simpa [BottomClause.Provides, loop] using hneeded
  · simp [BottomClause.unresolved, BottomClause.chosenLinks, loop]

/-- The head with the atom that gives a term. -/
def givenFirst (v w : Var) : Hypothesis :=
  (loopSpace v w).refined ((loopSpace v w).scored []) 0 (.predicate ⟨"q", [.var w]⟩)

/-- The head with the atom that feeds itself. -/
def fedAlone (v w : Var) : Hypothesis :=
  (loopSpace v w).refined ((loopSpace v w).scored []) 1 (.predicate ⟨"e", [.var w, .var w, .var v]⟩)

theorem positives_loop : ((loopSpace v w).scored []).positives = List.range 4 ∧
    (givenFirst v w).positives = List.range 4 ∧ (fedAlone v w).positives = List.range 4 := by
  have hrange : ∀ i ∈ List.range 4, i < 4 := fun i hi => List.mem_range.1 hi
  have hroot : ((loopSpace v w).scored []).positives = List.range 4 := covered_true [] hrange
  refine ⟨hroot, ?_, ?_⟩
  · exact (congrArg ((loopSpace v w).covered _ _) hroot).trans (covered_true [0] hrange)
  · exact (congrArg ((loopSpace v w).covered _ _) hroot).trans (covered_true [1] hrange)

theorem negatives_loop : ((loopSpace v w).scored []).negatives = [0] ∧
    (fedAlone v w).negatives = [] := by
  have htest : ∀ c, (loopSpace v w).covered c (loopSpace v w).negatives [0] =
      if (loopSpace v w).accepts c (.fact (.predicate head)) then [0] else [] := by
    intro c
    rw [covered_eq_filter, List.filter_cons, covers_eq]
    rfl
  have hroot : ((loopSpace v w).scored []).negatives = [0] :=
    (htest _).trans (if_pos accepts_head)
  refine ⟨hroot, (congrArg ((loopSpace v w).covered _ _) hroot).trans ((htest _).trans ?_)⟩
  show (if (loopSpace v w).accepts ((loopSpace v w).scored [1]).clause _ then _ else _) = _
  rw [not_accepts_fed]
  rfl

theorem withinLimit_loop {h : Hypothesis} (hc : h.c ≤ 1) :
    (loopSpace v w).withinLimit h = true := by
  have hmost : (loopSpace v w).maxBody < 2 ^ 63 := by
    show 1 < 2 ^ 63
    decide
  exact withinLimit_of_le hmost hc

/-- The bare head is worth refining. -/
theorem root_loop : (loopSpace v w).isPruned ((loopSpace v w).scored []) = false ∧
    ((loopSpace v w).scored []).isSolution = false := by
  have hp : ((loopSpace v w).scored []).p = 4 := congrArg List.length positives_loop.1
  have hn : ((loopSpace v w).scored []).n = 1 := congrArg List.length negatives_loop.1
  have hc : ((loopSpace v w).scored []).c = 0 := rfl
  have hmissing : ((loopSpace v w).scored []).missing ≤ 2 := (loop v w).remainingDepth_le []
  have hg : 0 < ((loopSpace v w).scored []).g := by
    rw [Hypothesis.g, hp, hc]
    omega
  refine ⟨?_, by simp [Hypothesis.isSolution, hn]⟩
  simp [isPruned, hn, hg, withinLimit_loop (hc ▸ Nat.zero_le 1)]

theorem given_loop (hvw : v ≠ w) : (givenFirst v w).f ≤ 2 ∧ (givenFirst v w).g ≤ 2 := by
  have hp : (givenFirst v w).p = 4 := congrArg List.length positives_loop.2.1
  have hc : (givenFirst v w).c = 1 := rfl
  have hmissing : 0 < (givenFirst v w).missing := (remainingDepth_loop hvw _).1
  rw [Hypothesis.f, Hypothesis.g, hp, hc]
  omega

theorem fed_loop (hvw : v ≠ w) : (fedAlone v w).f = 3 ∧ (fedAlone v w).isSolution = true := by
  have hp : (fedAlone v w).p = 4 := congrArg List.length positives_loop.2.2
  have hn : (fedAlone v w).n = 0 := congrArg List.length negatives_loop.2
  have hc : (fedAlone v w).c = 1 := rfl
  have hmissing : (fedAlone v w).missing = 0 := (remainingDepth_loop hvw _).2
  refine ⟨?_, by simp [Hypothesis.isSolution, hp, hn, hmissing]⟩
  rw [Hypothesis.f, Hypothesis.g, hp, hn, hc, hmissing]
  rfl

/-- The search prefers the atom that feeds itself, which needs nothing more, to the one that could
feed it. -/
theorem exists_run_loop (hvw : v ≠ w) (log : EventLog) :
    ∃ h, ((loopSpace v w).run log).1 = some h ∧ h.chosen = [1] := by
  obtain ⟨hopen, hunsolved⟩ := root_loop (v := v) (w := w)
  obtain ⟨hgivenf, hgiveng⟩ := given_loop hvw
  obtain ⟨hfed, hsol⟩ := fed_loop hvw
  have hnew : ∀ h ∈ [givenFirst v w, fedAlone v w],
      h.clause ≠ ((loopSpace v w).scored []).clause := by
    have hbody : ∀ h ∈ [givenFirst v w, fedAlone v w], h.clause.body ≠ [] := by
      simp only [List.forall_mem_cons]
      exact ⟨List.cons_ne_nil _ _, List.cons_ne_nil _ _, List.forall_mem_nil _⟩
    exact fun h hh heq => hbody h hh (congrArg Clause.body heq)
  have hne : (fedAlone v w).clause ≠ (givenFirst v w).clause := by
    intro h
    have hatom : [Atom.predicate ⟨"e", [.var w, .var w, .var v]⟩] = [.predicate ⟨"q", [.var w]⟩] :=
      congrArg Clause.body h
    simp at hatom
  have hlimit : ∀ h ∈ [(loopSpace v w).scored [], givenFirst v w, fedAlone v w],
      (loopSpace v w).withinLimit h = true := by
    simp only [List.forall_mem_cons]
    exact ⟨withinLimit_loop (Nat.zero_le 1), withinLimit_loop (Nat.le_refl 1),
      withinLimit_loop (Nat.le_refl 1), List.forall_mem_nil _⟩
  have hrun : ((loopSpace v w).run log).1 = some (fedAlone v w) :=
    run_eq_of_refine log rfl hopen hunsolved (rfl : _ = [givenFirst v w, fedAlone v w]) hnew hne
      hlimit (by omega) (by omega) hsol (by omega)
  exact ⟨_, hrun, rfl⟩

end

/-- What the search learns from the sample needs nothing more. -/
theorem run_provides_loop :
    (clause loopFacts).headPredicate = some head ∧ isGround head = true ∧ ∃ v w h,
      BottomClause.ofExample (clause loopFacts) loopModes ⟨[]⟩ .default = .ok (loop v w) ∧
      ((loopSpace v w).run (EventLog.start "" false)).1 = some h ∧
        (∀ k ∈ h.chosen, ∃ a l, (loop v w).body[k]? = some a ∧ (loop v w).links[k]? = some l ∧
          ∀ u ∈ l.inputs, (loop v w).Provides h.chosen u ∧ (loop v w).Provides (List.range k) u) ∧
        ∀ u ∈ (loop v w).head.outputs, (loop v w).Provides h.chosen u := by
  obtain ⟨v, w, hvw, hb⟩ := exists_loop
  obtain ⟨h, hrun, -⟩ := exists_run_loop hvw (EventLog.start "" false)
  exact ⟨rfl, rfl, v, w, h, hb, hrun, (HypothesisSpace.run_provides (p := head) rfl rfl hb hrun).2⟩

/-- Of what it learns, an atom takes a variable that neither the head nor an atom chosen before it
provides. -/
theorem run_feeds_itself :
    (clause loopFacts).headPredicate = some head ∧ isGround head = true ∧ ∃ b h,
      BottomClause.ofExample (clause loopFacts) loopModes ⟨[]⟩ .default = .ok b ∧
      ((HypothesisSpace.make b ⟨[]⟩ (List.replicate 4 (.fact (.predicate ⟨"true", []⟩)))
        [.fact (.predicate head)] 1 1).run (EventLog.start "" false)).1 = some h ∧
      ∃ k ∈ h.chosen, ∃ l, b.links[k]? = some l ∧ ∃ v ∈ l.inputs,
        ¬ b.Provides (h.chosen.filter (· < k)) v := by
  obtain ⟨v, w, hvw, hb⟩ := exists_loop
  obtain ⟨h, hrun, hchosen⟩ := exists_run_loop hvw (EventLog.start "" false)
  refine ⟨rfl, rfl, loop v w, h, hb, hrun, 1, ?_, ⟨[w], [w, v]⟩, rfl, w, List.mem_cons_self, ?_⟩
  · rw [hchosen]
    exact List.mem_singleton_self 1
  · rw [hchosen]
    simp [BottomClause.Provides, loop]

end Sample
end Horn
