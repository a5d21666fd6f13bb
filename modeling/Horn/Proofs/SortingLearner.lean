import Horn.Proofs.Entailment
import Horn.Proofs.InductionStages
import Horn.Proofs.Optimality

/-!
Learning rules that sort things by their attributes.  The bottom clause of a thing has the attributes of
the thing, so what is learned are sorting rules.  No test is cut that asks for the class of a thing, since
the tables and as many rules as there may be turns leave steps enough.
-/

namespace Horn

/-! ## What is known about things -/

namespace Classification

/-- The same tables with other rules. -/
def withRules (k : Classification) (rules : List (Var × List String))
    (h : ∀ r ∈ rules, k.name ∉ r.2) : Classification :=
  { k with
    rules := rules
    flat := h }

/-- The facts of the tables. -/
def atoms (k : Classification) : List Predicate := k.facts.map fun e => ⟨e.1, [.symbol e.2]⟩

end Classification

namespace LayeredStore.Stores

variable {s : LayeredStore} {k : Classification} (h : s.Stores k)

include h

theorem holdsFor {a : String} (ha : a ≠ k.name) : s.HoldsFor a k.atoms where
  filed := h.filed
  spec c hc := Classification.spec_of_mem ((h.mem c).1 hc)
  only c hc p hp hname := by
    rcases Classification.mem_clauses.1 ((h.mem c).1 hc) with ⟨r, -, rfl⟩ | ⟨e, he, rfl⟩
    · obtain rfl := Atom.predicate.inj (Option.some.inj (Clause.headPredicate_eq_some.1 hp))
      exact absurd hname.symm ha
    · exact ⟨_, List.mem_map_of_mem he, rfl⟩
  stored q hq := by
    obtain ⟨e, he, rfl⟩ := List.mem_map.1 hq
    exact (h.mem _).2 (Classification.mem_clauses.2 (.inr ⟨e, he, rfl⟩))
  ground q hq := by
    obtain ⟨e, -, rfl⟩ := List.mem_map.1 hq
    exact ⟨rfl, List.forall_mem_singleton.2 rfl⟩

/-- An example without facts adds nothing to what is known. -/
theorem under_empty {facts : Store} (hfacts : Store.ofClauses [] = .ok facts) :
    (s.under .owned facts).Stores k := by
  obtain ⟨hfiled, hmem⟩ := Store.isFiled_empty.addAll hfacts
  refine ⟨h.filed.under _ hfiled, fun c => ?_⟩
  rw [mem_clauses_under, hmem, Store.clauses_empty, ← h.mem]
  simp

end LayeredStore.Stores

/-! ## The bottom clause of a thing -/

/-- Modes that ask of a thing which of some attributes it has. -/
def sortingModes (name : String) (attributes : List String) : ModeTable :=
  ⟨Sample.mode .head name [.input] :: attributes.map fun a => Sample.mode .body a [.input], []⟩

section

variable {name thing : String} {attributes : List String}

theorem headMode_sortingModes :
    (sortingModes name attributes).headMode (Predicate.signature ⟨name, [.symbol thing]⟩) =
      .ok (Sample.mode .head name [.input]) := by
  have hsame : (Sample.mode .head name [.input]).signature ==
      Predicate.signature ⟨name, [.symbol thing]⟩ := beq_iff_eq.2 rfl
  unfold ModeTable.headMode ModeTable.headModes ModeTable.ofKind sortingModes
  rw [List.filter_cons_of_pos rfl, List.find?_cons, hsame]

theorem bodyModes_sortingModes {m : Mode} :
    (sortingModes name attributes).bodyModesFor m =
      attributes.map fun a => Sample.mode .body a [.input] := by
  show (Sample.mode .head name [.input] :: attributes.map fun a => Sample.mode .body a [.input]).filter
    (fun m => m.kind == .body) = _
  rw [List.filter_cons_of_neg (by simp [Sample.mode]), List.filter_eq_self]
  intro m hm
  obtain ⟨a, -, rfl⟩ := List.mem_map.1 hm
  rfl

end

/-- The finding that a thing has an attribute. -/
def attributeOf (a thing : String) : Finding :=
  ⟨(Sample.mode .body a [.input]).template, [.symbol thing]⟩

namespace BottomClause

/-- The bottom clause of a thing with some attributes, each of which takes the thing. -/
def ofAttributes (v : Var) (name : String) (attributes : List String) : BottomClause :=
  ⟨sortingRule v name attributes, ⟨[v], []⟩, attributes.map fun _ => ⟨[v], []⟩⟩

section

variable {name thing : String} {c : Composition}

theorem exists_liftHead_thing (name thing : String) :
    ∃ r, Saturation.liftHead (Sample.mode .head name [.input]) ⟨name, [.symbol thing]⟩ = .ok r := by
  let θ : Valuation := ⟨fun _ => .symbol thing, fun _ => rfl⟩
  have htemplate : Normal ((Sample.mode .head name [.input]).headTemplate
      ⟨name, [.symbol thing]⟩).atom := List.forall_mem_singleton.2 rfl
  exact Saturation.exists_liftHead (θ := θ) (List.forall_mem_singleton.2 rfl) htemplate rfl

theorem head_of_thing
    (htemplate : c.head.template =
      (Sample.mode .head name [.input]).headTemplate ⟨name, [.symbol thing]⟩)
    (hfact : c.head.fact = Valuation.identity.apply (Predicate.mk name [.symbol thing])) :
    c.head = ⟨(Sample.mode .head name [.input]).headTemplate ⟨name, [.symbol thing]⟩,
      [.symbol thing]⟩ := by
  have hflat := (c.proper c.head List.mem_cons_self).fact_of_flat (by rw [htemplate]; rfl)
  have hterms : c.head.terms = [.symbol thing] := congrArg Predicate.args (hflat.symm.trans hfact)
  rw [← htemplate, ← hterms]

theorem bottom_of_attributes
    (hhead : c.head = ⟨(Sample.mode .head name [.input]).headTemplate ⟨name, [.symbol thing]⟩,
      [.symbol thing]⟩)
    (hbody : ∀ f ∈ c.body,
      f.atom c.name = ⟨f.template.atom.name, [.var (c.name (.symbol thing))]⟩ ∧
        ∃ a, f = attributeOf a thing) :
    c.bottom = ofAttributes (c.name (.symbol thing)) name
      (c.body.map fun f => f.template.atom.name) := by
  have hatom : c.head.atom c.name = ⟨name, [.var (c.name (.symbol thing))]⟩ := by
    have hflat := (c.proper c.head List.mem_cons_self).fill_of_flat (by rw [hhead]; rfl)
      fun place => place.image c.name
    rw [hhead] at hflat ⊢
    exact hflat
  have hlink : c.head.link c.name = ⟨[c.name (.symbol thing)], []⟩ := by
    rw [hhead]
    rfl
  have hatoms : c.body.map (fun f => Atom.predicate (f.atom c.name)) =
      c.body.map fun f => .predicate ⟨f.template.atom.name, [.var (c.name (.symbol thing))]⟩ :=
    List.map_congr_left fun f hf => congrArg Atom.predicate (hbody f hf).1
  have hlinks : c.body.map (fun f => f.link c.name) =
      c.body.map fun _ => ⟨[c.name (.symbol thing)], []⟩ := by
    refine List.map_congr_left fun f hf => ?_
    obtain ⟨-, a, rfl⟩ := hbody f hf
    rfl
  unfold Composition.bottom Composition.clause ofAttributes sortingRule
  rw [hatom, hlink, hatoms, hlinks, List.map_map, List.map_map]
  rfl

end

section

variable {s : LayeredStore} {k : Classification} {attributes : List String} {options : Options}
  {thing : String} (h : s.Stores k)
  (hattributes : ∀ a ∈ attributes, a ≠ k.name ∧ a ∉ ["true", "fail", "false"])
  (hsteps : k.facts.length ≤ options.h) (hrecall : k.facts.length ≤ options.maxRecall)

include h hattributes hsteps hrecall

/-- A round finds the attributes of the things that it starts from. -/
theorem mem_round_attributes {available : List Term}
    (havailable : ∀ t ∈ available, isGround t = true ∧ t.isNormal = true) {f : Finding} :
    f ∈ Saturation.round s.candidates options
        (attributes.map fun a => Sample.mode .body a [.input]) available ↔
      ∃ e ∈ k.facts, e.1 ∈ attributes ∧ .symbol e.2 ∈ available ∧ f = attributeOf e.1 e.2 := by
  have hatoms : k.atoms.length = k.facts.length := List.length_map _
  have hfinds : ∀ a ∈ attributes, f ∈ (Sample.mode .body a [.input]).findings s.candidates options
      available ↔ ∃ e ∈ k.facts, e.1 = a ∧ .symbol e.2 ∈ available ∧ f = attributeOf e.1 e.2 := by
    intro a ha
    obtain ⟨hname, hcallable⟩ := hattributes a ha
    rw [Mode.mem_findings_flat (h.holdsFor hname) hcallable rfl (hatoms ▸ hsteps) (hatoms ▸ hrecall)
      havailable]
    obtain ⟨template, terms⟩ := f
    constructor
    · rintro ⟨rfl, -, hstored, hinputs⟩
      obtain ⟨e, he, heq⟩ := List.mem_map.1 hstored
      obtain ⟨rfl, rfl⟩ := Predicate.mk.inj heq
      exact ⟨e, he, rfl, hinputs _ List.mem_cons_self, rfl⟩
    · rintro ⟨e, he, rfl, hthing, heq⟩
      obtain ⟨rfl, rfl⟩ := Finding.mk.inj heq
      exact ⟨rfl, rfl, List.mem_map.2 ⟨e, he, rfl⟩, List.forall_mem_singleton.2 hthing⟩
  rw [Saturation.mem_round]
  constructor
  · rintro ⟨m, hm, hf⟩
    obtain ⟨a, ha, rfl⟩ := List.mem_map.1 hm
    obtain ⟨e, he, rfl, hspec⟩ := (hfinds a ha).1 hf
    exact ⟨e, he, ha, hspec⟩
  · rintro ⟨e, he, ha, hspec⟩
    exact ⟨_, List.mem_map_of_mem ha, (hfinds e.1 ha).2 ⟨e, he, rfl, hspec⟩⟩

/-- Attributes produce no terms, so there is nothing to find after the first round. -/
theorem mem_findings_attributes (hrounds : 0 < options.i) {f : Finding} :
    f ∈ Saturation.findings s.candidates options
        (attributes.map fun a => Sample.mode .body a [.input]) options.i [.symbol thing] ↔
      ∃ a ∈ attributes, (a, thing) ∈ k.facts ∧ f = attributeOf a thing := by
  have hground : ∀ t ∈ [Term.symbol thing], isGround t = true ∧ t.isNormal = true :=
    List.forall_mem_singleton.2 ⟨rfl, rfl⟩
  have hfirst : f ∈ Saturation.round s.candidates options
      (attributes.map fun a => Sample.mode .body a [.input]) [.symbol thing] ↔
        ∃ a ∈ attributes, (a, thing) ∈ k.facts ∧ f = attributeOf a thing := by
    rw [mem_round_attributes h hattributes hsteps hrecall hground]
    constructor
    · rintro ⟨⟨a, u⟩, he, ha, hthing, rfl⟩
      obtain rfl : u = thing := by simpa [Term.symbol] using List.mem_singleton.1 hthing
      exact ⟨a, ha, he, rfl⟩
    · rintro ⟨a, ha, he, rfl⟩
      exact ⟨_, he, ha, List.mem_singleton_self _, rfl⟩
  rw [Saturation.mem_findings]
  constructor
  · rintro ⟨r, -, hf⟩
    cases r with
    | zero => exact hfirst.1 hf
    | succ r =>
      obtain ⟨e, -, -, ht, -⟩ := (mem_round_attributes h hattributes hsteps hrecall
        (Saturation.ground_pool hground (r + 1))).1 hf
      obtain ⟨g, hg, ht⟩ := Saturation.mem_pool_succ.1 ht
      obtain ⟨e', -, -, -, rfl⟩ := (mem_round_attributes h hattributes hsteps hrecall
        (Saturation.ground_pool hground r)).1 hg
      exact absurd ht List.not_mem_nil
  · exact fun hf => ⟨0, hrounds, hfirst.2 hf⟩

/-- The bottom clause of a thing has the attributes of the thing, each of them once. -/
theorem exists_ofAttributes (hrounds : 0 < options.i) (thing : String) :
    ∃ v found, found.Nodup ∧ (∀ a, a ∈ found ↔ a ∈ attributes ∧ (a, thing) ∈ k.facts) ∧
      ofExample (said k.name thing) (sortingModes k.name attributes) s options =
        .ok (ofAttributes v k.name found) := by
  obtain ⟨r, hlift⟩ := exists_liftHead_thing k.name thing
  obtain ⟨b, hb⟩ : ∃ b, ofExample (said k.name thing) (sortingModes k.name attributes) s options =
      .ok b :=
    exists_ofExample rfl headMode_sortingModes (rfl : Store.ofClauses [] = .ok Store.empty) hlift
  obtain ⟨m, stored, c, hm, hstored, htemplate, hfact, hc⟩ :=
    exists_composition (p := ⟨k.name, [.symbol thing]⟩) rfl rfl hb
  obtain rfl : Sample.mode .head k.name [.input] = m :=
    Except.ok.inj (headMode_sortingModes.symm.trans hm)
  have hhead := head_of_thing htemplate hfact
  have hstart : start c = [.symbol thing] := by
    rw [start, hhead]
    rfl
  have hfindings : ∀ f, f ∈ Saturation.findings (lookupOf s stored) options
      ((sortingModes k.name attributes).bodyModesFor (Sample.mode .head k.name [.input])) options.i
        (start c) ↔ ∃ a ∈ attributes, (a, thing) ∈ k.facts ∧ f = attributeOf a thing := by
    intro f
    rw [bodyModes_sortingModes, hstart]
    exact mem_findings_attributes (h.under_empty hstored) hattributes hsteps hrecall hrounds
  have hbody : ∀ f ∈ c.body, ∃ a ∈ attributes, (a, thing) ∈ k.facts ∧ f = attributeOf a thing :=
    fun f hf => (hfindings f).1 (hc.found f hf)
  have hatom : ∀ f ∈ c.body, f.atom c.name =
      ⟨f.template.atom.name, [.var (c.name (.symbol thing))]⟩ := by
    intro f hf
    have hproper := c.proper f (List.mem_cons_of_mem _ hf)
    obtain ⟨a, -, -, rfl⟩ := hbody f hf
    exact hproper.fill_of_flat rfl _
  refine ⟨c.name (.symbol thing), c.body.map fun f => f.template.atom.name, ?_, fun a => ?_, ?_⟩
  · have honce := hc.once
    rw [List.map_congr_left hatom] at honce
    exact List.Nodup.of_map (fun a => Predicate.mk a [.var (c.name (.symbol thing))])
      (by rwa [List.map_map])
  · constructor
    · intro hname
      obtain ⟨f, hf, rfl⟩ := List.mem_map.1 hname
      obtain ⟨a, ha, hhas, heq⟩ := hbody f hf
      rw [heq]
      exact ⟨ha, hhas⟩
    · rintro ⟨ha, hhas⟩
      obtain ⟨g, hg, heq⟩ := hc.recorded _ ((hfindings _).2 ⟨a, ha, hhas, rfl⟩)
      exact List.mem_map.2 ⟨g, hg, congrArg Predicate.name ((hatom g hg).symm.trans heq)⟩
  · rw [hb, hc.bottom, bottom_of_attributes hhead fun f hf => ?_]
    obtain ⟨a, -, -, heq⟩ := hbody f hf
    exact ⟨hatom f hf, a, heq⟩

end
end BottomClause

/-! ## Searches among attributes -/

namespace HypothesisSpace.Sorts

variable {s : HypothesisSpace} {k : Classification} {v : Var} {a : String}
  {attributes positives negatives : List String}

/-- What a search finds is a rule with some of the attributes. -/
theorem clause_of_run (h : s.Sorts k v attributes positives negatives) {log : EventLog}
    {hyp : Hypothesis} (hrun : (s.run log).1 = some hyp) :
    hyp.clause = sortingRule v k.name (chosenAttributes attributes hyp.chosen) ∧
      s.IsChoice hyp.chosen := by
  obtain ⟨ht, -⟩ := run_eq_some hrun
  refine ⟨?_, ht.choice⟩
  rw [← h.scored_clause]
  exact ht.clause_eq

/-- The bare head covers all things. -/
theorem values_root (h : s.Sorts k v attributes positives negatives) :
    (s.along []).p = positives.length ∧ (s.along []).n = negatives.length ∧
      (s.along []).g = positives.length := by
  obtain ⟨hp, hn, hg, -⟩ := h.values_along isChoice_nil
  have hall : ∀ things : List String, (things.countP fun thing =>
      k.hasAll (chosenAttributes attributes []) thing || k.admits thing) = things.length :=
    fun things => List.countP_eq_length.2 fun thing _ => rfl
  rw [hall] at hp hn hg
  exact ⟨hp, hn, hg.trans (Int.sub_zero _)⟩

theorem chosen_ne_nil (h : s.Sorts k v attributes positives negatives) (hnegatives : negatives ≠ [])
    {log : EventLog} {hyp : Hypothesis} (hrun : (s.run log).1 = some hyp) : hyp.chosen ≠ [] := by
  obtain ⟨ht, hsol⟩ := run_eq_some hrun
  intro hnil
  have hn : (s.along []).n = 0 := by
    rw [← hnil, ← ht.along]
    exact (f_eq_of_isSolution hsol).1
  rw [h.values_root.2.1] at hn
  exact hnegatives (List.eq_nil_of_length_eq_zero hn)

/-- Nothing tells a thing without attributes from the negative examples. -/
theorem run_of_nil (h : s.Sorts k v [] positives negatives) (hnegatives : negatives ≠ [])
    (log : EventLog) : (s.run log).1 = none := by
  refine Option.eq_none_iff_forall_ne_some.2 fun hyp hrun => h.chosen_ne_nil hnegatives hrun ?_
  have hsub := (run_eq_some hrun).1.choice.sublist_range
  rw [h.body_eq] at hsub
  exact List.sublist_nil.1 hsub

/-- An attribute that some positive example has and no negative one makes a rule. -/
theorem run_of_singleton (h : s.Sorts k v [a] positives negatives) (hnegatives : negatives ≠ [])
    (hlimit : s.maxBody < 2 ^ 63) (hc : 1 ≤ s.maxBody)
    (hpositive : ∃ thing ∈ positives, k.hasAll [a] thing = true)
    (hnegative : ∀ thing ∈ negatives, (k.hasAll [a] thing || k.admits thing) = false)
    (log : EventLog) : (s.run log).1.map Hypothesis.clause = some (sortingRule v k.name [a]) := by
  have hbody : s.bottom.body.length = 1 := by
    rw [h.body_eq]
    rfl
  have hks : s.IsChoice [0] :=
    ⟨List.pairwise_singleton _ _, List.forall_mem_singleton.2 (hbody ▸ Nat.one_pos)⟩
  have hroot : s.root? = some (s.scored []) := by
    rw [root?_eq, h.clause]
    rfl
  have hended : (s.ended log).closed.length < maxExpansions :=
    Nat.lt_of_le_of_lt (length_closed_le s log) (hbody ▸ (show 2 ^ 1 < 100 by decide))
  have hopen : s.isPruned (s.along []) = false := by
    obtain ⟨-, hn, hg⟩ := h.values_root
    obtain ⟨thing, hthing, -⟩ := hpositive
    have hpos : ¬ (positives.length : Int) ≤ 0 := by
      have := List.length_pos_of_mem hthing
      omega
    have hneg : (negatives.length == 0) = false :=
      beq_eq_false_iff_ne.2 (List.length_pos_iff.2 hnegatives).ne'
    have hwithin : s.withinLimit (s.along []) = true := withinLimit_of_le hlimit (Nat.zero_le _)
    rw [isPruned, hwithin, hn, hg, decide_eq_false hpos, hneg]
    rfl
  have hsol : (s.along [0]).isSolution = true := by
    obtain ⟨hp, hn, -, -⟩ := h.values_along hks
    rw [h.along_eq_scored hks, h.isSolution_iff hks, hp, hn]
    refine ⟨List.countP_eq_zero.2 fun thing hthing => ?_, List.countP_pos_iff.2 ?_⟩
    · exact Bool.eq_false_iff.1 (hnegative thing hthing)
    · obtain ⟨thing, hthing, hhas⟩ := hpositive
      exact ⟨thing, hthing, Bool.or_eq_true_iff.2 (.inl hhas)⟩
  obtain ⟨hyp, hrun⟩ := exists_run hlimit (h.linksAgree (List.nodup_singleton a)) log hended hroot hks
    hc hsol fun i hi => by
      obtain rfl : i = 0 := Nat.lt_one_iff.1 hi
      exact hopen
  obtain ⟨hclause, hchoice⟩ := h.clause_of_run hrun
  have hchosen : hyp.chosen = [0] := by
    have hsub := hchoice.sublist_range
    rw [hbody] at hsub
    exact (List.sublist_singleton.1 hsub).resolve_left (h.chosen_ne_nil hnegatives hrun)
  rw [hrun, Option.map_some, hclause, hchosen]
  rfl

end HypothesisSpace.Sorts

/-! ## What is learned -/

namespace Learner

/-- The learner looks for rules of a class by some attributes that it can ask for. -/
structure Sorts (l : Learner) (k : Classification) (attributes negatives : List String) :
    Prop where
  stores : l.background.Stores k
  bare : k.rules = []
  modes : l.modes = sortingModes k.name attributes
  callable : ∀ a ∈ attributes, a ≠ k.name ∧ a ∉ ["true", "fail", "false"]
  negatives : l.negatives = negatives.map (said k.name)
  rounds : 0 < l.options.i
  answers : k.facts.length ≤ l.options.maxRecall
  affords : k.Affords l.options.maxClauses attributes.length l.options.h

/-- The learned clauses are rules of a class, so wide at most, in the order in which they came. -/
structure Knows (k : Classification) (width : Nat) (rules : List (Var × List String))
    (learned : Store) : Prop where
  filed : learned.IsFiled
  clauses : learned.clauses = rules.map fun r => sortingRule r.1 k.name r.2
  flat : ∀ r ∈ rules, k.name ∉ r.2
  narrow : ∀ r ∈ rules, r.2.length ≤ width

section

variable {l : Learner} {k : Classification} {attributes negatives : List String} {width : Nat}
  {rules : List (Var × List String)} {learned t : Store} {isNew : Bool} {v : Var}
  {found : List String}

theorem knows_empty : Knows k width [] Store.empty :=
  ⟨Store.isFiled_empty, Store.clauses_empty, nofun, nofun⟩

/-- A learned rule comes after the others, unless it is one of them. -/
theorem Knows.add (h : Knows k width rules learned)
    (ht : learned.add (sortingRule v k.name found) = .ok (isNew, t)) (hflat : k.name ∉ found)
    (hnarrow : found.length ≤ width) :
    t = learned ∨ Knows k width (rules ++ [(v, found)]) t := by
  refine (h.filed.clauses_add ht).imp And.right fun hnew => ⟨h.filed.add ht, ?_, ?_, ?_⟩
  · rw [hnew.2, h.clauses, List.map_append]
    rfl
  · exact List.forall_mem_append.2 ⟨h.flat, List.forall_mem_singleton.2 hflat⟩
  · exact List.forall_mem_append.2 ⟨h.narrow, List.forall_mem_singleton.2 hnarrow⟩

section

variable (hl : l.Sorts k attributes negatives) (h : Knows k attributes.length rules learned)

include hl

theorem Sorts.facts_le : k.facts.length ≤ l.options.h := by
  have henough := hl.affords.enough
  have hclauses : k.clauses.length = k.facts.length := by
    rw [Classification.clauses, hl.bare]
    exact List.length_map _
  have hpow : k.clauses.length + l.options.maxClauses + 1 ≤
      (k.clauses.length + l.options.maxClauses + 1) ^ (attributes.length + 1) :=
    Nat.le_self_pow (Nat.succ_ne_zero _) _
  omega

include h

theorem Knows.stores : (l.knowledge learned).Stores (k.withRules rules h.flat) := by
  refine ⟨isFiled_knowledge hl.stores.filed h.filed, fun c => ?_⟩
  rw [mem_clauses_knowledge, h.clauses, hl.stores.mem, Classification.mem_clauses,
    Classification.mem_clauses, hl.bare, List.mem_map]
  exact or_congr_right (or_iff_right nofun)

theorem Knows.affords {more : Nat} (hmore : rules.length + more ≤ l.options.maxClauses) :
    (k.withRules rules h.flat).Affords more attributes.length l.options.h := by
  refine ⟨h.narrow, Nat.le_trans (Nat.pow_le_pow_left ?_ _) hl.affords.enough⟩
  have hclauses : (k.withRules rules h.flat).clauses.length = rules.length + k.clauses.length := by
    simp [Classification.clauses, Classification.withRules, hl.bare]
  omega

/-- Whether a thing is of the class by what is known. -/
theorem Knows.covers_eq (hmore : rules.length ≤ l.options.maxClauses) (thing : String) :
    l.covers learned (said k.name thing) = rules.any fun r => k.hasAll r.2 thing :=
  (h.stores hl).isCovered (h.affords hl (show rules.length + 0 ≤ _ from hmore)) thing

/-- The clause for a thing is looked for among its attributes. -/
theorem Knows.exists_space (hmore : rules.length + 1 ≤ l.options.maxClauses) (thing : String)
    (others : List String) :
    ∃ v found space, found.Nodup ∧ (∀ a, a ∈ found ↔ a ∈ attributes ∧ (a, thing) ∈ k.facts) ∧
      found.length ≤ attributes.length ∧
      l.space learned (said k.name thing) (others.map (said k.name)) = .ok space ∧
      space.Sorts (k.withRules rules h.flat) v found (thing :: others) negatives ∧
      space.maxBody = l.options.c := by
  obtain ⟨v, found, hnodup, hfound, hbottom⟩ := BottomClause.exists_ofAttributes (h.stores hl)
    hl.callable hl.facts_le hl.answers hl.rounds thing
  have hmem : ∀ a, a ∈ found ↔ a ∈ attributes ∧ (a, thing) ∈ k.facts := hfound
  have hspace : l.space learned (said k.name thing) (others.map (said k.name)) =
      .ok (.make (.ofAttributes v k.name found) (l.knowledge learned)
        (said k.name thing :: others.map (said k.name)) l.negatives l.options.h l.options.c) := by
    rw [space, hl.modes]
    exact congrArg (Except.map _) hbottom
  have hwidth : found.length ≤ attributes.length :=
    (List.subperm_of_subset hnodup fun a ha => ((hmem a).1 ha).1).length_le
  refine ⟨v, found, _, hnodup, hmem, hwidth, hspace, ?_, rfl⟩
  exact {
    stores := h.stores hl
    clause := rfl
    flat := fun hname => (hl.callable _ ((hmem _).1 hname).1).1 rfl
    outputs := rfl
    inputs := fun link hlink w hw => by
      obtain ⟨a, -, rfl⟩ := List.mem_map.1 hlink
      exact hw
    positives := rfl
    negatives := hl.negatives
    affords := ⟨_, hwidth, h.affords hl hmore⟩ }

end

/-! ## The stages -/

section

variable (hl : l.Sorts k attributes negatives) {things : List String} {n : Nat} {left : List Clause}
  {s : State}

include hl

/-- Between two turns the learned clauses are rules, no more than there were turns, and the examples left
are things. -/
theorem Stage.knows (hs : l.Stage (things.map (said k.name)) n left s) :
    ∃ rules rest, Knows k attributes.length rules s.learned ∧
      rules.length + n ≤ l.options.maxClauses ∧ left = List.map (said k.name) rest := by
  induction hs with
  | start => exact ⟨[], things, knows_empty, Nat.le_of_eq (Nat.zero_add _), rfl⟩
  | @turn n seed others left s t before turned ih =>
    obtain ⟨rules, rest, hknows, hmost, hrest⟩ := ih
    obtain ⟨thing, rest, rfl, rfl, rfl⟩ := List.map_eq_cons_iff.1 hrest.symm
    obtain ⟨⟨space', log, hspace', hlearned⟩, hleft, -⟩ := turn_eq_ok turned
    have hthings : left = (rest.filter fun o => !l.covers t.learned (said k.name o)).map
        (said k.name) := by
      rw [hleft, List.filter_map]
      rfl
    obtain ⟨v, found, space, -, -, hwidth, hspace, hsorts, -⟩ :=
      hknows.exists_space hl (by omega) thing rest
    obtain rfl := Except.ok.inj (hspace.symm.trans hspace')
    obtain ⟨-, hsame⟩ | ⟨hyp, isNew, hrun, hadd⟩ := hlearned
    · exact ⟨rules, _, hsame ▸ hknows, by omega, hthings⟩
    obtain ⟨hclause, hchoice⟩ := hsorts.clause_of_run hrun
    rw [hclause] at hadd
    obtain hsame | hnew := hknows.add hadd (hsorts.flat_chosen _)
      (Nat.le_trans (hsorts.length_chosen_le hchoice) hwidth)
    · exact ⟨rules, _, hsame ▸ hknows, by omega, hthings⟩
    · refine ⟨_, _, hnew, ?_, hthings⟩
      rw [List.length_append, List.length_singleton]
      omega

/-- What is found is found among the attributes of a thing. -/
theorem Finds.exists_sorts {space : HypothesisSpace} {hyp : Hypothesis}
    (hfinds : l.Finds (things.map (said k.name)) s space hyp) :
    ∃ rules v found positives, ∃ hknows : Knows k attributes.length rules s.learned,
      space.Sorts (k.withRules rules hknows.flat) v found positives negatives := by
  obtain ⟨n, seed, others, log, hs, hspace, -⟩ := hfinds
  obtain ⟨rules, rest, hknows, hmost, hrest⟩ := hs.knows hl
  obtain ⟨thing, rest, rfl, rfl, rfl⟩ := List.map_eq_cons_iff.1 hrest.symm
  obtain ⟨v, found, space', -, -, -, hspace', hsorts, -⟩ :=
    hknows.exists_space hl (by omega) thing rest
  obtain rfl := Except.ok.inj (hspace'.symm.trans hspace)
  exact ⟨rules, v, found, _, hknows, hsorts⟩

/-- No test of a rule that the search can meet is cut. -/
theorem Finds.decides {space : HypothesisSpace} {hyp : Hypothesis}
    (hfinds : l.Finds (things.map (said k.name)) s space hyp) {ks : List Nat}
    (hks : space.IsChoice ks) (thing : String) :
    space.Decides (space.scored ks).clause (said k.name thing) := by
  obtain ⟨rules, v, found, positives, hknows, hsorts⟩ := hfinds.exists_sorts hl
  exact (hsorts.accepts_scored hks thing).2

theorem Stage.isDecided (hs : l.Stage (things.map (said k.name)) n left s) (thing : String) :
    (said k.name thing).IsDecided (l.knowledge s.learned).candidates l.options.h := by
  obtain ⟨rules, rest, hknows, hmost, -⟩ := hs.knows hl
  exact (hknows.stores hl).isDecided (hknows.affords hl (show rules.length + n ≤ _ from hmost)) thing

end

/-! ## Turns -/

/-- The end of a turn for a thing, by the rules that are known then. -/
def ending (k : Classification) (rules : List (Var × List String)) (thing : String)
    (others : List String) (uncovered : List Clause) (learned : Store) (log : EventLog) :
    List Clause × State :=
  ((others.filter fun o => !rules.any fun r => k.hasAll r.2 o).map (said k.name),
    ⟨learned, if rules.any fun r => k.hasAll r.2 thing then uncovered
      else uncovered ++ [said k.name thing], log⟩)

section

variable (hl : l.Sorts k attributes negatives) {s : State} {thing : String} {others : List String}

include hl

theorem Knows.exists_turn (h : Knows k attributes.length rules learned)
    (hmost : rules.length ≤ l.options.maxClauses) {space : HypothesisSpace}
    (hspace : l.space s.learned (said k.name thing) (others.map (said k.name)) = .ok space)
    {found : Option Clause} (hfound : ∀ log, (space.run log).1.map Hypothesis.clause = found)
    (hlearned : found.elim (.ok s.learned) (fun c => (s.learned.add c).map Prod.snd) = .ok learned) :
    ∃ log, l.turn (said k.name thing) (others.map (said k.name)) s =
      .ok (ending k rules thing others s.uncovered learned log) := by
  obtain ⟨log, hturn⟩ := Learner.exists_turn hspace hfound hlearned
  have hleft : (others.map (said k.name)).filter (fun e => !l.covers learned e) =
      (others.filter fun o => !rules.any fun r => k.hasAll r.2 o).map (said k.name) := by
    rw [List.filter_map]
    refine congrArg _ (List.filter_congr fun o _ => ?_)
    rw [Function.comp_apply, h.covers_eq hl hmost]
  rw [hleft, h.covers_eq hl hmost] at hturn
  exact ⟨log, hturn⟩

variable (h : Knows k attributes.length rules s.learned)
  (hmore : rules.length + 1 ≤ l.options.maxClauses) (hnegatives : negatives ≠ [])
  (thing others)

include h hmore hnegatives

/-- A turn for a thing without attributes learns nothing. -/
theorem Knows.turn_of_none (hnone : ∀ a ∈ attributes, (a, thing) ∉ k.facts) :
    ∃ log, l.turn (said k.name thing) (others.map (said k.name)) s =
      .ok (ending k rules thing others s.uncovered s.learned log) := by
  obtain ⟨v, found, space, -, hfound, -, hspace, hsorts, -⟩ := h.exists_space hl hmore thing others
  obtain rfl : found = [] := List.eq_nil_iff_forall_not_mem.2 fun a ha =>
    hnone a ((hfound a).1 ha).1 ((hfound a).1 ha).2
  refine h.exists_turn hl (Nat.le_of_succ_le hmore) hspace (fun log => ?_)
    (show Option.elim none (Except.ok s.learned) _ = _ from rfl)
  rw [hsorts.run_of_nil hnegatives log]
  rfl

/-- A turn for a thing with one attribute that tells it from the negative examples learns the rule for
that attribute. -/
theorem Knows.turn_of_one {a : String} (hone : ∀ b, b ∈ attributes ∧ (b, thing) ∈ k.facts ↔ b = a)
    (hlimit : l.options.c < 2 ^ 63) (hc : 1 ≤ l.options.c)
    (hnegative : ∀ o ∈ negatives, (k.hasAll [a] o || rules.any fun r => k.hasAll r.2 o) = false)
    (hnew : ∀ r ∈ rules, r.2 ≠ [a]) :
    ∃ v learned log, Knows k attributes.length (rules ++ [(v, [a])]) learned ∧
      l.turn (said k.name thing) (others.map (said k.name)) s =
        .ok (ending k (rules ++ [(v, [a])]) thing others s.uncovered learned log) := by
  obtain ⟨v, found, space, hnodup, hfound, hwidth, hspace, hsorts, hmaxBody⟩ :=
    h.exists_space hl hmore thing others
  obtain rfl : found = [a] := by
    refine List.perm_singleton.1 ((List.perm_ext_iff_of_nodup hnodup (List.nodup_singleton a)).2 ?_)
    intro b
    rw [hfound, hone, List.mem_singleton]
  obtain ⟨⟨isNew, learned⟩, hadd⟩ := s.learned.exists_add
    (c := sortingRule v k.name [a]) rfl hasPlaceholders_sortingRule
  have hknows : Knows k attributes.length (rules ++ [(v, [a])]) learned := by
    refine (h.add hadd hsorts.flat hwidth).resolve_left fun hsame => ?_
    have hmem := (h.filed.mem_clauses_add hadd).2 (.inl rfl)
    rw [hsame, h.clauses] at hmem
    obtain ⟨r, hr, heq⟩ := List.mem_map.1 hmem
    exact hnew r hr (attributes_eq_of_sortingRule_eq heq)
  have hhas : k.hasAll [a] thing = true := by
    simp [Classification.hasAll, ((hone a).2 rfl).2]
  have hrun := hsorts.run_of_singleton hnegatives (hmaxBody ▸ hlimit) (hmaxBody ▸ hc)
    ⟨thing, List.mem_cons_self, hhas⟩ hnegative
  obtain ⟨log, hturn⟩ := hknows.exists_turn hl (by simpa using hmore) hspace hrun
    (congrArg (Except.map Prod.snd) hadd)
  exact ⟨v, learned, log, hknows, hturn⟩

end

end

/-! ## A class with two kinds of members -/

section

/-- Two things with an attribute each, which no thing else has. -/
def kinds : Classification := .ofFacts "p" [("q", "a"), ("r", "b")] (by decide)

def kindsOptions : Options := { Options.default with maxClauses := 3 }

/-- The learner of what puts things into the class, where `d` must not be of it. -/
def kindsLearner (background : LayeredStore) : Learner where
  background := background
  modes := sortingModes "p" ["q", "r"]
  negatives := ["d"].map (said "p")
  options := kindsOptions

/-- Members of the class, of which `c` has no attribute. -/
def kindsExamples : List Clause := ["a", "c", "b"].map (said "p")

variable {background : LayeredStore}

theorem sorts_kinds (h : background.Stores kinds) :
    (kindsLearner background).Sorts kinds ["q", "r"] ["d"] where
  stores := h
  bare := rfl
  modes := rfl
  callable := by decide
  negatives := rfl
  rounds := (by decide : 0 < kindsOptions.i)
  answers := (by decide : kinds.facts.length ≤ kindsOptions.maxRecall)
  affords := ⟨nofun, (by decide : (kinds.clauses.length + kindsOptions.maxClauses + 1) ^ 3 ≤
    kindsOptions.h + 1)⟩

/-- The turn for `a` learns a rule with its attribute, the one for `c` nothing, and the one for `b` a rule
with the other attribute. -/
theorem turns_kinds (h : background.Stores kinds) :
    ∃ v w s₁ s₂ s₃, let l := kindsLearner background
      l.turn (said "p" "a") (["c", "b"].map (said "p")) l.start =
          .ok (["c", "b"].map (said "p"), s₁) ∧
        Knows kinds 2 [(v, ["q"])] s₁.learned ∧ s₁.uncovered = [] ∧
      l.turn (said "p" "c") (["b"].map (said "p")) s₁ = .ok (["b"].map (said "p"), s₂) ∧
        s₂.learned = s₁.learned ∧ s₂.uncovered = [said "p" "c"] ∧
      l.turn (said "p" "b") [] s₂ = .ok ([], s₃) ∧
        Knows kinds 2 [(v, ["q"]), (w, ["r"])] s₃.learned ∧ s₃.uncovered = [said "p" "c"] := by
  have hl := sorts_kinds h
  have hc : 1 ≤ kindsOptions.c ∧ kindsOptions.c < 2 ^ 63 := by decide
  have hmost : ∀ n ≤ 3, n ≤ (kindsLearner background).options.maxClauses := fun n hn => hn
  have hone : ∀ e ∈ kinds.facts, ∀ b, b ∈ ["q", "r"] ∧ (b, e.2) ∈ kinds.facts ↔ b = e.1 := by
    intro e he b
    have hall : ∀ e ∈ kinds.facts, ∀ b ∈ ["q", "r"], (b, e.2) ∈ kinds.facts ↔ b = e.1 := by decide
    have hattribute : ∀ e ∈ kinds.facts, e.1 ∈ ["q", "r"] := by decide
    refine ⟨fun hb => (hall e he b hb.1).1 hb.2, fun hb => ?_⟩
    exact hb ▸ ⟨hattribute e he, he⟩
  have hstart : Knows kinds 2 [] (kindsLearner background).start.learned := knows_empty
  obtain ⟨v, learned₁, log₁, hknows₁, hturn₁⟩ := hstart.turn_of_one hl "a" ["c", "b"]
    (hmost 1 (by decide)) (by decide) (hone ("q", "a") (by decide)) hc.2 hc.1 (by decide) nofun
  obtain ⟨log₂, hturn₂⟩ := Knows.turn_of_none (s := ⟨learned₁, [], log₁⟩) hl "c" ["b"]
    hknows₁ (hmost 2 (by decide)) (by decide) (by decide)
  obtain ⟨w, learned₃, log₃, hknows₃, hturn₃⟩ := Knows.turn_of_one
    (s := ⟨learned₁, [said "p" "c"], log₂⟩) hl "b" [] hknows₁ (hmost 2 (by decide)) (by decide)
    (hone ("r", "b") (by decide)) hc.2 hc.1 (List.forall_mem_singleton.2 rfl)
    (List.forall_mem_singleton.2 (show ["q"] ≠ ["r"] by decide))
  exact ⟨v, w, ⟨learned₁, [], log₁⟩, ⟨learned₁, [said "p" "c"], log₂⟩,
    ⟨learned₃, [said "p" "c"], log₃⟩, hturn₁, hknows₁, rfl, hturn₂, rfl, rfl, hturn₃, hknows₃, rfl⟩

/-- Two rules are learned, and the thing without attributes is reported. -/
theorem induce_kinds (h : background.Stores kinds) :
    ∃ v w r store, (kindsLearner background).induce kindsExamples = .ok r ∧
      r.learned = [sortingRule v "p" ["q"], sortingRule w "p" ["r"]] ∧
      r.uncovered = [said "p" "c"] ∧ Store.ofClauses r.learned = .ok store ∧
      Knows kinds 2 [(v, ["q"]), (w, ["r"])] store := by
  obtain ⟨v, w, s₁, s₂, s₃, hturn₁, -, -, hturn₂, -, -, hturn₃, hknows, huncovered⟩ := turns_kinds h
  have hturns : (kindsLearner background).turns 3 kindsExamples (kindsLearner background).start =
      .ok s₃ := (turns_of_turn hturn₁).trans ((turns_of_turn hturn₂).trans (turns_of_turn hturn₃))
  obtain ⟨r, hinduce, hlearned, hreported⟩ := exists_induce hturns
  have hstage : (kindsLearner background).Stage kindsExamples 0 [] s₃ :=
    .turn (.turn (.turn .start hturn₁) hturn₂) hturn₃
  exact ⟨v, w, r, s₃.learned, hinduce, hlearned.trans hknows.clauses, hreported.trans huncovered,
    hlearned ▸ hstage.isReplayed, hknows⟩

end

end Learner
end Horn
