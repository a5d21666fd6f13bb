import Horn.Proofs.Descent
import Horn.Proofs.IncrementalCoverage
import Horn.Proofs.ModeFlow
import Horn.Proofs.StoreRefinement

/-!
Programs that sort things by their attributes: ground facts say which things have which attributes, and
rules put into one class what has some of them.  What such a program proves can be read off from its
tables.  Its calls descend, so a test with steps enough says the same.
-/

namespace Horn

/-- The fact that a thing has an attribute, or is of a class. -/
def said (name thing : String) : Clause := .fact (.predicate ⟨name, [.symbol thing]⟩)

/-- The rule that puts into a class what has all of some attributes. -/
def sortingRule (v : Var) (name : String) (attributes : List String) : Clause :=
  .rule (.predicate ⟨name, [.var v]⟩) (attributes.map fun a => .predicate ⟨a, [.var v]⟩)

theorem subterms_sortingRule {v : Var} {name : String} {attributes : List String} {t : Term}
    (ht : t ∈ HasTerms.subterms (sortingRule v name attributes)) : t = .var v := by
  rw [Clause.subterms_eq] at ht
  obtain ⟨a, ha, ht⟩ := List.mem_flatMap.1 ht
  rcases List.mem_cons.1 ha with rfl | ha
  · exact List.mem_singleton.1 ht
  · obtain ⟨b, -, rfl⟩ := List.mem_map.1 ha
    exact List.mem_singleton.1 ht

theorem hasPlaceholders_sortingRule {v : Var} {name : String} {attributes : List String} :
    hasPlaceholders (sortingRule v name attributes) = false := by
  rw [hasPlaceholders, List.any_eq_false]
  intro t ht
  rw [subterms_sortingRule ht]
  exact Bool.false_ne_true

theorem attributes_eq_of_sortingRule_eq {v w : Var} {name : String} {attributes others : List String}
    (h : sortingRule v name attributes = sortingRule w name others) : attributes = others := by
  have hbody : attributes.map (fun a => Atom.predicate ⟨a, [.var v]⟩) =
      others.map fun a => .predicate ⟨a, [.var w]⟩ := congrArg Clause.body h
  clear h
  induction attributes generalizing others with
  | nil => exact (List.map_eq_nil_iff.1 hbody.symm).symm
  | cons a attributes ih =>
    obtain ⟨b, others, rfl, hatom, hrest⟩ := List.map_eq_cons_iff.1 hbody.symm
    obtain ⟨rfl, -⟩ := Predicate.mk.inj (Atom.predicate.inj hatom)
    rw [ih hrest.symm]

/-- Rules for one class, and the attributes that things have. -/
structure Classification where
  name : String
  rules : List (Var × List String)
  facts : List (String × String)
  apart : ∀ e ∈ facts, e.1 ≠ name
  flat : ∀ r ∈ rules, name ∉ r.2

namespace Classification

variable (k : Classification)

def clauses : List Clause :=
  (k.rules.map fun r => sortingRule r.1 k.name r.2) ++ k.facts.map fun e => said e.1 e.2

/-- Whether a thing has all of some attributes. -/
def hasAll (attributes : List String) (thing : String) : Bool :=
  attributes.all fun a => k.facts.contains (a, thing)

/-- Whether some rule puts a thing into the class. -/
def admits (thing : String) : Bool := k.rules.any fun r => k.hasAll r.2 thing

/-- What is known before any rule. -/
def ofFacts (name : String) (facts : List (String × String)) (apart : ∀ e ∈ facts, e.1 ≠ name) :
    Classification :=
  ⟨name, [], facts, apart, List.forall_mem_nil _⟩

/-- The same classification with one more rule. -/
def withRule (v : Var) (attributes : List String) (h : k.name ∉ attributes) : Classification :=
  { k with
    rules := (v, attributes) :: k.rules
    flat := List.forall_mem_cons.2 ⟨h, k.flat⟩ }

variable {k}

theorem mem_clauses {c : Clause} : c ∈ k.clauses ↔
    (∃ r ∈ k.rules, sortingRule r.1 k.name r.2 = c) ∨ ∃ e ∈ k.facts, said e.1 e.2 = c := by
  rw [clauses, List.mem_append, List.mem_map, List.mem_map]

theorem spec_of_mem {c : Clause} (hc : c ∈ k.clauses) : Normal c ∧ c.IsPlain := by
  rcases mem_clauses.1 hc with ⟨r, -, rfl⟩ | ⟨e, -, rfl⟩
  · refine ⟨fun t ht => ?_, fun a ha => ?_⟩
    · rw [subterms_sortingRule ht]
      rfl
    · obtain ⟨b, -, rfl⟩ := List.mem_map.1 ha
      trivial
  · exact ⟨List.forall_mem_singleton.2 rfl, nofun⟩

/-! ## What is proved -/

theorem proves_said_iff {a thing : String} (ha : a ≠ k.name) :
    Proves k.clauses (.predicate ⟨a, [.symbol thing]⟩) ↔ (a, thing) ∈ k.facts := by
  constructor
  · intro h
    obtain ⟨c, stored, θ, head, -⟩ := h.exists_clause rfl
    rcases mem_clauses.1 stored with ⟨r, -, rfl⟩ | ⟨e, he, rfl⟩
    · obtain ⟨hname, -⟩ := Predicate.mk.inj (Atom.predicate.inj (Option.some.inj head))
      exact absurd hname.symm ha
    · obtain ⟨rfl, hargs⟩ := Predicate.mk.inj (Atom.predicate.inj (Option.some.inj head))
      have hthing : Term.symbol e.2 = .symbol thing := List.singleton_inj.1 hargs
      obtain rfl : e.2 = thing := by simpa [Term.symbol] using hthing
      exact he
  · intro h
    exact .clause .identity (mem_clauses.2 (.inr ⟨_, h, rfl⟩)) rfl rfl nofun

theorem proves_iff {thing : String} :
    Proves k.clauses (.predicate ⟨k.name, [.symbol thing]⟩) ↔ k.admits thing = true := by
  simp only [admits, hasAll, List.any_eq_true, List.all_eq_true, List.contains_iff_mem]
  constructor
  · intro h
    obtain ⟨c, stored, θ, head, body⟩ := h.exists_clause rfl
    rcases mem_clauses.1 stored with ⟨r, hr, rfl⟩ | ⟨e, he, rfl⟩
    · obtain ⟨-, hargs⟩ := Predicate.mk.inj (Atom.predicate.inj (Option.some.inj head))
      have hvalue : θ.value r.1 = .symbol thing := List.singleton_inj.1 hargs
      refine ⟨r, hr, fun a ha => (proves_said_iff fun heq => k.flat r hr (heq ▸ ha)).1 ?_⟩
      have hcondition := body (.predicate ⟨a, [θ.value r.1]⟩)
        (List.mem_map.2 ⟨_, List.mem_map.2 ⟨a, ha, rfl⟩, rfl⟩)
      rwa [hvalue] at hcondition
    · obtain ⟨hname, -⟩ := Predicate.mk.inj (Atom.predicate.inj (Option.some.inj head))
      exact absurd hname (k.apart e he)
  · rintro ⟨r, hr, hall⟩
    let θ : Valuation := ⟨fun _ => .symbol thing, fun _ => rfl⟩
    refine .clause θ (mem_clauses.2 (.inl ⟨r, hr, rfl⟩)) rfl rfl fun b hb => ?_
    obtain ⟨condition, hcondition, rfl⟩ := List.mem_map.1 hb
    obtain ⟨a, ha, rfl⟩ := List.mem_map.1 hcondition
    exact (proves_said_iff fun heq => k.flat r hr (heq ▸ ha)).2 (hall a ha)

/-! ## What is tested -/

/-- The steps are enough for every test with so many more rules, all of them no wider than this. -/
structure Affords (k : Classification) (more width steps : Nat) : Prop where
  narrow : ∀ r ∈ k.rules, r.2.length ≤ width
  enough : (k.clauses.length + more + 1) ^ (width + 1) ≤ steps + 1

theorem Affords.withRule {more width steps : Nat} (h : k.Affords (more + 1) width steps) {v : Var}
    {attributes : List String} (hflat : k.name ∉ attributes) (hlength : attributes.length ≤ width) :
    (k.withRule v attributes hflat).Affords more width steps := by
  refine ⟨List.forall_mem_cons.2 ⟨hlength, h.narrow⟩, ?_⟩
  have hclauses : (k.withRule v attributes hflat).clauses.length = k.clauses.length + 1 := rfl
  rw [hclauses, Nat.add_right_comm k.clauses.length 1 more]
  exact h.enough

/-- The class is above the attributes, of which a rule asks for so many at most. -/
def level (k : Classification) (width : Nat) (name : String) : Nat :=
  if name = k.name then width + 1 else 1

theorem loadAll_conditions {v : Var} {width : Nat} {attributes : List String}
    (h : k.name ∉ attributes) :
    Literal.loadAll (k.level width)
      ((attributes.map fun a => Atom.predicate ⟨a, [.var v]⟩).map .atom) = attributes.length := by
  induction attributes with
  | nil => simp
  | cons a attributes ih =>
    rw [List.mem_cons, not_or] at h
    rw [List.map_cons, List.map_cons, Literal.loadAll_cons, ih h.2, Literal.load, level,
      if_neg (Ne.symm h.1), List.length_cons, Nat.add_comm]

end Classification

/-- The store of a classification. -/
structure LayeredStore.Stores (s : LayeredStore) (k : Classification) : Prop where
  filed : s.IsFiled
  mem : ∀ c, c ∈ s.clauses ↔ c ∈ k.clauses

/-- Where no line of the tables is repeated, a store holds the classification. -/
theorem Classification.exists_stores {k : Classification} (hnodup : k.clauses.Nodup)
    (h : ∀ c ∈ k.clauses, c.refusal? = none) :
    ∃ s : Store, s.Reachable ∧ (LayeredStore.ofStore s).Stores k := by
  obtain ⟨s, hs, hclauses⟩ := Store.exists_clauses hnodup h
  refine ⟨s, hs, List.forall_mem_singleton.2 hs.isFiled, fun c => ?_⟩
  rw [LayeredStore.clauses, LayeredStore.mem_union]
  simp [LayeredStore.ofStore, hclauses]

namespace LayeredStore.Stores

variable {s : LayeredStore} {k : Classification} {more width steps : Nat} (h : s.Stores k)

include h

theorem descends (hwidth : ∀ r ∈ k.rules, r.2.length ≤ width) :
    Descends s.candidates (k.level width) k.clauses.length := by
  refine h.filed.descends (fun c => (h.mem c).1) fun c hc head hhead => ?_
  rcases Classification.mem_clauses.1 ((h.mem c).1 hc) with ⟨r, hr, rfl⟩ | ⟨e, -, rfl⟩
  · obtain rfl := Option.some.inj hhead
    have hload : Literal.loadAll (k.level width)
        ((r.2.map fun a => Atom.predicate ⟨a, [.var r.1]⟩).map .atom) = r.2.length :=
      Classification.loadAll_conditions (k.flat r hr)
    have hlength := hwidth r hr
    have hlevel : k.level width k.name = width + 1 := if_pos rfl
    show Literal.loadAll (k.level width)
      ((r.2.map fun a => Atom.predicate ⟨a, [.var r.1]⟩).map .atom) < k.level width k.name
    omega
  · obtain rfl := Option.some.inj hhead
    show Literal.loadAll _ [] < k.level width e.1
    rw [Literal.loadAll_nil, Classification.level]
    split <;> omega

theorem isDecided (hsteps : k.Affords more width steps) (thing : String) :
    (said k.name thing).IsDecided s.candidates steps := by
  refine Clause.isDecided_of_descends (h.descends hsteps.narrow) rfl ?_
  rw [Classification.level, if_pos rfl]
  refine Nat.le_trans (Nat.pow_le_pow_left ?_ _) hsteps.enough
  omega

theorem isCovered (hsteps : k.Affords more width steps) (thing : String) :
    (said k.name thing).isCovered s.candidates steps = k.admits thing := by
  have hcomplete : s.knowledge.IsComplete :=
    h.filed.isComplete fun c hc => (Classification.spec_of_mem ((h.mem c).1 hc)).1
  have hplain : ∀ c ∈ s.clauses, c.IsPlain := fun c hc =>
    (Classification.spec_of_mem ((h.mem c).1 hc)).2
  have hsame : Proves s.clauses (.predicate ⟨k.name, [.symbol thing]⟩) ↔ k.admits thing = true :=
    Iff.trans ⟨Proves.mono fun c => (h.mem c).1, Proves.mono fun c => (h.mem c).2⟩
      Classification.proves_iff
  have hderived : (said k.name thing).IsDerived s.candidates ↔
      ∃ θ : Valuation, Proves s.clauses (θ.apply (.predicate ⟨k.name, [.symbol thing]⟩)) :=
    Clause.isDerived_iff_proves hcomplete hplain rfl trivial
  rw [Bool.eq_iff_iff, (h.isDecided hsteps thing).isCovered_iff, hderived, ← hsame]
  exact ⟨fun ⟨_, hproved⟩ => hproved, fun hproved => ⟨.identity, hproved⟩⟩

end LayeredStore.Stores

namespace HypothesisSpace

variable {s : HypothesisSpace} {k : Classification} {v : Var} {attributes : List String}

/-- A rule is tested as one more rule of what is known. -/
theorem trial?_sortingRule (h : s.knowledge.Stores k) (hflat : k.name ∉ attributes) :
    ∃ t, s.trial? (sortingRule v k.name attributes) = some t ∧
      t.Stores (k.withRule v attributes hflat) := by
  obtain ⟨t, ht⟩ := Option.isSome_iff_exists.1
    (trial?_isSome (s := s).2 ⟨rfl, hasPlaceholders_sortingRule⟩)
  obtain ⟨hfiled, hmem⟩ := trial?_spec ht h.filed
  refine ⟨t, ht, hfiled, fun c => ?_⟩
  rw [hmem, h.mem]
  show _ ↔ c ∈ sortingRule v k.name attributes :: k.clauses
  exact List.mem_cons.symm

/-- The test of a rule asks whether it, or a rule known already, puts the thing into the class. -/
theorem accepts_sortingRule (h : s.knowledge.Stores k) (hflat : k.name ∉ attributes)
    {width : Nat} (hsteps : k.Affords 1 width s.steps) (hwidth : attributes.length ≤ width)
    (thing : String) :
    s.accepts (sortingRule v k.name attributes) (said k.name thing) =
        (k.hasAll attributes thing || k.admits thing) ∧
      s.Decides (sortingRule v k.name attributes) (said k.name thing) := by
  obtain ⟨t, ht, hstores⟩ := trial?_sortingRule (v := v) h hflat
  have hmore := hsteps.withRule (v := v) hflat hwidth
  refine ⟨?_, fun t' ht' => ?_⟩
  · rw [accepts, ht, Option.any_some]
    exact hstores.isCovered hmore thing
  · obtain rfl := Option.some.inj (ht.symm.trans ht')
    exact hstores.isDecided hmore thing

/-! ## Searches below a rule -/

/-- The search is for a rule with some of the attributes, each of which asks for the thing alone. -/
structure Sorts (s : HypothesisSpace) (k : Classification) (v : Var) (attributes : List String)
    (positives negatives : List String) : Prop where
  stores : s.knowledge.Stores k
  clause : s.bottom.clause = sortingRule v k.name attributes
  flat : k.name ∉ attributes
  outputs : s.bottom.head.outputs = []
  inputs : ∀ l ∈ s.bottom.links, ∀ w ∈ l.inputs, w ∈ s.bottom.head.inputs
  positives : s.positives = positives.map (said k.name)
  negatives : s.negatives = negatives.map (said k.name)
  affords : ∃ width, attributes.length ≤ width ∧ k.Affords 1 width s.steps

/-- The attributes at the given places. -/
def chosenAttributes (attributes : List String) (ks : List Nat) : List String :=
  ks.filterMap fun i => attributes[i]?

namespace Sorts

variable {positives negatives : List String} {ks : List Nat}

section

variable (h : s.Sorts k v attributes positives negatives)

include h

theorem body_eq : s.bottom.body = attributes.map fun a => .predicate ⟨a, [.var v]⟩ := by
  rw [BottomClause.body, h.clause]
  rfl

theorem linksAgree (hnodup : attributes.Nodup) : s.bottom.LinksAgree := by
  refine BottomClause.linksAgree_of_nodup ?_
  rw [h.body_eq]
  exact hnodup.map fun a b hab => (Predicate.mk.inj (Atom.predicate.inj hab)).1

theorem scored_clause (ks : List Nat) :
    (s.scored ks).clause = sortingRule v k.name (chosenAttributes attributes ks) := by
  have hatoms : s.atomsAt ks =
      (chosenAttributes attributes ks).map fun a => .predicate ⟨a, [.var v]⟩ := by
    rw [atomsAt, h.body_eq, chosenAttributes, List.map_filterMap]
    exact List.filterMap_congr fun i _ => List.getElem?_map
  show (⟨s.bottom.clause.head, s.atomsAt ks⟩ : Clause) = _
  rw [hatoms, h.clause]
  rfl

theorem flat_chosen (ks : List Nat) : k.name ∉ chosenAttributes attributes ks := fun hmem => by
  obtain ⟨i, -, hi⟩ := List.mem_filterMap.1 hmem
  exact h.flat (List.mem_of_getElem? hi)

theorem length_chosen_le (hks : s.IsChoice ks) :
    (chosenAttributes attributes ks).length ≤ attributes.length := by
  have hshort := hks.sublist_range.length_le
  rw [List.length_range, h.body_eq, List.length_map] at hshort
  exact Nat.le_trans (List.length_filterMap_le _ _) hshort

/-- The test of a choice asks for the attributes at its places. -/
theorem accepts_scored (hks : s.IsChoice ks) (thing : String) :
    s.accepts (s.scored ks).clause (said k.name thing) =
        (k.hasAll (chosenAttributes attributes ks) thing || k.admits thing) ∧
      s.Decides (s.scored ks).clause (said k.name thing) := by
  obtain ⟨width, hwidth, haffords⟩ := h.affords
  rw [h.scored_clause]
  exact accepts_sortingRule h.stores (h.flat_chosen ks) haffords
    (Nat.le_trans (h.length_chosen_le hks) hwidth) thing

/-- What has the attributes of a choice has those of its beginnings. -/
theorem along_eq_scored (hks : s.IsChoice ks) : s.along ks = s.scored ks := by
  have hnarrow : ∀ things : List String, ∀ e ∈ things.map (said k.name),
      s.accepts (s.scored ks).clause e = true → ∀ i ≤ ks.length,
        s.accepts (s.scored (ks.take i)).clause e = true := by
    intro things e he haccepts i _
    obtain ⟨thing, -, rfl⟩ := List.mem_map.1 he
    rw [(h.accepts_scored hks thing).1, Bool.or_eq_true] at haccepts
    rw [(h.accepts_scored (hks.take i) thing).1, Bool.or_eq_true]
    refine haccepts.imp_left fun hall => List.all_eq_true.2 fun a ha => ?_
    obtain ⟨j, hj, hja⟩ := List.mem_filterMap.1 ha
    exact List.all_eq_true.1 hall a (List.mem_filterMap.2 ⟨j, List.mem_of_mem_take hj, hja⟩)
  refine HypothesisSpace.along_eq_scored hks ?_
  rw [h.positives, h.negatives]
  exact List.forall_mem_append.2 ⟨hnarrow positives, hnarrow negatives⟩

theorem count_scored (hks : s.IsChoice ks) :
    (s.scored ks).p = positives.countP
        (fun thing => k.hasAll (chosenAttributes attributes ks) thing || k.admits thing) ∧
      (s.scored ks).n = negatives.countP
        (fun thing => k.hasAll (chosenAttributes attributes ks) thing || k.admits thing) := by
  have hcount : ∀ things : List String,
      (s.covered (s.scored ks).clause (things.map (said k.name))
        (List.range (things.map (said k.name)).length)).length = things.countP
          (fun thing => k.hasAll (chosenAttributes attributes ks) thing || k.admits thing) := by
    intro things
    rw [length_covered, List.countP_map]
    exact List.countP_congr fun thing _ => by
      rw [Function.comp_apply, (h.accepts_scored hks thing).1]
  refine ⟨?_, ?_⟩
  · show (s.covered (s.scored ks).clause s.positives (List.range s.positives.length)).length = _
    rw [h.positives]
    exact hcount positives
  · show (s.covered (s.scored ks).clause s.negatives (List.range s.negatives.length)).length = _
    rw [h.negatives]
    exact hcount negatives

theorem missing_scored (ks : List Nat) : (s.scored ks).missing = 0 := by
  refine BottomClause.remainingDepth_eq_zero_iff.2 (BottomClause.unresolved_eq_nil_iff.2 ⟨?_, ?_⟩)
  · rw [h.outputs]
    exact nofun
  · intro i _ l hl w hw
    exact .inl (h.inputs l (List.mem_of_getElem? hl) w hw)

/-- The scores of a choice, counted by the attributes at its places. -/
theorem values_along (hks : s.IsChoice ks) :
    let isMember (thing : String) := k.hasAll (chosenAttributes attributes ks) thing || k.admits thing
    (s.along ks).p = positives.countP isMember ∧ (s.along ks).n = negatives.countP isMember ∧
      (s.along ks).g = positives.countP isMember - ks.length ∧
      (s.along ks).f = positives.countP isMember - ks.length - negatives.countP isMember := by
  intro isMember
  obtain ⟨hp, hn⟩ := h.count_scored hks
  have hc := c_along hks
  rw [h.along_eq_scored hks] at hc ⊢
  have hg : (s.scored ks).g = positives.countP isMember - ks.length := by
    rw [Hypothesis.g, hp, hc, h.missing_scored ks]
    exact Int.sub_zero _
  exact ⟨hp, hn, hg, by rw [Hypothesis.f, hg, hn]⟩

theorem isSolution_iff (hks : s.IsChoice ks) : (s.scored ks).isSolution = true ↔
    (s.along ks).n = 0 ∧ 0 < (s.along ks).p := by
  rw [h.along_eq_scored hks, Hypothesis.isSolution, h.missing_scored ks]
  simp

end
end Sorts

end HypothesisSpace
end Horn
