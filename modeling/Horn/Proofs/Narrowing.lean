import Horn.Proofs.BestFirst
import Horn.Proofs.Coverage

/-!
Coverage on the way to a hypothesis.  A search tests a hypothesis on the negative examples that the
one before it covers, so it relies on coverage to narrow along the way.  Without comparisons it does,
where the tests are not cut: a proof that uses a clause is a proof that uses the clause with fewer
conditions.
-/

namespace Horn

namespace HypothesisSpace

variable {s : HypothesisSpace}

/-- A negative example that a choice covers is covered all the way to it. -/
def Narrows (s : HypothesisSpace) (ks : List Nat) : Prop :=
  ∀ e ∈ s.negatives, s.accepts (s.scored ks).clause e = true →
    ∀ i ≤ ks.length, s.accepts (s.scored (ks.take i)).clause e = true

/-- Whether the example at a place is covered by a choice and by all that it goes through. -/
def coversAlong (s : HypothesisSpace) (ks : List Nat) (examples : List Clause) (place : Nat) : Bool :=
  (List.range (ks.length + 1)).all fun i => s.covers (s.scored (ks.take i)).clause examples place

theorem coversAlong_iff {ks : List Nat} {examples : List Clause} {place : Nat} {e : Clause}
    (he : examples[place]? = some e) : s.coversAlong ks examples place = true ↔
      ∀ i ≤ ks.length, s.accepts (s.scored (ks.take i)).clause e = true := by
  simp only [coversAlong, covers_eq, he, List.all_eq_true, List.mem_range, Nat.lt_succ_iff,
    Option.any_some]

theorem coversAlong_append (ks : List Nat) (k : Nat) (examples : List Clause) (place : Nat) :
    s.coversAlong (ks ++ [k]) examples place =
      (s.covers (s.scored (ks ++ [k])).clause examples place && s.coversAlong ks examples place) := by
  have hlen : (ks ++ [k]).length = ks.length + 1 := List.length_append
  have hwhole : (ks ++ [k]).take (ks.length + 1) = ks ++ [k] := List.take_of_length_le (by omega)
  have hbefore : ∀ i ∈ List.range (ks.length + 1), (ks ++ [k]).take i = ks.take i := fun i hi =>
    List.take_append_of_le_length (Nat.le_of_lt_succ (List.mem_range.1 hi))
  rw [coversAlong, hlen, List.range_succ, List.all_append, List.all_cons, List.all_nil, Bool.and_true,
    hwhole, Bool.and_comm]
  refine congrArg (_ && ·) ?_
  rw [Bool.eq_iff_iff, coversAlong, List.all_eq_true, List.all_eq_true]
  exact forall₂_congr fun i hi => by rw [hbefore i hi]

/-- The examples that a hypothesis is found to cover are those covered all the way to it. -/
theorem covered_along {ks : List Nat} (hks : s.IsChoice ks) :
    (s.along ks).positives =
        (List.range s.positives.length).filter (s.coversAlong ks s.positives) ∧
      (s.along ks).negatives =
        (List.range s.negatives.length).filter (s.coversAlong ks s.negatives) := by
  induction ks using List.reverseRecOn with
  | nil =>
    have hstart : ∀ examples, s.coversAlong [] examples = s.covers (s.scored []).clause examples :=
      fun examples => funext fun place => Bool.and_true _
    rw [hstart, hstart]
    exact ⟨covered_eq_filter s .., covered_eq_filter s ..⟩
  | append_singleton ks k ih =>
    obtain ⟨hks', -, hk⟩ := isChoice_append.1 hks
    have hbody := List.getElem?_eq_getElem hk
    obtain ⟨hpositives, hnegatives⟩ := ih hks'
    have hclause : (s.along ks).clause.extended s.bottom.body[k] = (s.scored (ks ++ [k])).clause := by
      rw [(along_spec hks').1]
      show _ = (⟨s.bottom.clause.head, s.atomsAt (ks ++ [k])⟩ : Clause)
      rw [atomsAt_append hbody]
      rfl
    have hstep : ∀ examples places, places = (List.range (List.length examples)).filter
          (s.coversAlong ks examples) →
        s.covered ((s.along ks).clause.extended s.bottom.body[k]) examples places =
          (List.range examples.length).filter (s.coversAlong (ks ++ [k]) examples) := by
      rintro examples _ rfl
      rw [covered_eq_filter, List.filter_filter, hclause]
      exact List.filter_congr fun place _ => (coversAlong_append ks k examples place).symm
    rw [along_append hbody]
    exact ⟨hstep _ _ hpositives, hstep _ _ hnegatives⟩

/-- A solution on a way along which coverage narrows covers no negative example. -/
theorem Traced.not_accepts {h : Hypothesis} (ht : s.Traced h) (hsol : h.isSolution = true)
    (hnarrow : s.Narrows h.chosen) {e : Clause} (he : e ∈ s.negatives) :
    s.accepts h.clause e = false := by
  obtain ⟨place, hplace⟩ := List.getElem?_of_mem he
  have hnone : h.negatives = [] := List.eq_nil_of_length_eq_zero (f_eq_of_isSolution hsol).1
  have hclause : h.clause = (s.scored h.chosen).clause := ht.clause_eq
  by_contra haccepts
  have hway := hnarrow e he (by rw [← hclause]; simpa using haccepts)
  have hmem : place ∈ (s.along h.chosen).negatives := by
    rw [(covered_along ht.choice).2, List.mem_filter, List.mem_range]
    exact ⟨(List.getElem?_eq_some_iff.1 hplace).1, (coversAlong_iff hplace).2 hway⟩
  rw [← ht.along, hnone] at hmem
  exact List.not_mem_nil hmem

end HypothesisSpace

/-! ## Fewer conditions -/

/-- The same head under no other conditions. -/
structure Clause.Relaxes (d c : Clause) : Prop where
  head : d.head = c.head
  body : ∀ a ∈ d.body, a ∈ c.body

theorem Clause.Relaxes.subterms {d c : Clause} (h : d.Relaxes c) :
    ∀ t ∈ HasTerms.subterms d, t ∈ HasTerms.subterms c := by
  intro t ht
  rw [Clause.subterms_eq, h.head] at ht
  rw [Clause.subterms_eq]
  obtain ⟨a, ha, hta⟩ := List.mem_flatMap.1 ht
  exact List.mem_flatMap.2 ⟨a, (List.mem_append.1 ha).elim (List.mem_append_left _)
    fun ha => List.mem_append_right _ (h.body a ha), hta⟩

theorem Clause.Relaxes.spec {d c : Clause} (h : d.Relaxes c) (hc : Normal c ∧ c.IsPlain) :
    Normal d ∧ d.IsPlain :=
  ⟨fun t ht => hc.1 t (h.subterms t ht), fun a ha => hc.2 a (h.body a ha)⟩

/-- Where a clause can be tested, so can one with fewer conditions. -/
theorem Clause.Relaxes.exists_trial? {s : HypothesisSpace} {c d : Clause} (h : d.Relaxes c)
    {k : LayeredStore} (hk : s.trial? c = some k) : ∃ k', s.trial? d = some k' := by
  obtain ⟨hhead, hplain⟩ := HypothesisSpace.trial?_isSome.1 (Option.isSome_iff_exists.2 ⟨k, hk⟩)
  refine Option.isSome_iff_exists.1 (HypothesisSpace.trial?_isSome.2 ⟨?_, ?_⟩)
  · rwa [Clause.headPredicate, h.head]
  · rw [hasPlaceholders, List.any_eq_false] at hplain ⊢
    exact fun t ht => hplain t (h.subterms t ht)

/-- What is proved stays proved when conditions are dropped. -/
theorem Proves.relax {clauses relaxed : List Clause}
    (h : ∀ c ∈ clauses, ∃ d ∈ relaxed, d.Relaxes c) {a : Atom} (ha : Proves clauses a) :
    Proves relaxed a := by
  induction ha with
  | truth => exact .truth
  | same t => exact .same t
  | @clause c θ p stored resolved head _ ih =>
    obtain ⟨d, hd, hrelaxes⟩ := h c stored
    refine .clause (c := d) θ hd resolved ?_ fun b hb => ih b ?_
    · show d.head.map θ.apply = some (.predicate p)
      rw [hrelaxes.head]
      exact head
    · obtain ⟨a, ha, rfl⟩ := List.mem_map.1 hb
      exact List.mem_map.2 ⟨a, hrelaxes.body a ha, rfl⟩

/-! ## Derivations and proofs -/

theorem Goal.Derives.isProof {k : Knowledge} (hplain : ∀ c ∈ k.clauses, c.IsPlain)
    {goal : List Atom} {g : Goal} {σ ρ : Substitution} (h : g.Derives k.lookup σ ρ)
    (hleads : (Branch.goal g σ).Leads k goal) : Search.IsProof k goal ρ := by
  induction h with
  | done σ => exact Search.isProof_of_leads hleads
  | compare compared solved _ ih => exact ih (hleads.settle_compare compared solved)
  | truth called holds _ ih => exact ih (hleads.settle_true called holds)
  | @clause a p c body todo σ τ ρ called ordinary candidate resolved _ ih =>
    have hcall := hleads.call called ordinary
    have honly : (Branch.call p [c] todo σ).Leads k goal :=
      { hcall with
        called := fun _ _ _ _ hb => by
          cases hb
          exact ⟨ordinary, List.forall_mem_singleton.2 (k.within p c candidate)⟩ }
    refine ih (honly.resolve hplain ?_)
    rw [Interpreter.resolve?_eq_resolvent?, resolved]
    rfl

/-- Where clauses and heads are plain, an example is derived exactly when an instance of its head is
proved. -/
theorem Clause.isDerived_iff_proves {k : Knowledge} (hk : k.IsComplete)
    (hplain : ∀ c ∈ k.clauses, c.IsPlain) {e : Clause} {a : Atom} (he : e.head = some a)
    (ha : a.IsPlain) : e.IsDerived k.lookup ↔ ∃ θ : Valuation, Proves k.clauses (θ.apply a) := by
  have hgoal : e.headGoal = some [.atom a] := by
    rw [headGoal, he]
    rfl
  constructor
  · rintro ⟨g, hg, ρ, hρ⟩
    obtain rfl := Option.some.inj (hgoal.symm.trans hg)
    have hleads : (Branch.goal [.atom a] (Substitution.empty.addVariables [Literal.atom a])).Leads k
        [a] := by
      refine ⟨List.forall_mem_singleton.2 ha, Substitution.isNormal_empty, nofun, ?_⟩
      intro θ _ hpending
      exact List.forall_mem_singleton.2 (hpending a List.mem_cons_self)
    obtain ⟨hnormal, hproved⟩ := hρ.isProof hplain hleads
    refine ⟨ρ.valuation hnormal, ?_⟩
    rw [Substitution.valuation_apply]
    exact hproved a List.mem_cons_self
  · rintro ⟨θ, hθ⟩
    obtain ⟨ρ, -, hρ, -⟩ := Goal.exists_derives hk hplain (List.forall_mem_singleton.2 ha)
      (List.forall_mem_singleton.2 hθ)
    exact ⟨_, hgoal, ρ, hρ⟩

namespace HypothesisSpace

variable {s : HypothesisSpace}

theorem relaxes_take (ks : List Nat) (i : Nat) :
    (s.scored (ks.take i)).clause.Relaxes (s.scored ks).clause := by
  refine ⟨rfl, fun a ha => ?_⟩
  obtain ⟨k, hk, ha⟩ := List.mem_filterMap.1 ha
  exact List.mem_filterMap.2 ⟨k, List.mem_of_mem_take hk, ha⟩

theorem relaxes_bottom (ks : List Nat) : (s.scored ks).clause.Relaxes s.bottom.clause := by
  refine ⟨rfl, fun a ha => ?_⟩
  obtain ⟨k, -, ha⟩ := List.mem_filterMap.1 ha
  exact List.mem_of_getElem? ha

section

variable (hfiled : s.knowledge.IsFiled)
  (hplain : ∀ c ∈ s.bottom.clause :: s.knowledge.clauses, Normal c ∧ c.IsPlain)

include hfiled hplain

theorem trial?_scored {ks : List Nat} {k : LayeredStore}
    (hk : s.trial? (s.scored ks).clause = some k) :
    k.knowledge.IsComplete ∧ ∀ c ∈ k.clauses, c.IsPlain := by
  obtain ⟨hkfiled, hkclauses⟩ := trial?_spec hk hfiled
  have hspec : ∀ c ∈ k.clauses, Normal c ∧ c.IsPlain := by
    rw [List.forall_mem_cons] at hplain
    intro c hc
    rcases (hkclauses c).1 hc with rfl | hc
    · exact (relaxes_bottom ks).spec hplain.1
    · exact hplain.2 c hc
  exact ⟨hkfiled.isComplete fun c hc => (hspec c hc).1, fun c hc => (hspec c hc).2⟩

/-- What is covered with a choice of atoms is proved with it. -/
theorem exists_proves_of_accepts {ks : List Nat} {e : Clause} {a : Atom} (he : e.head = some a)
    (ha : a.IsPlain) (h : s.accepts (s.scored ks).clause e = true) :
    ∃ θ : Valuation, Proves ((s.scored ks).clause :: s.knowledge.clauses) (θ.apply a) := by
  obtain ⟨k, hk, hcovered⟩ := (Option.any_eq_true _ _).1 h
  obtain ⟨hcomplete, hkplain⟩ := trial?_scored hfiled hplain hk
  obtain ⟨θ, hproved⟩ := (Clause.isDerived_iff_proves hcomplete hkplain he ha).1
    (Clause.isDerived_of_isCovered hcovered)
  exact ⟨θ, hproved.mono fun c hc => List.mem_cons.2 (((trial?_spec hk hfiled).2 c).1 hc)⟩

/-- Where its test is not cut, what is proved with a choice of atoms is covered with it. -/
theorem accepts_of_proves {ks : List Nat} {e : Clause} {a : Atom} (he : e.head = some a)
    (ha : a.IsPlain) {k : LayeredStore} (hk : s.trial? (s.scored ks).clause = some k)
    (hdecides : s.Decides (s.scored ks).clause e) {θ : Valuation}
    (hproved : Proves ((s.scored ks).clause :: s.knowledge.clauses) (θ.apply a)) :
    s.accepts (s.scored ks).clause e = true := by
  obtain ⟨hcomplete, hkplain⟩ := trial?_scored hfiled hplain hk
  have hmem := (trial?_spec hk hfiled).2
  refine (Option.any_eq_true _ _).2 ⟨k, hk, (hdecides k hk).isCovered_iff.2 ?_⟩
  exact (Clause.isDerived_iff_proves hcomplete hkplain he ha).2
    ⟨θ, hproved.mono fun c hc => (hmem c).2 (List.mem_cons.1 hc)⟩

/-- Where everything is plain and the test is not cut, what a choice covers is covered before it. -/
theorem accepts_take {ks : List Nat} {e : Clause} (hhead : ∀ a, e.head = some a → a.IsPlain)
    (h : s.accepts (s.scored ks).clause e = true) {i : Nat}
    (hdecides : s.Decides (s.scored (ks.take i)).clause e) :
    s.accepts (s.scored (ks.take i)).clause e = true := by
  obtain ⟨k, hk, hcovered⟩ := (Option.any_eq_true _ _).1 h
  obtain ⟨a, ha⟩ := (Clause.isDerived_of_isCovered hcovered).exists_head
  obtain ⟨θ, hproved⟩ := exists_proves_of_accepts hfiled hplain ha (hhead a ha) h
  have hrelaxes := relaxes_take (s := s) ks i
  obtain ⟨k', hk'⟩ := hrelaxes.exists_trial? hk
  refine accepts_of_proves hfiled hplain ha (hhead a ha) hk' hdecides (hproved.relax fun c hc => ?_)
  rcases List.mem_cons.1 hc with rfl | hc
  · exact ⟨_, List.mem_cons_self, hrelaxes⟩
  · exact ⟨c, List.mem_cons_of_mem _ hc, rfl, fun _ ha => ha⟩

/-- Where everything is plain and no test on the way to a choice is cut, coverage narrows. -/
theorem narrows_of_isPlain (hnegative : ∀ e ∈ s.negatives, ∀ a, e.head = some a → a.IsPlain)
    {ks : List Nat}
    (hdecides : ∀ e ∈ s.negatives, ∀ i ≤ ks.length, s.Decides (s.scored (ks.take i)).clause e) :
    s.Narrows ks := fun e he haccepts i hi =>
  accepts_take hfiled hplain (hnegative e he) haccepts (hdecides e he i hi)

end

end HypothesisSpace
end Horn
