import Horn.Proofs.Calls
import Horn.Proofs.Coverage

/-!
Saturation with ground facts.  A call is searched to the end when there are as many steps as facts, and
its answers are the facts that fit the template and the inputs.
-/

namespace Horn

/-! ## Searches among facts -/

namespace Search

variable {lookup : Lookup} {p : Predicate} {σ : Substitution} {steps : Nat}

/-- A call with facts is searched to the end when there are as many steps as facts, and each fact gives
one answer at most. -/
theorem rest_facts {clauses : List Clause} (hfacts : ∀ c ∈ clauses, c.body = [])
    (hsteps : clauses.length ≤ steps) :
    (rest lookup ⟨[.call p clauses [] σ], steps, false⟩).2.cut = false ∧
      (rest lookup ⟨[.call p clauses [] σ], steps, false⟩).1.length ≤ clauses.length := by
  induction clauses generalizing steps with
  | nil =>
    rw [rest_of_next_none (next_exhausted.trans next_nil)]
    exact ⟨rfl, Nat.le_refl 0⟩
  | cons c left ih =>
    obtain ⟨n, rfl⟩ : ∃ n, steps = n + 1 := ⟨steps - 1, by simp at hsteps; omega⟩
    obtain ⟨hc, hleft⟩ := List.forall_mem_cons.1 hfacts
    obtain ⟨hcut, hlength⟩ := ih hleft (Nat.le_of_succ_le_succ hsteps)
    have hbody : ∀ b, Branch.resolve? p c [] σ = some b → ∃ τ, b = .goal [] τ := by
      intro b hb
      obtain ⟨head, τ, -, -, rfl⟩ := Branch.resolve?_eq_some_iff.1 hb
      have hrenamed : ((σ.rename [] c).1).bodyGoal = [] := by
        show (HasTerms.rewrite _ c.body).map Literal.atom = []
        rw [hc]
        rfl
      rw [hrenamed]
      exact ⟨τ, rfl⟩
    cases hresolve : Branch.resolve? p c [] σ with
    | none =>
      have hnext : next lookup ⟨[.call p (c :: left) [] σ], n + 1, false⟩ =
          next lookup ⟨[.call p left [] σ], n, false⟩ := by
        rw [next_tried, hresolve]
        rfl
      rw [rest_congr hnext]
      exact ⟨hcut, Nat.le_succ_of_le hlength⟩
    | some b =>
      obtain ⟨τ, rfl⟩ := hbody b hresolve
      have hnext : next lookup ⟨[.call p (c :: left) [] σ], n + 1, false⟩ =
          (some τ, ⟨[.call p left [] σ], n, false⟩) := by
        rw [next_tried, hresolve]
        exact next_answer
      rw [rest_of_next_some hnext]
      exact ⟨hcut, Nat.succ_le_succ hlength⟩

end Search

theorem builtin?_of_name {p : Predicate} (h : p.name ∉ ["true", "fail", "false"]) :
    builtin? p = none := by
  simp only [List.mem_cons, List.not_mem_nil, or_false, not_or] at h
  unfold builtin?
  split
  · rw [if_neg h.1, if_neg (not_or.2 h.2)]
  · rfl

/-- A test that only facts can meet is not cut when there are as many steps as facts. -/
theorem Clause.isDecided_of_facts {e : Clause} {lookup : Lookup} {steps : Nat} {p : Predicate}
    (he : e.head = some (.predicate p)) (hname : p.name ∉ ["true", "fail", "false"])
    (hfacts : ∀ p, ∀ c ∈ lookup p, c.body = []) (hsteps : ∀ p, (lookup p).length ≤ steps) :
    e.IsDecided lookup steps := by
  intro g hg
  rw [headGoal, he] at hg
  obtain rfl : [.atom (.predicate p)] = g := Option.some.inj hg
  let σ := Substitution.empty.addVariables [Literal.atom (.predicate p)]
  have hnext : Search.next lookup (Search.start [.atom (.predicate p)] Substitution.empty steps) =
      Search.next lookup ⟨[.call (σ.apply p) (lookup (σ.apply p)) [] σ], steps, false⟩ :=
    Search.next_call rfl (builtin?_of_name hname)
  have hcut : (Search.rest lookup
      ⟨[.call (σ.apply p) (lookup (σ.apply p)) [] σ], steps, false⟩).2.cut = false :=
    (Search.rest_facts (hfacts (σ.apply p)) (hsteps (σ.apply p))).1
  cases hfound : Search.next lookup (Search.start [.atom (.predicate p)] Substitution.empty steps) with
  | mk found t =>
    cases found with
    | some τ =>
      refine .inl ?_
      rw [Goal.succeeds_eq, hfound]
      rfl
    | none =>
      refine .inr ?_
      rw [hnext] at hfound
      rwa [Search.rest_of_next_none hfound] at hcut

/-! ## Fact bases -/

/-- A store of some ground facts and nothing else. -/
structure LayeredStore.Holds (s : LayeredStore) (qs : List Predicate) : Prop where
  filed : s.IsFiled
  mem : ∀ c, c ∈ s.clauses ↔ ∃ q ∈ qs, c = .fact (.predicate q)
  ground : ∀ q ∈ qs, isGround q = true ∧ Normal q

namespace LayeredStore.Holds

variable {s : LayeredStore} {qs : List Predicate}

theorem empty : (⟨[]⟩ : LayeredStore).Holds [] :=
  ⟨List.forall_mem_nil _, fun c => iff_of_false List.not_mem_nil (by simp), nofun⟩

/-- Ground facts are added to those held. -/
theorem under (h : s.Holds qs) {ps : List Predicate} {facts : Store}
    (hps : ∀ p ∈ ps, isGround p = true ∧ Normal p)
    (hfacts : Store.ofClauses ((ps.map Atom.predicate).map Clause.fact) = .ok facts) :
    (s.under .owned facts).Holds (ps ++ qs) := by
  obtain ⟨hfiled, hmem⟩ := Store.isFiled_empty.addAll hfacts
  refine ⟨h.filed.under _ hfiled, fun c => ?_, List.forall_mem_append.2 ⟨hps, h.ground⟩⟩
  rw [mem_clauses_under, hmem, h.mem, Store.clauses_empty]
  simp [or_and_right, exists_or, eq_comm]

end LayeredStore.Holds

/-- A store whose clauses for the predicates of one name are some ground facts. -/
structure LayeredStore.HoldsFor (s : LayeredStore) (name : String) (qs : List Predicate) : Prop where
  filed : s.IsFiled
  spec : ∀ c ∈ s.clauses, Normal c ∧ c.IsPlain
  only : ∀ c ∈ s.clauses, ∀ p, c.headPredicate = some p → p.name = name →
    ∃ q ∈ qs, c = .fact (.predicate q)
  stored : ∀ q ∈ qs, .fact (.predicate q) ∈ s.clauses
  ground : ∀ q ∈ qs, isGround q = true ∧ Normal q

theorem normal_fact {q : Predicate} (h : Normal q) : Normal (Clause.fact (.predicate q)) := by
  intro t ht
  rw [Clause.subterms_eq] at ht
  obtain ⟨a, ha, ht⟩ := List.mem_flatMap.1 ht
  obtain rfl := List.mem_singleton.1 ha
  exact h t ht

theorem LayeredStore.Holds.holdsFor {s : LayeredStore} {qs : List Predicate} (h : s.Holds qs)
    (name : String) : s.HoldsFor name qs where
  filed := h.filed
  spec c hc := by
    obtain ⟨q, hq, rfl⟩ := (h.mem c).1 hc
    exact ⟨normal_fact (h.ground q hq).2, nofun⟩
  only c hc _ _ _ := (h.mem c).1 hc
  stored q hq := (h.mem _).2 ⟨q, hq, rfl⟩
  ground := h.ground

namespace LayeredStore.HoldsFor

variable {s : LayeredStore} {name : String} {qs : List Predicate} (h : s.HoldsFor name qs)

include h

theorem isPlain : ∀ c ∈ s.clauses, c.IsPlain := fun c hc => (h.spec c hc).2

theorem isComplete : s.knowledge.IsComplete := h.filed.isComplete fun c hc => (h.spec c hc).1

/-- Of the predicates of that name only the facts are proved. -/
theorem proves_iff {q : Predicate} (hq : builtin? q = none) (hname : q.name = name) :
    Proves s.clauses (.predicate q) ↔ q ∈ qs := by
  have happly : ∀ p ∈ qs, ∀ θ : Valuation, θ.apply p = p := fun p hp θ =>
    (instantiate_of_isGround (h.ground p hp).1).trans (Valuation.apply_of_normal (h.ground p hp).2)
  constructor
  · intro hproved
    obtain ⟨c, stored, θ, head, -⟩ := hproved.exists_clause hq
    obtain ⟨a, ha, hatom⟩ := Option.map_eq_some_iff.1 head
    cases a with
    | compare d => cases hatom
    | predicate p =>
      have hpq : θ.apply p = q := Atom.predicate.inj hatom
      have hpname : p.name = name := (congrArg Predicate.name hpq).trans hname
      have hhead : c.headPredicate = some p := by rw [Clause.headPredicate, ha]; rfl
      obtain ⟨fact, hfact, rfl⟩ := h.only c stored p hhead hpname
      obtain rfl := Atom.predicate.inj (Option.some.inj ha)
      rw [← hpq, happly fact hfact θ]
      exact hfact
  · intro hmem
    refine .clause .identity (h.stored q hmem) hq ?_ (List.forall_mem_nil _)
    show some (Atom.predicate (Valuation.identity.apply q)) = _
    rw [happly q hmem]

theorem mem_candidates {p : Predicate} (hname : p.name = name) {c : Clause}
    (hc : c ∈ s.candidates p) : ∃ q ∈ qs, c = .fact (.predicate q) := by
  obtain ⟨hstored, head, hhead, hagrees⟩ := h.filed.mem_candidates.1 hc
  rw [Predicate.agrees, Bool.and_eq_true, beq_iff_eq] at hagrees
  exact h.only c hstored head hhead (hagrees.1.trans hname)

theorem body_eq_nil {p : Predicate} (hname : p.name = name) : ∀ c ∈ s.candidates p, c.body = [] := by
  intro c hc
  obtain ⟨q, -, rfl⟩ := h.mem_candidates hname hc
  rfl

theorem length_candidates_le {p : Predicate} (hname : p.name = name) :
    (s.candidates p).length ≤ qs.length := by
  have hlength : (qs.map fun q => Clause.fact (.predicate q)).length = qs.length := List.length_map _
  rw [← hlength]
  refine (List.subperm_of_subset (nodup_eraseDups _) fun c hc => ?_).length_le
  obtain ⟨q, hq, rfl⟩ := h.mem_candidates hname hc
  exact List.mem_map_of_mem hq

end LayeredStore.HoldsFor

/-! ## Calls -/

namespace Finding

variable {f : Finding}

theorem IsProper.length_inputs (h : f.IsProper) :
    f.inputs.length = (f.template.slots.filter fun s => s.placeholder.sign == .input).length := by
  obtain ⟨η, hη⟩ := h.exists_valuation
  rw [hη, inputs, termsAt_ofValuation, List.length_map, List.length_map]
  rfl

/-- Where the arguments of a template are its slots, what is filled in are the arguments. -/
theorem IsProper.fill_of_flat (h : f.IsProper)
    (hflat : f.template.atom.args = f.template.slots.map fun s => .var s.var)
    (image : Place → Term) : f.fill image = ⟨f.template.atom.name, f.places.map image⟩ := by
  have hargs : f.template.atom.args.map (Term.rewrite (varImage fun v => (f.images image).lookup v)) =
      f.places.map image := by
    rw [hflat, ← h.map_fst_places, List.map_map, List.map_map]
    refine List.map_congr_left fun s hs => ?_
    show ((f.images image).lookup s.1.var).getD _ = _
    rw [h.lookup_images hs, Option.getD_some]
  exact congrArg (Predicate.mk _) hargs

theorem IsProper.fact_of_flat (h : f.IsProper)
    (hflat : f.template.atom.args = f.template.slots.map fun s => .var s.var) :
    f.fact = ⟨f.template.atom.name, f.terms⟩ := by
  rw [fact, h.fill_of_flat hflat, places, List.map_snd_zip (Nat.le_of_eq h.length)]

end Finding

namespace Mode

section

variable {m : Mode} {s : LayeredStore} {qs : List Predicate} {options : Options} {steps : Nat}
  {inputs terms available : List Term} (h : s.HoldsFor m.atom.name qs)
  (hname : m.atom.name ∉ ["true", "fail", "false"])

/-- A call that only facts can answer is not cut when there are as many steps as facts. -/
theorem call_facts (hfacts : ∀ p, p.name = m.atom.name → ∀ c ∈ lookup p, c.body = []) {n : Nat}
    (hn : ∀ p, p.name = m.atom.name → (lookup p).length ≤ n) (hsteps : n ≤ steps)
    (hname : m.atom.name ∉ ["true", "fail", "false"]) :
    (m.call lookup steps inputs).2 = false ∧ (m.call lookup steps inputs).1.length ≤ n := by
  unfold call
  cases m.scope.bindAll (m.inputVars.zip inputs) with
  | error why => exact ⟨rfl, Nat.zero_le n⟩
  | ok σ =>
    let q := σ.apply (σ.apply m.template.atom)
    have hbuilt : builtin? q = none := builtin?_of_name hname
    have hnext : Search.next lookup
        (Search.start [.atom (.predicate (σ.apply m.template.atom))] σ steps) =
          Search.next lookup ⟨[.call q (lookup q) [] _], steps, false⟩ :=
      Search.next_call rfl hbuilt
    dsimp only [Goal.answersFrom, Goal.restricted]
    rw [Search.rest_congr hnext, List.length_map, List.length_map]
    exact (Search.rest_facts (hfacts q rfl) (Nat.le_trans (hn q rfl) hsteps)).imp_right
      fun hlength => Nat.le_trans hlength (hn q rfl)

include h hname

theorem isWhole_of_holds (hsteps : qs.length ≤ options.h)
    (hrecall : qs.length ≤ m.recall.limit options.maxRecall) :
    m.IsWhole s.candidates options inputs := by
  obtain ⟨hcut, hlength⟩ := call_facts (fun _ => h.body_eq_nil) (fun _ => h.length_candidates_le) hsteps hname
  exact ⟨hcut, Nat.le_trans hlength hrecall⟩

/-- The answers to a call are the facts that fit the template and the inputs. -/
theorem mem_call_iff (hsteps : qs.length ≤ steps) (hlength : inputs.length = m.width)
    (hinputs : ∀ t ∈ inputs, isGround t = true ∧ t.isNormal = true) :
    terms ∈ (m.call s.candidates steps inputs).1 ↔
      (⟨m.template, terms⟩ : Finding).IsProper ∧ (⟨m.template, terms⟩ : Finding).inputs = inputs ∧
        (⟨m.template, terms⟩ : Finding).fact ∈ qs := by
  have hproves (η : Valuation) : Proves s.clauses (.predicate (η.apply m.template.atom)) ↔
      η.apply m.template.atom ∈ qs := h.proves_iff (builtin?_of_name hname) rfl
  have hfound : ∀ {terms}, terms ∈ (m.call s.candidates steps inputs).1 →
      (⟨m.template, terms⟩ : Finding).IsProper ∧ (⟨m.template, terms⟩ : Finding).inputs = inputs ∧
        (⟨m.template, terms⟩ : Finding).fact ∈ qs := by
    intro terms hterms
    obtain ⟨η, hη, hmap, hproved⟩ := exists_valuation hlength hinputs hterms
    have hfact := (hproves η).1 (hproved s.knowledge rfl h.isPlain)
    have hproper : (Finding.ofValuation m.template η).IsProper := by
      refine Finding.isProper_ofValuation m.isProper_template fun t ht => ?_
      obtain ⟨x, hx, rfl⟩ := List.mem_map.1 ht
      exact Predicate.isGround_of_apply (h.ground _ hfact).1
        ((m.isProper_template.occurs _).2 ⟨x, hx, rfl⟩)
    rw [hη]
    exact ⟨hproper, Finding.termsAt_ofValuation.trans hmap, hproper.fact_ofValuation ▸ hfact⟩
  refine ⟨hfound, fun ⟨hproper, hmap, hfact⟩ => ?_⟩
  obtain ⟨η, hη⟩ := hproper.exists_valuation
  dsimp only at hη
  rw [hη] at hproper hmap hfact
  rw [hproper.fact_ofValuation] at hfact
  obtain ⟨terms', hterms', ζ, hζ⟩ := exists_mem_call h.isComplete h.isPlain hinputs
    (Finding.termsAt_ofValuation.symm.trans hmap) ((hproves η).2 hfact)
    (call_facts (fun _ => h.body_eq_nil) (fun _ => h.length_candidates_le) hsteps hname).1
  have hsame : terms'.map ζ.apply = terms' := by
    refine (List.map_congr_left fun t ht => ?_).trans (List.map_id _)
    obtain ⟨hproper', -⟩ := hfound hterms'
    exact ζ.apply_of_isGround (hproper'.ground t ht) (hproper'.normal t ht)
  have hterms : terms' = terms := hsame.symm.trans (hζ.trans (congrArg Finding.terms hη).symm)
  exact hterms ▸ hterms'

/-- What calls find are the facts that fit the template and take their inputs from the terms
available. -/
theorem mem_findings_iff (hsteps : qs.length ≤ options.h)
    (hrecall : qs.length ≤ m.recall.limit options.maxRecall)
    (havailable : ∀ t ∈ available, isGround t = true ∧ t.isNormal = true) {f : Finding} :
    f ∈ m.findings s.candidates options available ↔ f.template = m.template ∧ f.IsProper ∧
      (∀ t ∈ f.inputs, t ∈ available) ∧ f.fact ∈ qs := by
  obtain ⟨template, terms⟩ := f
  rw [mem_findings]
  constructor
  · rintro ⟨rfl, -, inputs, hlength, hinputs, hanswer⟩
    rw [answers_eq] at hanswer
    obtain ⟨hproper, rfl, hfact⟩ := (mem_call_iff h hname hsteps hlength fun t ht =>
      havailable t (hinputs t ht)).1 (List.mem_of_mem_take hanswer)
    exact ⟨rfl, hproper, hinputs, hfact⟩
  · rintro ⟨rfl, hproper, hinputs, hfact⟩
    refine ⟨rfl, hproper.ground, _, hproper.length_inputs, hinputs, ?_⟩
    exact (isWhole_of_holds h hname hsteps hrecall).mem_answers <| (mem_call_iff h hname hsteps
      hproper.length_inputs fun t ht => havailable t (hinputs t ht)).2 ⟨hproper, rfl, hfact⟩

omit hname in
/-- A template whose arguments are its slots is filled by the arguments of a fact. -/
theorem fits_flat (hflat : m.template.atom.args = m.template.slots.map fun x => .var x.var) :
    (⟨m.template, terms⟩ : Finding).IsProper ∧ (⟨m.template, terms⟩ : Finding).fact ∈ qs ↔
      terms.length = m.template.slots.length ∧ ⟨m.atom.name, terms⟩ ∈ qs := by
  constructor
  · rintro ⟨hproper, hfact⟩
    rw [hproper.fact_of_flat hflat] at hfact
    exact ⟨hproper.length, hfact⟩
  · rintro ⟨hlength, hfact⟩
    obtain ⟨hground, hnormal⟩ := h.ground _ hfact
    have hproper : (⟨m.template, terms⟩ : Finding).IsProper := by
      refine ⟨m.isProper_template, hlength, fun t ht => ?_, fun t ht => ?_⟩
      · exact List.all_eq_true.2 fun u hu =>
          List.all_eq_true.1 hground u (List.mem_flatMap.2 ⟨t, ht, hu⟩)
      · exact Predicate.isNormal_args hnormal ht
    exact ⟨hproper, hproper.fact_of_flat hflat ▸ hfact⟩

theorem mem_findings_flat (hflat : m.template.atom.args = m.template.slots.map fun x => .var x.var)
    (hsteps : qs.length ≤ options.h) (hrecall : qs.length ≤ m.recall.limit options.maxRecall)
    (havailable : ∀ t ∈ available, isGround t = true ∧ t.isNormal = true) {f : Finding} :
    f ∈ m.findings s.candidates options available ↔
      f.template = m.template ∧ f.terms.length = m.template.slots.length ∧
        ⟨m.atom.name, f.terms⟩ ∈ qs ∧ ∀ t ∈ f.inputs, t ∈ available := by
  rw [mem_findings_iff h hname hsteps hrecall havailable]
  obtain ⟨template, terms⟩ := f
  refine and_congr_right ?_
  rintro rfl
  rw [and_comm (a := ∀ t ∈ _, _), ← and_assoc, fits_flat h hflat, and_assoc]

end
end Mode
end Horn
