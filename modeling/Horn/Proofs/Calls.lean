import Horn.Proofs.BottomClauses
import Horn.Proofs.Budgets
import Horn.Proofs.Completeness
import Horn.Proofs.Recording

/-!
What the calls of saturation find.  A call starts from bindings that put its inputs into the template,
so an answer to it fills the template with terms: the inputs at the input places, and altogether an
atom that the clauses prove.
-/

namespace Horn

/-! ## Answers from bindings -/

namespace Substitution

variable {σ τ : Substitution} {θ : Valuation}

theorem respects_of_bind {v : Var} {t : Term} (h : σ.bind v t = .ok τ) :
    θ.Respects τ ↔ θ.Respects σ ∧ θ.value v = θ.apply t := by
  unfold Substitution.bind at h
  split at h
  · rename_i u hu
    rw [respects_of_unify h]
    refine and_congr_right fun hθ => ?_
    have hv : σ.valueOf v = u := by simp [valueOf, hu]
    rw [← hθ v, hv]
  · rename_i hfree
    exact respects_of_bindUnbound hfree h

/-- The valuations left are those that give the variables what they give the terms. -/
theorem respects_of_bindAll {pairs : List (Var × Term)} (h : σ.bindAll pairs = .ok τ) :
    θ.Respects τ ↔ θ.Respects σ ∧ ∀ e ∈ pairs, θ.value e.1 = θ.apply e.2 := by
  induction pairs generalizing σ with
  | nil =>
    obtain rfl := Except.ok.inj h
    simp
  | cons pair pairs ih =>
    obtain ⟨ρ, hbind, hrest⟩ := exists_of_bind_eq_ok h
    rw [ih hrest, respects_of_bind hbind, List.forall_mem_cons, and_assoc]

/-- Binding succeeds when some valuation that respects the bindings gives the variable what it gives
the term. -/
theorem exists_bind {v : Var} {t : Term} (hσ : σ.IsNormal) (ht : t.isNormal = true)
    (hθ : θ.Respects σ) (heq : θ.value v = θ.apply t) : ∃ τ, σ.bind v t = .ok τ := by
  unfold Substitution.bind
  split
  · rename_i u hu
    have hv : σ.valueOf v = u := by simp [valueOf, hu]
    exact exists_unify hσ (isNormal_iff.1 hσ v u hu) ht hθ (by rw [← hv, hθ v, heq])
  · cases h : σ.bindUnbound v t with
    | ok τ => exact ⟨τ, rfl⟩
    | error why => exact absurd ⟨hθ, heq⟩ (not_respects_of_bindUnbound hσ h)

theorem exists_bindAll {pairs : List (Var × Term)} (hσ : σ.Reachable)
    (hnormal : ∀ e ∈ pairs, e.2.isNormal = true) (hθ : θ.Respects σ)
    (heq : ∀ e ∈ pairs, θ.value e.1 = θ.apply e.2) : ∃ τ, σ.bindAll pairs = .ok τ := by
  induction pairs generalizing σ with
  | nil => exact ⟨σ, rfl⟩
  | cons pair pairs ih =>
    rw [List.forall_mem_cons] at hnormal heq
    obtain ⟨ρ, hρ⟩ := exists_bind hσ.isNormal hnormal.1 hθ heq.1
    obtain ⟨τ, hτ⟩ := ih (.bind hσ hρ) hnormal.2 ((respects_of_bind hρ).2 ⟨hθ, heq.1⟩) heq.2
    refine ⟨τ, ?_⟩
    show σ.bind pair.1 pair.2 >>= _ = _
    rw [hρ]
    exact hτ

theorem IsScoped.bind {v : Var} {t : Term} (h : σ.IsScoped) (hb : σ.bind v t = .ok τ) :
    τ.IsScoped := by
  unfold Substitution.bind at hb
  split at hb
  · exact (h.solve hb).1
  · exact (h.bindUnbound hb).1

theorem IsScoped.bindAll {pairs : List (Var × Term)} (h : σ.IsScoped)
    (hb : σ.bindAll pairs = .ok τ) : τ.IsScoped := by
  induction pairs generalizing σ with
  | nil => exact Except.ok.inj hb ▸ h
  | cons pair pairs ih =>
    obtain ⟨ρ, hbind, hrest⟩ := exists_of_bind_eq_ok hb
    exact ih (h.bind hbind) hrest

end Substitution

/-- The answers that are taken are the first of all. -/
theorem Search.take_eq (lookup : Lookup) (s : Search) (n : Nat) :
    (s.take lookup n).1 = (s.rest lookup).1.take n := by
  induction n generalizing s with
  | zero => rfl
  | succ n ih =>
    rw [Search.take]
    cases h : next lookup s with
    | mk found t =>
      cases found with
      | none => rw [rest_of_next_none h, List.take_nil]
      | some σ =>
        rw [rest_of_next_some h, List.take_succ_cons, ← ih t]

/-! ## Calls of a mode -/

theorem map_eq_of_zip {α β : Type} {xs : List α} {ys : List β} {g : α → β}
    (hlen : xs.length = ys.length) (h : ∀ e ∈ xs.zip ys, g e.1 = e.2) : xs.map g = ys := by
  rw [← List.map_fst_zip (Nat.le_of_eq hlen), List.map_map]
  exact (List.map_congr_left h).trans (List.map_snd_zip (Nat.le_of_eq hlen.symm))

namespace Mode

/-- The variables at the input places of the template. -/
def inputVars (m : Mode) : List Var :=
  (m.template.slots.filter fun s => s.placeholder.sign == .input).map Slot.var

/-- What the slots of the template have in an answer. -/
def read (m : Mode) (σ answer : Substitution) : List Term :=
  m.template.slots.map fun s => answer.apply (σ.apply (Term.var s.var))

/-- All answers of a call within so many steps, and whether it was cut. -/
def call (m : Mode) (lookup : Lookup) (steps : Nat) (inputs : List Term) : List (List Term) × Bool :=
  match m.scope.bindAll (m.inputVars.zip inputs) with
  | .error _ => ([], false)
  | .ok σ =>
    let goal : Goal := [.atom (.predicate (σ.apply m.template.atom))]
    let (found, ended) := goal.answersFrom lookup steps σ none
    (found.map (m.read σ), ended.cut)

section

variable {m : Mode} {lookup : Lookup} {options : Options} {steps : Nat}
  {inputs terms available : List Term}

theorem isProper_template (m : Mode) : m.template.IsProper := (m.instantiate_spec _).1

theorem reachable_scope (m : Mode) : m.scope.Reachable := m.reachable_instantiate .empty

/-- The answers that count are the first of all, as many as the recall allows. -/
theorem answers_eq : m.answers lookup options inputs =
    (m.call lookup options.h inputs).1.take (m.recall.limit options.maxRecall) := by
  have hplaces : (m.template.slots.filter fun s => s.placeholder.sign == .input).map Slot.var =
      m.inputVars := rfl
  unfold Mode.answers Saturation.answers call
  dsimp only
  rw [hplaces]
  cases hbind : m.scope.bindAll (m.inputVars.zip inputs) with
  | error why => exact List.take_nil.symm
  | ok σ =>
    have hfound := ((Goal.solutions_eq_answersFrom [.atom (.predicate (σ.apply m.template.atom))] lookup
      options.h (m.reachable_scope.bindAll hbind)).1 (some (m.recall.limit options.maxRecall))).1
    dsimp only
    rw [hfound]
    dsimp only [Goal.answersFrom, Goal.restricted]
    rw [Search.take_eq, List.map_take, List.map_take]
    rfl

theorem mem_call (h : terms ∈ (m.call lookup steps inputs).1) :
    ∃ σ answer, m.scope.bindAll (m.inputVars.zip inputs) = .ok σ ∧
      answer ∈ (Goal.answersFrom [.atom (.predicate (σ.apply m.template.atom))] lookup steps σ
        none).1 ∧ terms = m.read σ answer := by
  unfold call at h
  split at h
  · cases h
  · rename_i σ hbind
    obtain ⟨answer, hanswer, rfl⟩ := List.mem_map.1 h
    exact ⟨σ, answer, hbind, hanswer, rfl⟩

/-- An answer stands for a valuation that gives the input places the inputs and makes the atom of the
template one that the clauses prove. -/
theorem exists_valuation (hlength : inputs.length = m.width)
    (hinputs : ∀ t ∈ inputs, isGround t = true ∧ t.isNormal = true)
    (h : terms ∈ (m.call lookup steps inputs).1) :
    ∃ η : Valuation, (⟨m.template, terms⟩ : Finding) = .ofValuation m.template η ∧
      m.inputVars.map η.value = inputs ∧
      ∀ k : Knowledge, k.lookup = lookup → (∀ c ∈ k.clauses, c.IsPlain) →
        Proves k.clauses (.predicate (η.apply m.template.atom)) := by
  obtain ⟨σ, answer, hbind, hanswer, rfl⟩ := mem_call h
  have hσ : σ.Reachable := m.reachable_scope.bindAll hbind
  have hτ : answer.IsNormal := (Goal.reachable_of_mem_answersFrom hσ hanswer).isNormal
  let η : Valuation := (answer.valuation hτ).after σ.valueOf
  have hvalue : ∀ v, η.value v = answer.apply (σ.valueOf v) := fun v => answer.valuation_apply hτ _
  refine ⟨η, congrArg (Finding.mk m.template) (List.map_congr_left fun s _ => (hvalue s.var).symm),
    map_eq_of_zip ((List.length_map _).trans hlength.symm) fun e he => ?_, ?_⟩
  · obtain ⟨hg, hn⟩ := hinputs e.2 (List.of_mem_zip he).2
    have heq : σ.valueOf e.1 = e.2 := by
      have hrespects := Substitution.valuation_respects hσ.isNormal
      rw [← Valuation.apply_of_isGround (σ.valuation hσ.isNormal) hg hn]
      exact ((Substitution.respects_of_bindAll hbind).1 hrespects).2 e he
    rw [hvalue, heq, ← answer.valuation_apply hτ]
    exact Valuation.apply_of_isGround _ hg hn
  · rintro k rfl hplain
    let goal : List Atom := [.predicate (σ.apply m.template.atom)]
    have hgoal : ∀ a ∈ goal, a.IsPlain := List.forall_mem_singleton.2 trivial
    have hproved := Goal.apply_proved hplain hgoal hσ.isNormal hanswer _ (List.mem_singleton_self _)
    have hinstance : η.apply m.template.atom = answer.apply (σ.apply m.template.atom) := by
      rw [← Valuation.apply_instantiate, answer.valuation_apply, σ.apply_eq_instantiate]
    rw [hinstance]
    exact hproved

/-- A ground answer fills the template with the inputs and is proved by the clauses. -/
theorem call_spec (hlength : inputs.length = m.width)
    (hinputs : ∀ t ∈ inputs, isGround t = true ∧ t.isNormal = true)
    (h : terms ∈ (m.call lookup steps inputs).1) (hterms : ∀ t ∈ terms, isGround t = true) :
    (⟨m.template, terms⟩ : Finding).IsProper ∧ (⟨m.template, terms⟩ : Finding).inputs = inputs ∧
      ∀ k : Knowledge, k.lookup = lookup → (∀ c ∈ k.clauses, c.IsPlain) →
        Proves k.clauses (.predicate (⟨m.template, terms⟩ : Finding).fact) := by
  obtain ⟨η, hread, hmap, hproves⟩ := exists_valuation hlength hinputs h
  rw [hread]
  have hproper : (Finding.ofValuation m.template η).IsProper :=
    Finding.isProper_ofValuation m.isProper_template (hread ▸ hterms)
  refine ⟨hproper, Finding.termsAt_ofValuation.trans hmap, fun k hk hplain => ?_⟩
  rw [hproper.fact_ofValuation]
  exact hproves k hk hplain

theorem bindings_scope (m : Mode) : m.scope.bindings = Substitution.empty.bindings :=
  (m.instantiate_spec _).2

theorem admits_scope (m : Mode) (θ : Valuation) : m.scope.Admits θ where
  normal := m.reachable_scope.isNormal
  isScoped := Substitution.isScoped_empty.congr (fun _ h => absurd h Std.TreeSet.not_mem_emptyc)
    m.bindings_scope
  respected := (Valuation.respects_congr m.bindings_scope).2 fun _ => rfl

/-- The inputs of an instance can be bound, and the instance respects their bindings. -/
theorem exists_bindAll_inputs (hinputs : ∀ t ∈ inputs, isGround t = true ∧ t.isNormal = true)
    {θ : Valuation} (hθ : m.inputVars.map θ.value = inputs) :
    ∃ σ, m.scope.bindAll (m.inputVars.zip inputs) = .ok σ ∧ σ.Admits θ := by
  have hpairs : ∀ e ∈ m.inputVars.zip inputs, θ.value e.1 = θ.apply e.2 := by
    intro e he
    obtain ⟨hg, hn⟩ := hinputs e.2 (List.of_mem_zip he).2
    rw [θ.apply_of_isGround hg hn]
    rw [← hθ, ← List.map_id m.inputVars, List.map_map, List.zip_map'] at he
    obtain ⟨v, -, rfl⟩ := List.mem_map.1 he
    rfl
  have hscope := m.admits_scope θ
  obtain ⟨σ, hbind⟩ := Substitution.exists_bindAll m.reachable_scope
    (fun e he => (hinputs e.2 (List.of_mem_zip he).2).2) hscope.respected hpairs
  exact ⟨σ, hbind, (m.reachable_scope.bindAll hbind).isNormal, hscope.isScoped.bindAll hbind,
    (Substitution.respects_of_bindAll hbind).2 ⟨hscope.respected, hpairs⟩⟩

/-- Where a call is not cut, a proved instance with its inputs is an instance of some answer. -/
theorem exists_mem_call {k : Knowledge} (hk : k.IsComplete) (hplain : ∀ c ∈ k.clauses, c.IsPlain)
    (hinputs : ∀ t ∈ inputs, isGround t = true ∧ t.isNormal = true) {θ : Valuation}
    (hθ : m.inputVars.map θ.value = inputs)
    (hproves : Proves k.clauses (.predicate (θ.apply m.template.atom)))
    (hcut : (m.call k.lookup steps inputs).2 = false) :
    ∃ terms ∈ (m.call k.lookup steps inputs).1, ∃ η : Valuation,
      terms.map η.apply = (Finding.ofValuation m.template θ).terms := by
  obtain ⟨σ, hbind, hσ⟩ := exists_bindAll_inputs hinputs hθ
  let q := σ.apply m.template.atom
  let goal : List Atom := [.predicate q]
  unfold call at hcut ⊢
  rw [hbind] at hcut ⊢
  dsimp only at hcut ⊢
  have hproved : ∀ a ∈ goal, Proves k.clauses (θ.apply a) := by
    refine List.forall_mem_singleton.2 ?_
    rw [← hσ.respected.apply m.template.atom] at hproves
    exact hproves
  have hgoal : ∀ a ∈ goal, a.IsPlain := List.forall_mem_singleton.2 trivial
  obtain ⟨ρ, η, hders, hη, hagrees⟩ := Goal.exists_derives_from hk hplain hgoal
    (hσ.addVariables (goal.map .atom))
    (fun a ha => Substitution.knows_of_mem σ (List.mem_map_of_mem ha)) hproved
  have hpositive : (Search.start (goal.map .atom) σ steps).IsPositive :=
    List.forall_mem_singleton.2 (List.forall_mem_singleton.2 rfl)
  have hfound := (Search.rest_derives k.lookup _ hpositive).2 hcut ρ
    ⟨_, List.mem_singleton_self _, hders⟩
  refine ⟨_, List.mem_map.2 ⟨_, List.mem_map.2 ⟨ρ, hfound, rfl⟩, rfl⟩, η, ?_⟩
  rw [read, List.map_map]
  refine List.map_congr_left fun s hs => ?_
  -- the variables of what the slot has are variables of the goal
  have hvar : Term.var s.var ∈ HasTerms.subterms m.template.atom :=
    (m.isProper_template.occurs _).2 ⟨s, hs, rfl⟩
  have hknown : ∀ v, Term.var v ∈ HasTerms.subterms (σ.apply (Term.var s.var)) →
      Term.var v ∈ HasTerms.subterms q := by
    intro v hv
    refine Predicate.var_mem_replaceVars.2 ⟨s.var, hvar, ?_⟩
    exact (Term.var_mem_subterms v _).1 hv
  show η.apply ((ρ.restrict _).apply (σ.apply (Term.var s.var))) = θ.value s.var
  rw [Substitution.apply_restrict fun v hv => ?_, hη.respected.apply]
  · refine (instantiate_congr fun v hv => hagrees v ?_).trans (hσ.respected.apply (Term.var s.var))
    exact mem_variables_iff.2 (List.mem_flatMap.2 ⟨_, List.mem_singleton_self _, hknown v hv⟩)
  · exact mem_variables_iff.2 (List.mem_flatMap.2 ⟨_, List.mem_singleton_self _, hknown v hv⟩)

/-- When a call is not cut, other budgets do not give it further answers. -/
theorem mem_call_of_uncut {more : Nat} (hcut : (m.call lookup steps inputs).2 = false)
    (h : terms ∈ (m.call lookup more inputs).1) : terms ∈ (m.call lookup steps inputs).1 := by
  unfold call at h hcut ⊢
  cases hbind : m.scope.bindAll (m.inputVars.zip inputs) with
  | error why =>
    rw [hbind] at h
    exact h
  | ok σ =>
    rw [hbind] at h hcut
    dsimp only at h hcut ⊢
    obtain ⟨answer, hanswer, rfl⟩ := List.mem_map.1 h
    refine List.mem_map.2 ⟨answer, ?_, rfl⟩
    let goal : Goal := [.atom (.predicate (σ.apply m.template.atom))]
    obtain ⟨ρ, hρ, rfl⟩ := List.mem_map.1 hanswer
    refine List.mem_map.2 ⟨ρ, ?_, rfl⟩
    rcases Nat.le_total steps more with hle | hle
    · obtain ⟨extra, rfl⟩ := Nat.exists_eq_add_of_le hle
      rw [Goal.start_extended, Search.rest_extended lookup _ extra hcut] at hρ
      exact hρ
    · obtain ⟨extra, rfl⟩ := Nat.exists_eq_add_of_le hle
      rw [Goal.start_extended]
      have hpositive : (Search.start goal σ more).IsPositive :=
        List.forall_mem_singleton.2 (List.forall_mem_singleton.2 rfl)
      exact (Search.rest_prefix_extended lookup _ extra hpositive rfl).subset hρ

/-- A call that counts all answers there are. -/
structure IsWhole (m : Mode) (lookup : Lookup) (options : Options) (inputs : List Term) : Prop where
  uncut : (m.call lookup options.h inputs).2 = false
  covered : (m.call lookup options.h inputs).1.length ≤ m.recall.limit options.maxRecall

/-- A whole call counts what any budget finds. -/
theorem IsWhole.mem_answers (h : m.IsWhole lookup options inputs)
    (hterms : terms ∈ (m.call lookup steps inputs).1) : terms ∈ m.answers lookup options inputs := by
  rw [answers_eq, List.take_of_length_le h.covered]
  exact mem_call_of_uncut h.uncut hterms

/-- What calls find takes its inputs from the terms available and is proved by the clauses. -/
theorem findings_spec {f : Finding} (hf : f ∈ m.findings lookup options available)
    (havailable : ∀ t ∈ available, isGround t = true ∧ t.isNormal = true) :
    f.IsProper ∧ (∀ t ∈ f.inputs, t ∈ available) ∧
      ∀ k : Knowledge, k.lookup = lookup → (∀ c ∈ k.clauses, c.IsPlain) →
        Proves k.clauses (.predicate f.fact) := by
  obtain ⟨template, terms⟩ := f
  obtain ⟨rfl, hground, inputs, hlength, hinputs, hanswer⟩ := mem_findings.1 hf
  rw [answers_eq] at hanswer
  obtain ⟨hproper, heq, hproves⟩ := call_spec hlength (fun t ht => havailable t (hinputs t ht))
    (List.mem_of_mem_take hanswer) hground
  exact ⟨hproper, fun t ht => hinputs t (heq ▸ ht), hproves⟩

end
end Mode

/-! ## All rounds -/

namespace Saturation

variable {lookup : Lookup} {options : Options} {modes : List Mode} {available : List Term}
  (havailable : ∀ t ∈ available, isGround t = true ∧ t.isNormal = true)

include havailable

theorem round_spec : ∀ f ∈ round lookup options modes available,
    f.IsProper ∧ (∀ t ∈ f.inputs, t ∈ available) ∧
      ∀ k : Knowledge, k.lookup = lookup → (∀ c ∈ k.clauses, c.IsPlain) →
        Proves k.clauses (.predicate f.fact) := by
  intro f hf
  obtain ⟨m, -, hf⟩ := mem_round.1 hf
  exact m.findings_spec hf havailable

theorem ground_produced {t : Term} (ht : t ∈ produced (round lookup options modes available)) :
    isGround t = true ∧ t.isNormal = true := by
  obtain ⟨f, hf, ht⟩ := mem_produced.1 ht
  exact (round_spec havailable f hf).1.ground_of_lifts (Finding.lifts_iff.2 (.inr ht))

theorem ground_pool (n : Nat) : ∀ t ∈ pool lookup options modes available n,
    isGround t = true ∧ t.isNormal = true := by
  induction n with
  | zero => exact havailable
  | succ n ih => exact fun t ht => ground_produced ih ht

theorem findings_spec {n : Nat} {f : Finding} (hf : f ∈ findings lookup options modes n available) :
    f.IsProper ∧ ∀ k : Knowledge, k.lookup = lookup → (∀ c ∈ k.clauses, c.IsPlain) →
      Proves k.clauses (.predicate f.fact) := by
  obtain ⟨r, -, hf⟩ := mem_findings.1 hf
  obtain ⟨hproper, -, hproves⟩ := round_spec (ground_pool havailable r) f hf
  exact ⟨hproper, hproves⟩

/-- Each finding takes its inputs from what is available at first and what earlier findings
produced. -/
theorem flows_findings (n : Nat) :
    Flows available (findings lookup options modes n available) := by
  induction n generalizing available with
  | zero => exact flows_nil _
  | succ n ih =>
    have hround : Flows available (round lookup options modes available) := fun i f hf t ht =>
      .inl ((round_spec havailable f (List.mem_of_getElem? hf)).2.1 t ht)
    exact hround.append (ih fun t ht => ground_produced havailable ht)
      fun t ht => .inr (mem_produced.1 ht)

end Saturation
end Horn
