import Horn.Learning.Induction
import Horn.Proofs.Narrowing

/-!
The stages of an induction.  Between two turns an induction has a number of turns left, the examples
that are still to be looked at, and a state.  What a turn keeps holds when the induction ends.
-/

namespace Horn
namespace Learner

/-- The space in which the clause for an example is looked for. -/
def space (l : Learner) (learned : Store) (seed : Clause) (others : List Clause) :
    Except Failure HypothesisSpace :=
  (BottomClause.ofExample seed l.modes (l.knowledge learned) l.options).map fun bottom =>
    .make bottom (l.knowledge learned) (seed :: others) l.negatives l.options.h l.options.c

/-- Whether an example follows from learned clauses and the background. -/
def covers (l : Learner) (learned : Store) (e : Clause) : Bool :=
  e.isCovered (l.knowledge learned).candidates l.options.h

/-- The state in which the turns of an induction start. -/
def start (l : Learner) : State :=
  let log := EventLog.start "Induction" l.options.logging
  let log := log.recordWith "Knowledge" fun _ => clauseLines l.background.clauses
  let log := log.recordWith "Modes" fun _ =>
    String.intercalate "\n" (l.modes.modes.map Mode.text ++
      l.modes.determinations.map Determination.text)
  let log := log.recordWith "Options" fun _ =>
    String.intercalate "\n" (l.options.entries.map fun (k, v) => k ++ " = " ++ v)
  ⟨Store.empty, [], log.enter "Iterations"⟩

/-- The turns left, the examples left and the state between two turns of an induction. -/
inductive Stage (l : Learner) (positives : List Clause) : Nat → List Clause → State → Prop where
  | start : Stage l positives l.options.maxClauses positives l.start
  | turn {n : Nat} {seed : Clause} {others left : List Clause} {s t : State}
    (before : Stage l positives (n + 1) (seed :: others) s)
    (turned : l.turn seed others s = .ok (left, t)) : Stage l positives n left t

/-- A turn that starts from the state finds the hypothesis in the space. -/
def Finds (l : Learner) (positives : List Clause) (s : State) (space : HypothesisSpace)
    (h : Hypothesis) : Prop :=
  ∃ n seed others log, l.Stage positives (n + 1) (seed :: others) s ∧
    l.space s.learned seed others = .ok space ∧ (space.run log).1 = some h

section

variable {l : Learner} {positives others left : List Clause} {seed : Clause} {s t : State} {n : Nat}

theorem search_eq_ok {learned : Store} {log log' : EventLog} {found : Option Hypothesis}
    (h : l.search learned seed others log = .ok (found, log')) :
    ∃ space log, l.space learned seed others = .ok space ∧ (space.run log).1 = found := by
  obtain ⟨bottom, hbottom, h⟩ := exists_of_bind_eq_ok h
  obtain ⟨hfound, -⟩ := Prod.mk.inj (Except.ok.inj h)
  refine ⟨_, _, ?_, hfound⟩
  rw [space, hbottom]
  rfl

/-- The examples left are the others that are not covered, and the example of the turn is reported
exactly when it is not: an equal one among the others is covered with it or stays behind it. -/
theorem settle_eq (covered : Clause → Bool) (seed : Clause) (others reported : List Clause) :
    settle covered seed others reported =
      (others.filter fun c => !covered c, if covered seed then reported else reported ++ [seed]) := by
  unfold settle
  dsimp only
  cases hseed : covered seed with
  | false =>
    rw [List.filter_cons_of_pos (by simp [hseed])]
    exact if_pos rfl
  | true =>
    rw [List.filter_cons_of_neg (by simp [hseed]), if_neg, if_pos rfl]
    intro hfirst
    have hmem := (List.mem_filter.1 (List.mem_of_mem_head? hfirst)).2
    rw [hseed] at hmem
    cases hmem

/-- A turn adds the clause that it finds, if it finds one, and goes by what is covered then. -/
theorem turn_eq_ok (h : l.turn seed others s = .ok (left, t)) :
    (∃ space log, l.space s.learned seed others = .ok space ∧
      ((space.run log).1 = none ∧ t.learned = s.learned ∨ ∃ hyp isNew,
        (space.run log).1 = some hyp ∧ s.learned.add hyp.clause = .ok (isNew, t.learned))) ∧
    left = others.filter (fun e => !l.covers t.learned e) ∧
    t.uncovered = if l.covers t.learned seed then s.uncovered else s.uncovered ++ [seed] := by
  obtain ⟨⟨found, log⟩, hsearch, h⟩ := exists_of_bind_eq_ok h
  obtain ⟨space, log', hspace, hrun⟩ := search_eq_ok hsearch
  cases found with
  | none =>
    obtain ⟨learned, hmap, h⟩ := exists_of_bind_eq_ok h
    obtain rfl := Except.ok.inj hmap
    dsimp only at h
    rw [settle_eq] at h
    obtain ⟨rfl, rfl⟩ := Prod.mk.inj (Except.ok.inj h)
    exact ⟨⟨space, log', hspace, .inl ⟨hrun, rfl⟩⟩, rfl, rfl⟩
  | some hyp =>
    obtain ⟨learned, hmap, h⟩ := exists_of_bind_eq_ok h
    obtain ⟨⟨isNew, store⟩, hadd, rfl⟩ := exists_of_map_eq_ok hmap
    dsimp only at h
    rw [settle_eq] at h
    obtain ⟨rfl, rfl⟩ := Prod.mk.inj (Except.ok.inj h)
    exact ⟨⟨space, log', hspace, .inr ⟨hyp, isNew, hrun, hadd⟩⟩, rfl, rfl⟩

/-- A turn in a known space learns what any search in it finds. -/
theorem exists_turn {space : HypothesisSpace} {found : Option Clause} {learned : Store}
    (hspace : l.space s.learned seed others = .ok space)
    (hfound : ∀ log, (space.run log).1.map Hypothesis.clause = found)
    (hlearned : found.elim (.ok s.learned) (fun c => (s.learned.add c).map Prod.snd) = .ok learned) :
    ∃ log, l.turn seed others s = .ok (others.filter fun e => !l.covers learned e,
      ⟨learned, if l.covers learned seed then s.uncovered else s.uncovered ++ [seed], log⟩) := by
  obtain ⟨bottom, hbottom, rfl⟩ := exists_of_map_eq_ok hspace
  have hsearch : ∀ log, ∃ r, l.search s.learned seed others log = .ok r ∧
      r.1.map Hypothesis.clause = found := by
    intro log
    unfold search
    dsimp only
    rw [hbottom]
    exact ⟨_, rfl, hfound _⟩
  unfold turn
  dsimp only
  obtain ⟨⟨found', log⟩, hr, rfl⟩ := hsearch _
  rw [hr]
  let ended (log : EventLog) (r : List Clause × List Clause) : Except Failure (List Clause × State) :=
    .ok (r.1, ⟨learned, r.2, log⟩)
  have hended := fun log =>
    congrArg (ended log) (settle_eq (l.covers learned) seed others s.uncovered)
  cases found' with
  | none =>
    obtain rfl := Except.ok.inj hlearned
    exact ⟨_, hended (log.recordWith "Clause" fun _ => "none").leave⟩
  | some h =>
    have hadd : (s.learned.add h.clause).map Prod.snd = .ok learned := hlearned
    show ∃ log', ((s.learned.add h.clause).map Prod.snd >>= _) = _
    rw [hadd]
    exact ⟨_, hended (log.recordWith "Clause" fun _ => h.clause.text).leave⟩

theorem turns_nil (n : Nat) (s : State) : l.turns n [] s = .ok s := by
  cases n <;> rfl

theorem turns_zero (left : List Clause) (s : State) :
    l.turns 0 left s = .ok { s with uncovered := s.uncovered ++ left } := by
  cases left with
  | nil => rw [turns_nil, List.append_nil]
  | cons seed others => rfl

theorem turns_of_turn (h : l.turn seed others s = .ok (left, t)) :
    l.turns (n + 1) (seed :: others) s = l.turns n left t := by
  rw [turns, h]
  rfl

/-- The turns left lead to where all turns lead. -/
theorem Stage.turns_eq (hs : l.Stage positives n left s) :
    l.turns l.options.maxClauses positives l.start = l.turns n left s := by
  induction hs with
  | start => rfl
  | turn before turned ih => exact ih.trans (turns_of_turn turned)

/-- A turn leaves the learned clauses as they are or adds one that it finds. -/
theorem Stage.learned_cases (hs : l.Stage positives (n + 1) (seed :: others) s)
    (h : l.turn seed others s = .ok (left, t)) :
    t.learned = s.learned ∨ ∃ space hyp isNew, l.Finds positives s space hyp ∧
      s.learned.add hyp.clause = .ok (isNew, t.learned) := by
  obtain ⟨⟨space, log, hspace, hcases⟩, -, -⟩ := turn_eq_ok h
  refine hcases.imp And.right ?_
  rintro ⟨hyp, isNew, hrun, hadd⟩
  exact ⟨space, hyp, isNew, ⟨n, seed, others, log, hs, hspace, hrun⟩, hadd⟩

/-- A turn forgets no clause and no report. -/
theorem turn_mono (hs : s.learned.IsFiled) (h : l.turn seed others s = .ok (left, t)) :
    t.learned.IsFiled ∧ (∀ c ∈ s.learned.clauses, c ∈ t.learned.clauses) ∧
      ∀ e ∈ s.uncovered, e ∈ t.uncovered := by
  obtain ⟨⟨_, _, -, hlearned⟩, -, huncovered⟩ := turn_eq_ok h
  have hreported : ∀ e ∈ s.uncovered, e ∈ t.uncovered := by
    intro e he
    rw [huncovered]
    split
    · exact he
    · exact List.mem_append_left _ he
  obtain ⟨-, hsame⟩ | ⟨hyp, isNew, -, hadd⟩ := hlearned
  · rw [hsame]
    exact ⟨hs, fun c hc => hc, hreported⟩
  · exact ⟨hs.add hadd, fun c hc => (hs.mem_clauses_add hadd).2 (.inr hc), hreported⟩

theorem turns_mono (hs : s.learned.IsFiled) (h : l.turns n left s = .ok t) :
    t.learned.IsFiled ∧ (∀ c ∈ s.learned.clauses, c ∈ t.learned.clauses) ∧
      ∀ e ∈ s.uncovered, e ∈ t.uncovered := by
  induction n, left, s using turns.induct with
  | case1 n s =>
    rw [turns_nil] at h
    obtain rfl := Except.ok.inj h
    exact ⟨hs, fun c hc => hc, fun e he => he⟩
  | case2 left s =>
    rw [turns_zero] at h
    obtain rfl := Except.ok.inj h
    exact ⟨hs, fun c hc => hc, fun e he => List.mem_append_left _ he⟩
  | case3 n seed others s ih =>
    obtain ⟨⟨left, u⟩, hturn, h⟩ := exists_of_bind_eq_ok h
    obtain ⟨hu, hclauses, hreported⟩ := turn_mono hs hturn
    obtain ⟨ht, hclauses', hreported'⟩ := ih left u hu h
    exact ⟨ht, fun c hc => hclauses' c (hclauses c hc), fun e he => hreported' e (hreported e he)⟩

/-- Turns go on until none or no example is left. -/
theorem Stage.turns (hs : l.Stage positives n left s) (h : l.turns n left s = .ok t) :
    ∃ m rest u, l.Stage positives m rest u ∧ (m = 0 ∨ rest = []) ∧ t.learned = u.learned ∧
      t.uncovered = u.uncovered ++ rest := by
  induction n, left, s using turns.induct with
  | case1 n s =>
    rw [turns_nil] at h
    obtain rfl := Except.ok.inj h
    exact ⟨n, [], s, hs, .inr rfl, rfl, (List.append_nil _).symm⟩
  | case2 left s =>
    rw [turns_zero] at h
    obtain rfl := Except.ok.inj h
    exact ⟨0, left, s, hs, .inl rfl, rfl, rfl⟩
  | case3 n seed others s ih =>
    obtain ⟨⟨left, u⟩, hturn, h⟩ := exists_of_bind_eq_ok h
    exact ih left u (.turn hs hturn) h

theorem turns_of_induce {r : Induction} (h : l.induce positives = .ok r) :
    ∃ t, l.turns l.options.maxClauses positives l.start = .ok t ∧ r.learned = t.learned.clauses ∧
      r.uncovered = t.uncovered := by
  obtain ⟨t, hturns, h⟩ := exists_of_bind_eq_ok h
  obtain rfl := Except.ok.inj h
  exact ⟨t, hturns, rfl, rfl⟩

/-- An induction ends at a stage without turns or without examples left. -/
theorem exists_stage_of_induce {r : Induction} (h : l.induce positives = .ok r) :
    ∃ n left s, l.Stage positives n left s ∧ (n = 0 ∨ left = []) ∧
      r.learned = s.learned.clauses ∧ r.uncovered = s.uncovered ++ left := by
  obtain ⟨t, hturns, hlearned, huncovered⟩ := turns_of_induce h
  obtain ⟨n, left, s, hs, hend, hstore, hleft⟩ := Stage.start.turns hturns
  exact ⟨n, left, s, hs, hend, hlearned.trans (congrArg Store.clauses hstore),
    huncovered.trans hleft⟩

theorem exists_induce (h : l.turns l.options.maxClauses positives l.start = .ok t) :
    ∃ r, l.induce positives = .ok r ∧ r.learned = t.learned.clauses ∧ r.uncovered = t.uncovered := by
  have hinduce : l.induce positives = l.turns l.options.maxClauses positives l.start >>= fun s =>
      .ok ⟨s.learned.clauses, s.uncovered, (s.log.leave.recordWith "Learned knowledge" fun _ =>
        clauseLines s.learned.clauses).finish⟩ := rfl
  rw [hinduce, h]
  exact ⟨_, rfl, rfl, rfl⟩

/-- What holds of the empty store and is kept when a found clause is added holds of what is learned. -/
theorem Stage.learned_inv {P : Store → Prop} (hs : l.Stage positives n left s)
    (hstart : P Store.empty)
    (hadd : ∀ {s : State} {space : HypothesisSpace} {hyp : Hypothesis} {isNew : Bool} {t : Store},
      l.Finds positives s space hyp → s.learned.add hyp.clause = .ok (isNew, t) →
        P s.learned → P t) : P s.learned := by
  induction hs with
  | start => exact hstart
  | turn before turned ih =>
    obtain hsame | ⟨space, hyp, isNew, hfinds, hnew⟩ := before.learned_cases turned
    · rwa [hsame]
    · exact hadd hfinds hnew ih

theorem Stage.isFiled (hs : l.Stage positives n left s) : s.learned.IsFiled :=
  hs.learned_inv Store.isFiled_empty fun _ hnew ih => ih.add hnew

theorem Finds.isFiled {space : HypothesisSpace} {hyp : Hypothesis}
    (h : l.Finds positives s space hyp) : s.learned.IsFiled := by
  obtain ⟨_, _, _, _, before, -, -⟩ := h
  exact before.isFiled

/-- Adding the learned clauses in their order gives their store back. -/
theorem Stage.isReplayed (hs : l.Stage positives n left s) : s.learned.IsReplayed :=
  hs.learned_inv Store.isReplayed_empty fun hfinds hnew ih => ih.add hfinds.isFiled hnew

/-- An induction that ends makes the turn that finds a clause, and what it adds and has reported stays. -/
theorem Finds.exists_end {space : HypothesisSpace} {hyp : Hypothesis} {r : Induction}
    (hfinds : l.Finds positives s space hyp) (h : l.induce positives = .ok r) :
    ∃ (isNew : Bool) (store : Store) (last : State), s.learned.add hyp.clause = .ok (isNew, store) ∧
      r.learned = last.learned.clauses ∧ r.uncovered = last.uncovered ∧ last.learned.IsFiled ∧
      (∀ c ∈ store.clauses, c ∈ last.learned.clauses) ∧ ∀ e ∈ s.uncovered, e ∈ last.uncovered := by
  obtain ⟨n, seed, others, log, hs, hspace, hrun⟩ := hfinds
  obtain ⟨last, hturns, hlearned, huncovered⟩ := turns_of_induce h
  rw [hs.turns_eq] at hturns
  obtain ⟨⟨left, t⟩, hturn, hturns⟩ := exists_of_bind_eq_ok hturns
  obtain ⟨ht, -, hreported⟩ := turn_mono hs.isFiled hturn
  obtain ⟨hlast, hclauses, hreported'⟩ := turns_mono ht hturns
  obtain ⟨⟨space', log', hspace', hcases⟩, -, -⟩ := turn_eq_ok hturn
  obtain rfl := Except.ok.inj (hspace.symm.trans hspace')
  rw [HypothesisSpace.run_log space log' log, hrun] at hcases
  obtain ⟨hnone, -⟩ | ⟨hyp', isNew, hsome, hadd⟩ := hcases
  · cases hnone
  obtain rfl := Option.some.inj hsome
  exact ⟨isNew, _, last, hadd, hlearned, huncovered, hlast, hclauses,
    fun e he => hreported' e (hreported e he)⟩

/-! ## What a found clause was tested with -/

theorem covers_eq_false {learned : Store} {e : Clause}
    (h : ¬ e.IsDerived (l.knowledge learned).candidates) : l.covers learned e = false := by
  by_contra hcovered
  exact h (Clause.isDerived_of_isCovered (by simpa [covers] using hcovered))

theorem mem_clauses_knowledge {learned : Store} {c : Clause} :
    c ∈ (l.knowledge learned).clauses ↔ c ∈ learned.clauses ∨ c ∈ l.background.clauses :=
  LayeredStore.mem_clauses_under

theorem isFiled_knowledge (hbg : l.background.IsFiled) {learned : Store} (h : learned.IsFiled) :
    (l.knowledge learned).IsFiled :=
  hbg.under .borrowed h

section

variable {space : HypothesisSpace} {hyp : Hypothesis} {isNew : Bool} {store : Store} {e : Clause}

theorem Finds.space_eq (h : l.Finds positives s space hyp) :
    space.knowledge = l.knowledge s.learned ∧ space.negatives = l.negatives := by
  obtain ⟨_, _, _, _, -, hspace, -⟩ := h
  obtain ⟨bottom, -, rfl⟩ := exists_of_map_eq_ok hspace
  exact ⟨rfl, rfl⟩

theorem Finds.solution (h : l.Finds positives s space hyp) :
    space.Traced hyp ∧ hyp.isSolution = true := by
  obtain ⟨_, _, _, log, -, -, hrun⟩ := h
  exact HypothesisSpace.run_eq_some hrun

/-- A found clause was tested with the clauses that are known once it is added. -/
theorem Finds.isDerived_iff (h : l.Finds positives s space hyp) (hbg : l.background.IsFiled)
    (hnew : s.learned.add hyp.clause = .ok (isNew, store)) {k : LayeredStore}
    (hk : space.trial? hyp.clause = some k) :
    e.IsDerived k.candidates ↔ e.IsDerived (l.knowledge store).candidates := by
  obtain ⟨hknown, -⟩ := h.space_eq
  obtain ⟨hkfiled, hkclauses⟩ :=
    HypothesisSpace.trial?_spec hk (hknown ▸ isFiled_knowledge hbg h.isFiled)
  have hfiled := isFiled_knowledge hbg (h.isFiled.add hnew)
  have hclauses : ∀ c, c ∈ k.clauses ↔ c ∈ (l.knowledge store).clauses := by
    intro c
    rw [hkclauses, hknown, mem_clauses_knowledge, mem_clauses_knowledge,
      h.isFiled.mem_clauses_add hnew, or_assoc]
  constructor
  · exact fun he => he.mono (hkfiled.candidates_mono hfiled fun c => (hclauses c).1)
  · exact fun he => he.mono (hfiled.candidates_mono hkfiled fun c => (hclauses c).2)

/-- An example that a found clause was seen to cover follows from what is known once it is added. -/
theorem Finds.isDerived (h : l.Finds positives s space hyp) (hbg : l.background.IsFiled)
    (hnew : s.learned.add hyp.clause = .ok (isNew, store))
    (haccepts : space.accepts hyp.clause e = true) : e.IsDerived (l.knowledge store).candidates := by
  obtain ⟨k, hk, hcovered⟩ := (Option.any_eq_true _ _).1 haccepts
  exact (h.isDerived_iff hbg hnew hk).1 (Clause.isDerived_of_isCovered hcovered)

/-- One that it was seen not to cover does not. -/
theorem Finds.not_isDerived (h : l.Finds positives s space hyp) (hbg : l.background.IsFiled)
    (hnew : s.learned.add hyp.clause = .ok (isNew, store)) (hdecides : space.Decides hyp.clause e)
    (hno : space.accepts hyp.clause e = false) : ¬ e.IsDerived (l.knowledge store).candidates := by
  obtain ⟨head, hhead, hplain, -⟩ := Store.add_cases hnew
  obtain ⟨k, hk⟩ : ∃ k, space.trial? hyp.clause = some k :=
    Option.isSome_iff_exists.1 (HypothesisSpace.trial?_isSome.2 ⟨by rw [hhead]; rfl, hplain⟩)
  intro hderived
  have hcovered := (hdecides k hk).isCovered_iff.2 ((h.isDerived_iff hbg hnew hk).2 hderived)
  rw [HypothesisSpace.accepts, hk, Option.any_some, hcovered] at hno
  cases hno

end

end

end Learner
end Horn
