import Horn.Proofs.Completeness
import Horn.Proofs.SearchRefinement

/-!
Goals that are answered once.  Where no call finds two clauses, the search for a goal goes one way:
the clauses that prove some instance of the goal are the ones that its calls find.  So the goal has one
answer, and a step is spent for each of these clauses.
-/

namespace Horn

/-- Atoms are proved with so many clauses: an instance of a clause has the first atom as its head, and
its body is proved together with the other atoms. -/
inductive ProvedWith (clauses : List Clause) : Nat → List Atom → Prop where
  | done : ProvedWith clauses 0 []
  | clause {c : Clause} (ζ : Valuation) {p : Predicate} {atoms : List Atom} {n : Nat}
    (stored : c ∈ clauses) (resolved : builtin? p = none)
    (head : (ζ.apply c).head = some (.predicate p))
    (others : ProvedWith clauses n ((ζ.apply c).body ++ atoms)) :
    ProvedWith clauses (n + 1) (.predicate p :: atoms)

/-- What is looked up is proved by an instance of a clause, whose head and body are those of the clause
with the same values. -/
theorem Proves.exists_instance {clauses : List Clause} {name : String} {args : List Term}
    (h : Proves clauses (.predicate ⟨name, args⟩)) (hp : builtin? ⟨name, args⟩ = none) :
    ∃ c ∈ clauses, ∃ (θ : Valuation) (q : Predicate), c.headPredicate = some q ∧ q.name = name ∧
      q.args.map θ.apply = args ∧ ∀ a ∈ c.body, Proves clauses (θ.apply a) := by
  obtain ⟨c, hc, θ, hhead, hbody⟩ := h.exists_clause hp
  have hroot := Clause.headPredicate_eq_some.2 hhead
  unfold Valuation.apply at hroot
  rw [Clause.headPredicate_instantiate] at hroot
  obtain ⟨q, hq, heq⟩ := Option.map_eq_some_iff.1 hroot
  obtain ⟨hname, hargs⟩ := Predicate.mk.inj heq
  exact ⟨c, hc, θ, q, hq, hname, hargs, fun a ha => hbody _ (List.mem_map_of_mem ha)⟩

/-- No clause is left to be tried. -/
def Branch.IsOver : Branch → Prop
  | .goal _ _ => False
  | .call _ clauses _ _ => clauses = []

namespace Search

variable {k : Knowledge} {σ : Substitution} {η : Valuation} {steps : Nat} {cut : Bool}

theorem next_over {lookup : Lookup} {bs : List Branch} (h : ∀ b ∈ bs, b.IsOver) :
    next lookup ⟨bs, steps, cut⟩ = (none, ⟨[], steps, cut⟩) := by
  induction bs with
  | nil => exact next_nil
  | cons b bs ih =>
    obtain ⟨hb, hbs⟩ := List.forall_mem_cons.1 h
    cases b with
    | goal todo σ => cases hb
    | call p clauses todo σ =>
      obtain rfl : clauses = [] := hb
      rw [next_exhausted, ih hbs]

section

variable (hk : k.IsComplete) (hsole : ∀ p, (k.lookup p).length ≤ 1)

include hk hsole

/-- The call that is due finds the clause of the proof, and the body takes its place. -/
theorem exists_next_sole (hσ : σ.Admits η) {a : Atom} {atoms : List Atom}
    (hknown : ∀ b ∈ a :: atoms, σ.Knows b) {q : Predicate} (ha : η.apply a = .predicate q)
    (hq : builtin? q = none) {c : Clause} (hc : c ∈ k.clauses) {ζ : Valuation}
    (hhead : (ζ.apply c).head = some (.predicate q)) (rest : List Branch) :
    ∃ (body : List Atom) (τ : Substitution) (θ : Valuation) (b : Branch),
      next k.lookup ⟨.goal ((a :: atoms).map .atom) σ :: rest, steps + 1, cut⟩ =
        next k.lookup ⟨.goal ((body ++ atoms).map .atom) τ :: b :: rest, steps, cut⟩ ∧ b.IsOver ∧
      τ.Admits θ ∧ (∀ d ∈ body ++ atoms, τ.Knows d) ∧
      (body ++ atoms).map θ.apply = (ζ.apply c).body ++ atoms.map η.apply := by
  obtain ⟨hfirst, hothers⟩ := List.forall_mem_cons.1 hknown
  obtain ⟨p, hp, rfl, hnormal, hpknown⟩ := hσ.exists_call hfirst ha
  obtain ⟨hfound, ρ, τ, θ, hresolved, hτ, hστ, hτknows, hsame⟩ :=
    exists_resolvent hk hσ hnormal hpknown hc hhead
  have hlookup : k.lookup p = [c] := by
    obtain ⟨d, hd⟩ := List.length_eq_one_iff.1
      (Nat.le_antisymm (hsole p) (List.length_pos_of_mem hfound))
    rw [hd, List.mem_singleton] at hfound
    rw [hd, hfound]
  have hresolve : Branch.resolve? p c (atoms.map .atom) σ =
      some (.goal (((ρ.apply c).body ++ atoms).map .atom) τ) := by
    rw [Interpreter.resolve?_eq_resolvent?, hresolved, List.map_append]
    rfl
  refine ⟨(ρ.apply c).body, τ, θ, .call p [] (atoms.map .atom) σ, ?_, rfl, hτ, ?_, ?_⟩
  · rw [List.map_cons, next_call hp ((builtin?_apply η p).symm.trans hq), hlookup, next_tried, hresolve]
    rfl
  · refine List.forall_mem_append.2
      ⟨fun d hd v hv => hτknows v ?_, fun d hd => (hothers d hd).mono hστ.keeps⟩
    rw [Clause.subterms_eq]
    exact List.mem_flatMap.2 ⟨d, List.mem_append_right _ hd, hv⟩
  · have hrest : atoms.map θ.apply = atoms.map η.apply :=
      List.map_congr_left fun d hd => (hothers d hd).apply_congr hστ.agrees
    rw [List.map_append, hrest, ← hsame]
    rfl

/-- A goal with an instance that is proved with so many clauses is answered after as many steps, and
nothing is left to be tried. -/
theorem exists_next_of_provedWith {n : Nat} {goals atoms : List Atom}
    (h : ProvedWith k.clauses n goals) (hσ : σ.Admits η) (hknown : ∀ a ∈ atoms, σ.Knows a)
    (heq : atoms.map η.apply = goals) {bs : List Branch} (hbs : ∀ b ∈ bs, b.IsOver) :
    ∃ (τ : Substitution) (bs' : List Branch),
      next k.lookup ⟨.goal (atoms.map .atom) σ :: bs, steps + n, cut⟩ =
        (some τ, ⟨bs', steps, cut⟩) ∧ ∀ b ∈ bs', b.IsOver := by
  induction h generalizing atoms σ η bs with
  | done =>
    obtain rfl := List.map_eq_nil_iff.1 heq
    exact ⟨σ, bs, next_answer, hbs⟩
  | @clause c ζ p others n stored resolved head _ ih =>
    obtain ⟨a, rest, rfl, ha, rfl⟩ := List.map_eq_cons_iff.1 heq
    obtain ⟨body, τ, θ, b, hnext, hb, hτ, hτknown, hsame⟩ :=
      exists_next_sole hk hsole hσ hknown ha resolved stored head bs
    obtain ⟨υ, bs', hanswer, hover⟩ := ih hτ hτknown hsame (List.forall_mem_cons.2 ⟨hb, hbs⟩)
    exact ⟨υ, bs', hnext.trans hanswer, hover⟩

end
end Search

/-- Where no call finds two clauses, a goal with an instance that is proved with so many clauses has one
answer after as many steps; all atoms of the goal are proved under it. -/
theorem Goal.exists_single_answer {k : Knowledge} (hk : k.IsComplete)
    (hsole : ∀ p, (k.lookup p).length ≤ 1) (hplain : ∀ c ∈ k.clauses, c.IsPlain) {goal : List Atom}
    (hgoal : ∀ a ∈ goal, a.IsPlain) {η : Valuation} {n : Nat}
    (h : ProvedWith k.clauses n (goal.map η.apply)) (steps : Nat) :
    ∃ τ : Substitution, Goal.answersFrom (goal.map .atom) k.lookup (steps + n) Substitution.empty none =
        ([τ], ⟨[], steps, false⟩) ∧ ∀ a ∈ goal, Proves k.clauses (τ.apply a) := by
  let g : Goal := goal.map .atom
  obtain ⟨σ, bs, hnext, hbs⟩ : ∃ (σ : Substitution) (bs : List Branch),
      Search.next k.lookup (Search.start g Substitution.empty (steps + n)) =
        (some σ, ⟨bs, steps, false⟩) ∧ ∀ b ∈ bs, b.IsOver :=
    Search.exists_next_of_provedWith hk hsole h (Substitution.admits_start g η)
      (fun a ha => Substitution.knows_of_mem _ (List.mem_map_of_mem ha)) rfl (List.forall_mem_nil _)
  have hrest : Search.rest k.lookup (Search.start g Substitution.empty (steps + n)) =
      ([σ], ⟨[], steps, false⟩) := by
    rw [Search.rest_of_next_some hnext, Search.rest_of_next_none (Search.next_over hbs)]
  have hanswers : Goal.answersFrom (goal.map .atom) k.lookup (steps + n) Substitution.empty none =
      ([σ.restrict («variables» g)], ⟨[], steps, false⟩) := by
    unfold answersFrom
    dsimp only
    rw [hrest]
    rfl
  have hmem : σ.restrict («variables» g) ∈
      (Goal.answersFrom (goal.map .atom) k.lookup (steps + n) Substitution.empty none).1 := by
    rw [hanswers]
    exact List.mem_singleton_self _
  exact ⟨_, hanswers, apply_proved hplain hgoal Substitution.isNormal_empty hmem⟩

/-- A call finds one clause at most when no two heads have the same name. -/
theorem Store.Reachable.length_candidates_le_one {s : Store} (hs : s.Reachable)
    (h : (s.clauses.map fun c => c.headPredicate.map (·.name)).Nodup) (p : Predicate) :
    (s.candidates p).length ≤ 1 := by
  let name (c : Clause) : Option String := c.headPredicate.map (·.name)
  have hnames : ∀ n ∈ (s.candidates p).map name, n = some p.name := by
    refine List.forall_mem_map.2 fun c hc => ?_
    obtain ⟨-, q, hq, hagrees⟩ := hs.isFiled.mem_candidates.1 hc
    show c.headPredicate.map (·.name) = _
    rw [hq, Option.map_some, beq_iff_eq.1 (Bool.and_eq_true_iff.1 hagrees).1]
  have hnodup : ((s.candidates p).map name).Nodup := by
    rw [hs.isFiled.candidates_eq]
    exact h.sublist (List.filter_sublist.map name)
  rw [List.eq_replicate_of_mem hnames, List.nodup_replicate, List.length_map] at hnodup
  exact hnodup

end Horn
