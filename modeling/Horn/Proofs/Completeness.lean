import Horn.Proofs.Candidates
import Horn.Proofs.Derivation
import Horn.Proofs.Freshness
import Horn.Proofs.Soundness

/-!
The search misses nothing that is provable.  A proof of an instance of a goal is followed by a
derivation from the goal itself: each clause instance of the proof is reached by the clause renamed
apart, whose new variables take the values of the instance while all known variables keep theirs.
-/

namespace Horn

/-! ## Stored knowledge -/

/-- What a store, or several stores in layers, are searched with. -/
inductive Knowledge.IsStored : Knowledge → Prop where
  | store {s : Store} (reached : s.Reachable) : IsStored s.knowledge
  | layers {s : LayeredStore} (reached : ∀ l ∈ s.layers, l.store.Reachable) : IsStored s.knowledge

/-- A clause is found for every call of which its head has an instance. -/
def Knowledge.IsComplete (k : Knowledge) : Prop :=
  ∀ c ∈ k.clauses, ∀ (p q : Predicate) (θ η : Valuation), c.headPredicate = some p → Normal q →
    θ.apply p = η.apply q → c ∈ k.lookup q

namespace LayeredStore

/-- All layers keep their indexes in step with their clauses. -/
def IsFiled (s : LayeredStore) : Prop := ∀ l ∈ s.layers, l.store.IsFiled

variable {s : LayeredStore} {c : Clause}

theorem mem_union {part : Store → List Clause} :
    c ∈ s.union part ↔ ∃ l ∈ s.layers, c ∈ part l.store := by
  rw [union, List.mem_eraseDups, List.mem_flatMap]

theorem IsFiled.mem_candidates (h : s.IsFiled) {p : Predicate} :
    c ∈ s.candidates p ↔ c ∈ s.clauses ∧ ∃ q, c.headPredicate = some q ∧ q.agrees p = true := by
  rw [candidates, mem_union, clauses, mem_union]
  constructor
  · rintro ⟨l, hl, hc⟩
    obtain ⟨hc, hshape⟩ := (h l hl).mem_candidates.1 hc
    exact ⟨⟨l, hl, hc⟩, hshape⟩
  · rintro ⟨⟨l, hl, hc⟩, hshape⟩
    exact ⟨l, hl, (h l hl).mem_candidates.2 ⟨hc, hshape⟩⟩

theorem IsFiled.isComplete (h : s.IsFiled) (hn : ∀ c ∈ s.clauses, Normal c) :
    s.knowledge.IsComplete := by
  intro c hc p q θ η hhead hq heq
  have hp : Normal p := Clause.normal_headPredicate (hn c hc) hhead
  exact h.mem_candidates.2 ⟨hc, p, hhead, Predicate.agrees_of_apply_eq hp hq heq⟩

end LayeredStore

theorem Knowledge.IsStored.isComplete {k : Knowledge} (h : k.IsStored)
    (hn : ∀ c ∈ k.clauses, Normal c) : k.IsComplete := by
  cases h with
  | store reached =>
    intro c hc p q θ η hhead hq heq
    exact reached.isFiled.mem_candidates_of_instance hc (hn c hc) hq hhead heq
  | layers reached =>
    exact LayeredStore.IsFiled.isComplete (fun l hl => (reached l hl).isFiled) hn

/-! ## Stages of a derivation -/

/-- Bindings that are in order, and a valuation that they allow. -/
structure Substitution.Admits (σ : Substitution) (η : Valuation) : Prop where
  normal : σ.IsNormal
  isScoped : σ.IsScoped
  respected : η.Respects σ

/-- A later stage knows all that was known and has not changed its values. -/
structure Substitution.Precedes (σ : Substitution) (η : Valuation) (τ : Substitution)
    (θ : Valuation) : Prop where
  keeps : σ.Keeps τ
  agrees : ∀ v, v.text ∈ σ.names → θ.value v = η.value v

theorem Substitution.Precedes.refl (σ : Substitution) (η : Valuation) : σ.Precedes η σ η :=
  ⟨.refl σ, fun _ _ => rfl⟩

theorem Substitution.Precedes.trans {σ τ ρ : Substitution} {η θ ζ : Valuation}
    (h : σ.Precedes η τ θ) (h' : τ.Precedes θ ρ ζ) : σ.Precedes η ρ ζ :=
  ⟨h.keeps.trans h'.keeps, fun v hv => (h'.agrees v (h.keeps _ hv)).trans (h.agrees v hv)⟩

namespace Goal

/-- Some derivation gets past the atoms without changing the values of known variables. -/
def Solvable (lookup : Lookup) (atoms : List Atom) (σ : Substitution) (η : Valuation) : Prop :=
  ∃ τ θ, τ.Admits θ ∧ σ.Precedes η τ θ ∧
    ∀ todo ρ, Derives lookup todo τ ρ → Derives lookup (atoms.map .atom ++ todo) σ ρ

section

variable {lookup : Lookup} {a : Atom} {atoms : List Atom} {σ : Substitution} {η : Valuation}

/-- Atoms can be solved together when each can be solved at every later stage. -/
theorem solvable_of_forall (hσ : σ.Admits η)
    (h : ∀ a ∈ atoms, ∀ τ θ, τ.Admits θ → σ.Precedes η τ θ → Solvable lookup [a] τ θ) :
    Solvable lookup atoms σ η := by
  induction atoms generalizing σ η with
  | nil => exact ⟨σ, η, hσ, .refl σ η, fun _ _ hrest => hrest⟩
  | cons a atoms ih =>
    rw [List.forall_mem_cons] at h
    obtain ⟨τ, θ, hτ, hστ, hfirst⟩ := h.1 σ η hσ (.refl σ η)
    obtain ⟨ρ, ζ, hρ, hτρ, hothers⟩ :=
      ih hτ fun b hb ρ ζ hρ hτρ => h.2 b hb ρ ζ hρ (hστ.trans hτρ)
    exact ⟨ρ, ζ, hρ, hστ.trans hτρ, fun todo ω hω => hfirst _ ω (hothers todo ω hω)⟩

end
end Goal

/-! ## Lifting -/

section

variable {k : Knowledge} {a : Atom} {p : Predicate} {σ : Substitution} {η : Valuation}

/-- An atom that a valuation makes a predicate is a predicate under bindings that it respects. -/
theorem Substitution.Admits.exists_call (hσ : σ.Admits η) (hknown : σ.Knows a) {q : Predicate}
    (h : η.apply a = .predicate q) :
    ∃ p, σ.apply a = .predicate p ∧ η.apply p = q ∧ Normal p ∧ σ.Knows p := by
  have hval := (hσ.respected.apply a).trans h
  have hnormal := (σ.valuation hσ.normal).normal_apply a
  have hknows := hσ.isScoped.knows_apply hknown
  rw [Substitution.valuation_apply] at hnormal
  cases hσa : σ.apply a with
  | compare d =>
    rw [hσa] at hval
    cases hval
  | predicate p =>
    rw [hσa] at hval hnormal hknows
    exact ⟨p, rfl, Atom.predicate.inj hval, hnormal, hknows⟩

/-- When the head of an instance of a stored clause is that of the call, resolving the call with the
clause leaves a body of which the body of the instance is an instance. -/
theorem exists_resolvent (hk : k.IsComplete) (hσ : σ.Admits η) (hp : Normal p) (hknown : σ.Knows p)
    {c : Clause} (hc : c ∈ k.clauses) {ζ : Valuation}
    (hhead : (ζ.apply c).head = some (.predicate (η.apply p))) :
    c ∈ k.lookup p ∧ ∃ (ρ : Renaming) (τ : Substitution) (θ : Valuation),
      Interpreter.resolvent? p c σ = some ((ρ.apply c).bodyGoal, τ) ∧ τ.Admits θ ∧
      σ.Precedes η τ θ ∧ τ.Knows (ρ.apply c) ∧ θ.apply (ρ.apply c) = ζ.apply c := by
  obtain ⟨hapart, himages⟩ := Substitution.isApart_rename σ c
  let ρ := (σ.rename [] c).2.1
  let σ' := (σ.rename [] c).2.2
  let θ := ρ.overlay ζ η
  have hsame : θ.apply (ρ.apply c) = ζ.apply c := Renaming.apply_overlay hapart himages
  have hagrees : ∀ v, v.text ∈ σ.names → θ.value v = η.value v :=
    fun v hv => Renaming.overlay_of_mem_names hapart hv
  have hbindings : σ'.bindings = σ.bindings := Substitution.bindings_rename σ [] c
  have hnormal : σ'.IsNormal := hσ.normal.congr hbindings
  have hscoped : σ'.IsScoped := hσ.isScoped.congr hapart.keeps hbindings
  have hrespects : θ.Respects σ' :=
    (Valuation.respects_congr hbindings).2 (hσ.isScoped.respects_congr hσ.respected hagrees)
  -- the call meets the head of the instance, both before and after renaming
  have hinstance : ∀ (d : Clause) (ζ' : Valuation), ζ'.apply d = ζ.apply c →
      ∃ q, d.headPredicate = some q ∧ ζ'.apply q = η.apply p := by
    intro d ζ' hd
    have hroot : (ζ'.apply d).headPredicate = some (η.apply p) :=
      Clause.headPredicate_eq_some.2 (hd ▸ hhead)
    unfold Valuation.apply at hroot
    rw [Clause.headPredicate_instantiate] at hroot
    exact Option.map_eq_some_iff.1 hroot
  obtain ⟨p₀, hp₀, heq₀⟩ := hinstance c ζ rfl
  obtain ⟨head, hhead', heq⟩ := hinstance (ρ.apply c) θ hsame
  have hmeet : θ.apply p = θ.apply head := (hknown.apply_congr hagrees).trans heq.symm
  have hheadNormal : Normal head := Clause.normal_headPredicate (ρ.normal_apply c) hhead'
  obtain ⟨τ, hunify⟩ := Substitution.exists_unifyPredicates hnormal hp hheadNormal hrespects hmeet
  obtain ⟨hτscoped, hτkeeps⟩ := hscoped.solve hunify
  have hresolved : Interpreter.resolvent? p c σ = some ((ρ.apply c).bodyGoal, τ) := by
    have hrenamed : σ.rename [] c = (ρ.apply c, ρ, σ') := rfl
    unfold Interpreter.resolvent?
    rw [hrenamed]
    dsimp only
    rw [hhead']
    dsimp only
    rw [hunify]
    rfl
  have hτ : τ.Admits θ := ⟨hnormal.solve hunify, hτscoped,
    (Substitution.respects_of_unifyPredicates hunify).2 ⟨hrespects, hmeet⟩⟩
  exact ⟨hk c hc p₀ p ζ η hp₀ hp heq₀, ρ, τ, θ, hresolved, hτ,
    ⟨hapart.keeps.trans hτkeeps, hagrees⟩, (hapart.knows himages).mono hτkeeps, hsame⟩

/-- A plain atom with a provable instance can be solved. -/
theorem solvable_of_proves (hk : k.IsComplete) (hplain : ∀ c ∈ k.clauses, c.IsPlain) {b : Atom}
    (h : Proves k.clauses b) (hb : η.apply a = b) (ha : a.IsPlain) (hσ : σ.Admits η)
    (hknown : σ.Knows a) : Goal.Solvable k.lookup [a] σ η := by
  induction h generalizing a σ η with
  | truth =>
    obtain ⟨p, hσa, heq, -⟩ := hσ.exists_call hknown hb
    have hbuilt : builtin? p = some true := by
      rw [← builtin?_apply η p, heq]
      rfl
    exact ⟨σ, η, hσ, .refl σ η, fun todo ω hω => .truth hσa hbuilt hω⟩
  | same t =>
    cases a with
    | predicate p => cases hb
    | compare d =>
      obtain ⟨l, r, rfl⟩ := ha
      have hsides : η.apply l = t ∧ η.apply r = t := by
        have hb : Atom.compare ⟨.unify, .term (η.apply l), .term (η.apply r)⟩ =
          .compare ⟨.unify, .term t, .term t⟩ := hb
        simpa using hb
      have hmeet : η.apply (σ.apply l) = η.apply (σ.apply r) := by
        rw [hσ.respected.apply, hσ.respected.apply, hsides.1, hsides.2]
      obtain ⟨τ, hunify⟩ := Substitution.exists_unify hσ.normal
        (Substitution.isNormal_apply hσ.normal l) (Substitution.isNormal_apply hσ.normal r)
        hσ.respected hmeet
      obtain ⟨hτscoped, hτkeeps⟩ := hσ.isScoped.solve hunify
      have hsolved : Comparison.solution? ⟨.unify, .term (σ.apply l), .term (σ.apply r)⟩ σ = some τ := by
        show (σ.unify (σ.apply l) (σ.apply r)).toOption = some τ
        rw [hunify]
        rfl
      have hτ : τ.Admits η := ⟨hσ.normal.solve hunify, hτscoped,
        (Substitution.respects_of_unify hunify).2 ⟨hσ.respected, hmeet⟩⟩
      exact ⟨τ, η, hτ, ⟨hτkeeps, fun _ _ => rfl⟩, fun todo ω hω => .compare rfl hsolved hω⟩
  | @clause c ζ q stored resolved head body ih =>
    obtain ⟨p, hσa, rfl, hp, hpknown⟩ := hσ.exists_call hknown hb
    obtain ⟨hfound, ρ, τ, θ, hresolved, hτ, hστ, hτknows, hsame⟩ :=
      exists_resolvent hk hσ hp hpknown stored head
    have hbody : ∀ b ∈ (ρ.apply c).body, τ.Knows b ∧ θ.apply b ∈ (ζ.apply c).body := by
      intro b hb
      refine ⟨fun v hv => hτknows v ?_, ?_⟩
      · rw [Clause.subterms_eq]
        exact List.mem_flatMap.2 ⟨b, List.mem_append_right _ hb, hv⟩
      · rw [← hsame]
        exact List.mem_map.2 ⟨b, hb, rfl⟩
    have hsolvable : Goal.Solvable k.lookup (ρ.apply c).body τ θ := by
      refine Goal.solvable_of_forall hτ fun b hb τ' θ' hτ' hττ' => ?_
      obtain ⟨hknows, hmem⟩ := hbody b hb
      have hbplain := Branch.isPlain_of_mem_renamed (hplain c stored) hb
      exact ih (θ.apply b) hmem (hknows.apply_congr hττ'.agrees) hbplain hτ' (hknows.mono hττ'.keeps)
    obtain ⟨τ', θ', hτ', hττ', hders⟩ := hsolvable
    exact ⟨τ', θ', hτ', hστ.trans hττ', fun todo ω hω =>
      .clause hσa ((builtin?_apply η p).symm.trans resolved) hfound hresolved (hders todo ω hω)⟩

end

/-! ## Answers -/

/-- The bindings before a goal is searched allow every valuation. -/
theorem Substitution.admits_start (g : Goal) (θ : Valuation) : (empty.addVariables g).Admits θ :=
  ⟨isNormal_empty, isScoped_empty.congr (keeps_addVariables empty g) rfl, fun _ => rfl⟩

theorem Substitution.Admits.addVariables {σ : Substitution} {η : Valuation} (h : σ.Admits η)
    (g : Goal) : (σ.addVariables g).Admits η :=
  ⟨h.normal, h.isScoped.congr (keeps_addVariables σ g) rfl, h.respected⟩

/-- What is provable of a conjunction of plain atoms is derived, under bindings that allow it. -/
theorem Goal.exists_derives_from {k : Knowledge} (hk : k.IsComplete)
    (hplain : ∀ c ∈ k.clauses, c.IsPlain) {goal : List Atom} (hgoal : ∀ a ∈ goal, a.IsPlain)
    {σ : Substitution} {θ : Valuation} (hσ : σ.Admits θ) (hknown : ∀ a ∈ goal, σ.Knows a)
    (hproves : ∀ a ∈ goal, Proves k.clauses (θ.apply a)) :
    ∃ (ρ : Substitution) (η : Valuation), Derives k.lookup (goal.map .atom) σ ρ ∧ ρ.Admits η ∧
      ∀ v ∈ «variables» goal, η.value v = θ.value v := by
  have hsolvable : Solvable k.lookup goal σ θ :=
    solvable_of_forall hσ fun a ha τ η hτ hστ =>
      solvable_of_proves hk hplain (hproves a ha) ((hknown a ha).apply_congr hστ.agrees)
        (hgoal a ha) hτ ((hknown a ha).mono hστ.keeps)
  obtain ⟨ρ, η, hρ, hσρ, hders⟩ := hsolvable
  refine ⟨ρ, η, ?_, hρ, fun v hv => hσρ.agrees v ?_⟩
  · have hall := hders [] ρ (.done ρ)
    rwa [List.append_nil] at hall
  · obtain ⟨a, ha, hva⟩ := List.mem_flatMap.1 (mem_variables_iff.1 hv)
    exact hknown a ha v hva

theorem Substitution.knows_of_mem (σ : Substitution) {g : Goal} {a : Atom} (ha : .atom a ∈ g) :
    (σ.addVariables g).Knows a := fun v hv =>
  knows_addVariables σ g v (List.mem_flatMap.2 ⟨.atom a, ha, hv⟩)

theorem Goal.exists_derives {k : Knowledge} (hk : k.IsComplete)
    (hplain : ∀ c ∈ k.clauses, c.IsPlain) {goal : List Atom} (hgoal : ∀ a ∈ goal, a.IsPlain)
    {θ : Valuation} (hproves : ∀ a ∈ goal, Proves k.clauses (θ.apply a)) :
    ∃ (ρ : Substitution) (η : Valuation),
      Derives k.lookup (goal.map .atom) (Substitution.empty.addVariables (goal.map Literal.atom)) ρ ∧
      η.Respects ρ ∧ ∀ v ∈ «variables» goal, η.value v = θ.value v := by
  obtain ⟨ρ, η, hders, hρ, hagrees⟩ := exists_derives_from hk hplain hgoal
    (Substitution.admits_start (goal.map .atom) θ)
    (fun a ha => Substitution.knows_of_mem _ (List.mem_map_of_mem ha)) hproves
  exact ⟨ρ, η, hders, hρ.respected, hagrees⟩

/-- When the search for a conjunction of plain atoms is not cut, every provable instance of it is an
instance of an answer; without an answer nothing is provable. -/
theorem Goal.answers_complete {k : Knowledge} (hk : k.IsStored) (hn : ∀ c ∈ k.clauses, Normal c)
    (hplain : ∀ c ∈ k.clauses, c.IsPlain) {goal : List Atom} (hgoal : ∀ a ∈ goal, a.IsPlain)
    (steps : Nat) :
    ((Goal.answersFrom (goal.map .atom) k.lookup steps Substitution.empty none).2.cut = false →
      ∀ θ : Valuation, (∀ a ∈ goal, Proves k.clauses (θ.apply a)) →
        ∃ τ ∈ (Goal.answersFrom (goal.map .atom) k.lookup steps Substitution.empty none).1,
          ∃ η : Valuation, ∀ v ∈ «variables» goal, η.apply (τ.apply (Term.var v)) = θ.value v) ∧
      (Goal.solve (goal.map .atom) k.lookup steps = .noAnswers →
        ∀ θ : Valuation, ∃ a ∈ goal, ¬ Proves k.clauses (θ.apply a)) := by
  have hpositive : ∀ l ∈ goal.map Literal.atom, l.isNegation = false := by
    intro l hl
    obtain ⟨a, -, rfl⟩ := List.mem_map.1 hl
    rfl
  have hcomplete : (Goal.answersFrom (goal.map .atom) k.lookup steps Substitution.empty none).2.cut =
      false → ∀ θ : Valuation, (∀ a ∈ goal, Proves k.clauses (θ.apply a)) →
        ∃ τ ∈ (Goal.answersFrom (goal.map .atom) k.lookup steps Substitution.empty none).1,
          ∃ η : Valuation, ∀ v ∈ «variables» goal, η.apply (τ.apply (Term.var v)) = θ.value v := by
    intro hcut θ hproves
    obtain ⟨ρ, η, hders, hη, hagrees⟩ := exists_derives (hk.isComplete hn) hplain hgoal hproves
    have hfound := (Search.rest_derives k.lookup _ (isPositive_start steps hpositive)).2
      hcut ρ (start_derives.2 hders)
    refine ⟨_, List.mem_map.2 ⟨ρ, hfound, rfl⟩, η, fun v hv => ?_⟩
    rw [Substitution.apply_restrict fun w hw => ?_]
    · rw [hη.apply]
      exact hagrees v hv
    · obtain rfl : w = v := Term.var.inj (List.mem_singleton.1 hw)
      obtain ⟨a, ha, hva⟩ := List.mem_flatMap.1 (mem_variables_iff.1 hv)
      exact mem_variables_iff.2 (List.mem_flatMap.2 ⟨.atom a, List.mem_map.2 ⟨a, ha, rfl⟩, hva⟩)
  refine ⟨hcomplete, fun hsolve θ => ?_⟩
  rw [solve_eq] at hsolve
  dsimp only at hsolve
  split at hsolve
  · cases hsolve
  · rename_i hempty
    split at hsolve
    · cases hsolve
    · rename_i hcut
      by_contra hall
      obtain ⟨τ, hτ, -⟩ := hcomplete (by simpa using hcut) θ fun a ha => by
        by_contra hnot
        exact hall ⟨a, ha, hnot⟩
      simp [List.isEmpty_iff.1 (by simpa using hempty)] at hτ

/-- The goal `p(X)` has an answer of which `X = a` is an instance when `p(a)` is stored. -/
theorem Goal.answer_covers_fact :
    let c := Clause.fact (.predicate ⟨"p", [.symbol "a"]⟩)
    let goal := [Atom.predicate ⟨"p", [.var (.named "X")]⟩]
    ∃ s, Store.empty.add c = .ok (true, s) ∧
      ∃ τ ∈ (Goal.answersFrom (goal.map .atom) s.candidates 1 Substitution.empty none).1,
        ∃ η : Valuation, η.apply (τ.apply (Term.var (.named "X"))) = .symbol "a" := by
  intro c goal
  let head : Predicate := ⟨"p", [.symbol "a"]⟩
  let call : Predicate := ⟨"p", [.var (.named "X")]⟩
  let s := Store.empty.insertNew c head
  let σ := Substitution.empty.addVariables [Literal.atom (.predicate call)]
  let θ : Valuation :=
    ⟨fun v => if v = .named "X" then .symbol "a" else .var v, fun v => by split <;> rfl⟩
  have hadd : Store.empty.add c = .ok (true, s) :=
    Store.add_of_not_contains rfl (by decide) (Store.contains_empty c)
  have hstored : ∀ d, d ∈ s.knowledge.clauses ↔ d = c := by
    intro d
    refine (Store.isFiled_empty.mem_clauses_insertNew c head).trans (or_iff_left ?_)
    rw [Store.clauses_empty]
    exact List.not_mem_nil
  have hfound : s.candidates call = [c] := by
    have hids : ((∅ : IdSet).insert 0).toList = [0] := rfl
    have hfiled : s.index[call.signature]? =
        some ((FunctorIndex.empty 1).insert 0 [.symbol "a"]) := by
      show ((∅ : Std.HashMap Signature (FunctorIndex ArgumentIndex)).insert head.signature _)[_]? = _
      rw [Std.HashMap.getElem?_insert, if_pos (by decide)]
      simp [Store.empty]
      rfl
    have hclause : s.clauseOf[0]? = some c := by simp [s, Store.insertNew, Store.empty]
    unfold Store.candidates
    rw [hfiled]
    show ((∅ : IdSet).insert 0).toList.filterMap _ = [c]
    rw [hids, List.filterMap_cons, hclause]
    rfl
  obtain ⟨τ, hτ⟩ : ∃ τ, σ.unifyPredicates call head = .ok τ :=
    Substitution.exists_unifyPredicates (Substitution.admits_start _ θ).normal (by decide)
      (by decide) (Substitution.admits_start _ θ).respected rfl
  have hresolve : Branch.resolve? call c [] σ = some (.goal [] τ) :=
    Branch.resolve?_closed [] rfl rfl rfl hτ
  have hnext : (Search.start [.atom (.predicate call)] Substitution.empty 1).next s.candidates =
      (some τ, ⟨[.call call [] [] σ], 0, false⟩) := by
    show Search.next _ ⟨[.goal [.atom (.predicate call)] σ], 0 + 1, false⟩ = _
    rw [Search.next_call (p := call) rfl rfl, hfound, Search.next_tried, hresolve]
    exact Search.next_answer
  have hcut : (Goal.answersFrom (goal.map .atom) s.candidates 1 Substitution.empty none).2.cut =
      false := by
    show ((Search.start [.atom (.predicate call)] Substitution.empty 1).rest s.candidates).2.cut = false
    rw [Search.rest_of_next_some hnext,
      Search.rest_of_next_none (Search.next_exhausted.trans Search.next_nil)]
  have hk : s.knowledge.IsStored := .store (.add .empty hadd)
  have hproved : Proves s.knowledge.clauses (θ.apply (Atom.predicate call)) :=
    .clause (c := c) θ ((hstored c).2 rfl) rfl rfl (List.forall_mem_nil _)
  have hplain : ∀ a ∈ goal, a.IsPlain := List.forall_mem_singleton.2 trivial
  obtain ⟨τ, hτ, η, hη⟩ := (Goal.answers_complete hk (fun d hd => (hstored d).1 hd ▸ by decide)
    (fun d hd => (hstored d).1 hd ▸ List.forall_mem_nil _) hplain 1).1 hcut θ (List.forall_mem_singleton.2 hproved)
  exact ⟨s, hadd, τ, hτ, η, hη _ (by decide)⟩

end Horn
