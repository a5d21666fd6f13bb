import Horn.Proofs.MostGeneral
import Horn.Proofs.Provability
import Horn.Proofs.SearchStep

/-!
Every answer of a search is proved by the stored clauses.  A branch of the search carries what it
still has to prove; whatever proves that, under bindings that the branch allows, proves the goal.
-/

namespace Horn

/-! ## Branches -/

/-- A negation-free literal whose atom is plain. -/
def Literal.IsPlain : Literal → Prop
  | .atom a => a.IsPlain
  | .not _ => False

namespace Branch

/-- The literals that a branch still has to prove. -/
def pending : Branch → List Literal
  | .goal todo _ => todo
  | .call p _ todo _ => .atom (.predicate p) :: todo

def bindings : Branch → Substitution
  | .goal _ σ => σ
  | .call _ _ _ σ => σ

/-- A branch from which the goal can be proved: under bindings that it allows, what proves the
pending literals proves the goal. -/
structure Leads (k : Knowledge) (goal : List Atom) (b : Branch) : Prop where
  plain : ∀ l ∈ b.pending, l.IsPlain
  normal : b.bindings.IsNormal
  called : ∀ p clauses todo σ, b = .call p clauses todo σ →
    builtin? p = none ∧ ∀ c ∈ clauses, c ∈ k.clauses
  proves : ∀ θ : Valuation, θ.Respects b.bindings →
    (∀ a, Literal.atom a ∈ b.pending → Proves k.clauses (θ.apply a)) →
    ∀ a ∈ goal, Proves k.clauses (θ.apply a)

section

variable {k : Knowledge} {goal : List Atom} {a : Atom} {p : Predicate} {todo : List Literal}
  {σ τ : Substitution}

/-- An atom is done when the bindings after it prove it and what follows leads on. -/
theorem Leads.settle (h : (Branch.goal (.atom a :: todo) σ).Leads k goal) (hτ : τ.IsNormal)
    (hresp : ∀ θ : Valuation, θ.Respects τ → θ.Respects σ ∧ Proves k.clauses (θ.apply a)) :
    (Branch.goal todo τ).Leads k goal where
  plain l hl := h.plain l (List.mem_cons_of_mem _ hl)
  normal := hτ
  called _ _ _ _ hb := nomatch hb
  proves θ hθ htodo := by
    refine h.proves θ (hresp θ hθ).1 fun b hb => ?_
    rcases List.mem_cons.1 hb with heq | hb
    · rw [Literal.atom.inj heq]
      exact (hresp θ hθ).2
    · exact htodo b hb

theorem Leads.settle_compare {c : Comparison} (h : (Branch.goal (.atom a :: todo) σ).Leads k goal)
    (hc : σ.apply a = .compare c) (hτ : c.solution? σ = some τ) :
    (Branch.goal todo τ).Leads k goal := by
  have hplain : a.IsPlain := h.plain (.atom a) List.mem_cons_self
  cases a with
  | predicate p => cases hc
  | compare d =>
    obtain ⟨s, t, rfl⟩ := hplain
    obtain rfl : (⟨.unify, .term (σ.apply s), .term (σ.apply t)⟩ : Comparison) = c :=
      Atom.compare.inj hc
    have hunify : (σ.unify (σ.apply s) (σ.apply t)).toOption = some τ := hτ
    cases hu : σ.unify (σ.apply s) (σ.apply t) with
    | error why => simp [hu, Except.toOption] at hunify
    | ok ρ =>
      obtain rfl : ρ = τ := by simpa [hu, Except.toOption] using hunify
      refine h.settle (h.normal.solve hu) fun θ hθ => ?_
      obtain ⟨hσ, heq⟩ := (Substitution.respects_of_unify hu).1 hθ
      rw [hσ.apply, hσ.apply] at heq
      exact ⟨hσ, proves_unify_iff.2 heq⟩

theorem Leads.settle_true (h : (Branch.goal (.atom a :: todo) σ).Leads k goal)
    (hp : σ.apply a = .predicate p) (hbuilt : builtin? p = some true) :
    (Branch.goal todo σ).Leads k goal := by
  refine h.settle h.normal fun θ hθ => ⟨hθ, ?_⟩
  rw [← hθ.apply a, hp, builtin?_eq_true.1 hbuilt]
  exact .truth

theorem Leads.call (h : (Branch.goal (.atom a :: todo) σ).Leads k goal)
    (hp : σ.apply a = .predicate p) (hbuilt : builtin? p = none) :
    (Branch.call p (k.lookup p) todo σ).Leads k goal where
  plain := List.forall_mem_cons.2
    ⟨trivial, fun l hl => h.plain l (List.mem_cons_of_mem _ hl)⟩
  normal := h.normal
  called _ _ _ _ hb := by
    cases hb
    exact ⟨hbuilt, k.within p⟩
  proves θ hθ hpending := by
    have hσ : θ.Respects σ := hθ
    refine h.proves θ hσ fun b hb => ?_
    rcases List.mem_cons.1 hb with heq | hb
    · rw [Literal.atom.inj heq, ← hσ.apply a, hp]
      exact hpending _ List.mem_cons_self
    · exact hpending b (List.mem_cons_of_mem _ hb)

theorem Leads.skip {c : Clause} {left : List Clause}
    (h : (Branch.call p (c :: left) todo σ).Leads k goal) :
    (Branch.call p left todo σ).Leads k goal where
  plain := h.plain
  normal := h.normal
  called _ _ _ _ hb := by
    cases hb
    obtain ⟨hbuilt, hstored⟩ := h.called _ _ _ _ rfl
    exact ⟨hbuilt, fun d hd => hstored d (List.mem_cons_of_mem _ hd)⟩
  proves := h.proves

/-- What proves a renamed body proves the call that the renamed head fits. -/
theorem proves_of_renamed {c : Clause} {ρ : Renaming} {head : Predicate} {θ : Valuation}
    (hstored : c ∈ k.clauses) (hbuilt : builtin? p = none)
    (hhead : (ρ.apply c).headPredicate = some head) (heq : θ.apply p = θ.apply head)
    (hbody : ∀ a ∈ (ρ.apply c).body, Proves k.clauses (θ.apply a)) :
    Proves k.clauses (θ.apply (Atom.predicate p)) := by
  let η := θ.after fun v => ((ρ.lookup v).map Term.var).getD (.var v)
  have hη : η.apply c = θ.apply (ρ.apply c) := by
    rw [Renaming.apply, replaceVars_eq_instantiate, Valuation.apply_instantiate]
  have hroot : (ρ.apply c).head = some (.predicate head) := by
    cases hh : (ρ.apply c).head with
    | none => simp [Clause.headPredicate, hh] at hhead
    | some b =>
      cases b with
      | compare d => simp [Clause.headPredicate, hh, Atom.asPredicate] at hhead
      | predicate q =>
        obtain rfl : q = head := by simpa [Clause.headPredicate, hh, Atom.asPredicate] using hhead
        rfl
  refine .clause (c := c) η hstored ((builtin?_apply θ p).trans hbuilt) ?_ ?_
  · rw [hη]
    show (ρ.apply c).head.map θ.apply = some (.predicate (θ.apply p))
    rw [hroot, heq]
    rfl
  · rw [hη]
    intro b hb
    obtain ⟨d, hd, rfl⟩ := List.mem_map.1 (show b ∈ (ρ.apply c).body.map θ.apply from hb)
    exact hbody d hd

theorem isPlain_of_mem_renamed {c : Clause} {ρ : Renaming} (hc : c.IsPlain) {a : Atom}
    (ha : a ∈ (ρ.apply c).body) : a.IsPlain := by
  rw [Renaming.apply, replaceVars_eq_instantiate] at ha
  obtain ⟨b, hb, rfl⟩ := List.mem_map.1 ha
  exact (hc b hb).instantiate _

theorem Leads.resolve {c : Clause} {left : List Clause} {b : Branch}
    (h : (Branch.call p (c :: left) todo σ).Leads k goal) (hplain : ∀ c ∈ k.clauses, c.IsPlain)
    (hb : resolve? p c todo σ = some b) : b.Leads k goal := by
  obtain ⟨hbuilt, hclauses⟩ := h.called _ _ _ _ rfl
  have hstored : c ∈ k.clauses := hclauses c List.mem_cons_self
  have hbindings : (σ.rename [] c).2.2.bindings = σ.bindings := Substitution.bindings_rename σ [] c
  obtain ⟨head, τ, hhead, hunify, rfl⟩ := resolve?_eq_some_iff.1 hb
  have hσ : (σ.rename [] c).2.2.IsNormal := h.normal.congr hbindings
  refine ⟨fun l hl => ?_, hσ.solve hunify, nofun, fun θ hθ hpending => ?_⟩
  · rcases List.mem_append.1 hl with hl | hl
    · obtain ⟨a, ha, rfl⟩ := List.mem_map.1 hl
      exact isPlain_of_mem_renamed (hplain c hstored) ha
    · exact h.plain l (List.mem_cons_of_mem _ hl)
  · obtain ⟨hρσ, heq⟩ := (Substitution.respects_of_unifyPredicates hunify).1 hθ
    have hproved : Proves k.clauses (θ.apply (Atom.predicate p)) :=
      proves_of_renamed hstored hbuilt hhead heq fun a ha =>
        hpending a (List.mem_append_left _ (List.mem_map.2 ⟨a, ha, rfl⟩))
    refine h.proves θ ((Valuation.respects_congr hbindings).1 hρσ) fun a ha => ?_
    rcases List.mem_cons.1 ha with hcall | ha
    · rw [Literal.atom.inj hcall]
      exact hproved
    · exact hpending a (List.mem_append_right _ ha)

end
end Branch

/-! ## Runs -/

namespace Search

section

variable {k : Knowledge} {goal : List Atom}

/-- Bindings under which the goal is proved. -/
def IsProof (k : Knowledge) (goal : List Atom) (σ : Substitution) : Prop :=
  σ.IsNormal ∧ ∀ a ∈ goal, Proves k.clauses (σ.apply a)

theorem isProof_of_leads {σ : Substitution} (h : (Branch.goal [] σ).Leads k goal) :
    IsProof k goal σ := by
  have hσ : σ.IsNormal := h.normal
  refine ⟨hσ, fun a ha => ?_⟩
  rw [← Substitution.valuation_apply hσ]
  exact h.proves _ (Substitution.valuation_respects hσ) nofun a ha

theorem kept_leads (hplain : ∀ c ∈ k.clauses, c.IsPlain) :
    Kept k.lookup (Branch.Leads k goal) (IsProof k goal) where
  answer := isProof_of_leads
  skip h := h.skip
  resolve h hb := h.resolve hplain hb
  compare h hc hτ := h.settle_compare hc hτ
  builtin h hp hbuilt := h.settle_true hp hbuilt
  call h hp hbuilt := h.call hp hbuilt
  negation h := (h.plain _ List.mem_cons_self).elim

/-- The next answer is a proof, and what is left to explore still leads to the goal. -/
theorem next_proves (hplain : ∀ c ∈ k.clauses, c.IsPlain) (s : Search)
    (hs : ∀ b ∈ s.branches, b.Leads k goal) :
    (∀ σ, (s.next k.lookup).1 = some σ → IsProof k goal σ) ∧
      ∀ b ∈ (s.next k.lookup).2.branches, b.Leads k goal :=
  (kept_leads hplain).next s hs

theorem rest_proves (hplain : ∀ c ∈ k.clauses, c.IsPlain) (s : Search)
    (hs : ∀ b ∈ s.branches, b.Leads k goal) : ∀ σ ∈ (s.rest k.lookup).1, IsProof k goal σ :=
  forall_rest (next_proves hplain) hs

theorem take_proves (hplain : ∀ c ∈ k.clauses, c.IsPlain) (n : Nat) (s : Search)
    (hs : ∀ b ∈ s.branches, b.Leads k goal) : ∀ σ ∈ (s.take k.lookup n).1, IsProof k goal σ :=
  forall_take (next_proves hplain) n hs

end
end Search

section

variable {k : Knowledge} {goal : List Atom}

theorem Search.leads_start (hgoal : ∀ a ∈ goal, a.IsPlain) {σ : Substitution} (hσ : σ.IsNormal)
    (steps : Nat) : ∀ b ∈ (start (goal.map .atom) σ steps).branches, b.Leads k goal := by
  refine List.forall_mem_singleton.2 ⟨fun l hl => ?_, hσ, nofun, ?_⟩
  · obtain ⟨a, ha, rfl⟩ := List.mem_map.1 hl
    exact hgoal a ha
  · exact fun θ _ hpending a ha => hpending a (List.mem_map.2 ⟨a, ha, rfl⟩)

/-- Of a proof only the values of the goal's variables matter. -/
theorem Search.IsProof.restrict {σ : Substitution} (h : IsProof k goal σ) :
    ∀ a ∈ goal, Proves k.clauses ((σ.restrict («variables» (goal.map Literal.atom))).apply a) := by
  intro a ha
  rw [Substitution.apply_restrict fun v hv => ?_]
  · exact h.2 a ha
  · exact mem_variables_iff.2 (List.mem_flatMap.2 ⟨.atom a, List.mem_map.2 ⟨a, ha, rfl⟩, hv⟩)

/-- The answers from any bindings prove the goal. -/
theorem Goal.apply_proved (hplain : ∀ c ∈ k.clauses, c.IsPlain) (hgoal : ∀ a ∈ goal, a.IsPlain)
    {σ τ : Substitution} (hσ : σ.IsNormal) {steps : Nat} {most : Option Nat}
    (h : τ ∈ (Goal.answersFrom (goal.map .atom) k.lookup steps σ most).1) :
    ∀ a ∈ goal, Proves k.clauses (τ.apply a) := by
  let start := Search.start (goal.map .atom) σ steps
  have hstart : ∀ b ∈ start.branches, b.Leads k goal := Search.leads_start hgoal hσ steps
  have hproof : ∃ ρ, Search.IsProof k goal ρ ∧
      ρ.restrict («variables» (goal.map Literal.atom)) = τ := by
    unfold answersFrom at h
    cases most with
    | none =>
      obtain ⟨ρ, hρ, heq⟩ := List.mem_map.1 h
      exact ⟨ρ, Search.rest_proves hplain start hstart ρ hρ, heq⟩
    | some n =>
      obtain ⟨ρ, hρ, heq⟩ := List.mem_map.1 h
      exact ⟨ρ, Search.take_proves hplain n start hstart ρ hρ, heq⟩
  obtain ⟨ρ, hρ, rfl⟩ := hproof
  exact hρ.restrict

end

/-- Every answer to a conjunction of plain atoms proves all of them. -/
theorem Goal.answers_proved (k : Knowledge) (hplain : ∀ c ∈ k.clauses, c.IsPlain)
    {goal : List Atom} (hgoal : ∀ a ∈ goal, a.IsPlain) (steps : Nat) (most : Option Nat)
    {τ : Substitution}
    (h : τ ∈ (Goal.answersFrom (goal.map .atom) k.lookup steps Substitution.empty most).1) :
    ∀ a ∈ goal, Proves k.clauses (τ.apply a) :=
  apply_proved hplain hgoal Substitution.isNormal_empty h

/-- A fact with a constant answers the call `p(X)`, and `X` gets the constant. -/
theorem Branch.exists_resolve?_symbol (name : String) (g : Goal) :
    ∃ τ, resolve? ⟨"p", [.var (.named "X")]⟩ (.fact (.predicate ⟨"p", [.symbol name]⟩)) []
        (Substitution.empty.addVariables g) = some (.goal [] τ) ∧
      τ.apply (Term.var (.named "X")) = .symbol name := by
  have hstart : (Substitution.empty.addVariables g).Reachable := .addVariables g .empty
  let θ : Valuation := ⟨fun _ => .symbol name, fun _ => rfl⟩
  have hnormal : Normal (Predicate.mk "p" [.symbol name]) := List.forall_mem_singleton.2 rfl
  have hcall : Normal (Predicate.mk "p" [.var (.named "X")]) := by decide
  obtain ⟨τ, hunify⟩ := Substitution.exists_unifyPredicates (θ := θ) hstart.isNormal hcall hnormal
    (fun _ => rfl) rfl
  have hτ : τ.IsNormal := hstart.isNormal.solve hunify
  have hsame :=
    ((Substitution.respects_of_unifyPredicates hunify).1 (Substitution.valuation_respects hτ)).2
  rw [Substitution.valuation_apply, Substitution.valuation_apply] at hsame
  refine ⟨τ, resolve?_closed [] rfl rfl rfl hunify, ?_⟩
  exact (List.cons.inj (Predicate.mk.inj hsame).2).1

/-- The fact `p(a)` answers the goal `p(X)`. -/
theorem Goal.answer_of_fact :
    let k := Knowledge.ofClauses [.fact (.predicate ⟨"p", [.symbol "a"]⟩)]
    let goal := [Atom.predicate ⟨"p", [.var (.named "X")]⟩]
    ∃ τ ∈ (Goal.answersFrom (goal.map .atom) k.lookup 1 Substitution.empty (some 1)).1,
      ∀ a ∈ goal, Proves k.clauses (τ.apply a) := by
  let fact : Clause := .fact (.predicate ⟨"p", [.symbol "a"]⟩)
  let call : Predicate := ⟨"p", [.var (.named "X")]⟩
  let σ := Substitution.empty.addVariables [Literal.atom (.predicate call)]
  obtain ⟨τ, hresolve, -⟩ :=
    Branch.exists_resolve?_symbol "a" [.atom (.predicate call)]
  have hnext : ∃ t, (Search.start [.atom (.predicate call)] Substitution.empty 1).next
      (Knowledge.ofClauses [fact]).lookup = (some τ, t) := by
    show ∃ t, Search.next _ ⟨[.goal [.atom (.predicate call)] σ], 0 + 1, false⟩ = _
    rw [Search.next_call (p := call) rfl rfl]
    show ∃ t, Search.next _ ⟨[.call call [fact] [] σ], 0 + 1, false⟩ = _
    rw [Search.next_tried, hresolve]
    exact ⟨_, Search.next_answer⟩
  obtain ⟨t, hnext⟩ := hnext
  have htake : ((Search.start [.atom (.predicate call)] Substitution.empty 1).take
      (Knowledge.ofClauses [fact]).lookup 1).1 = [τ] := by
    rw [Search.take, hnext]
    rfl
  intro k goal
  have hmem : τ.restrict («variables» (goal.map Literal.atom)) ∈
      (Goal.answersFrom (goal.map .atom) k.lookup 1 Substitution.empty (some 1)).1 :=
    List.mem_map.2 ⟨τ, htake ▸ List.mem_singleton_self τ, rfl⟩
  refine ⟨_, hmem, Goal.answers_proved k ?_ ?_ 1 (some 1) hmem⟩
  · exact List.forall_mem_singleton.2 (List.forall_mem_nil _)
  · exact List.forall_mem_singleton.2 trivial

end Horn
