import Horn.Program
import Horn.Proofs.Budgets
import Horn.Proofs.Narrowing
import Horn.Proofs.StoreRefinement

/-!
What it means for a clause that the background verifies it.  The body is searched with the negated head
behind it, and that search failed without being cut: so every derivation of the body ends with bindings
under which the head has an answer.  Derivations find the most general instances of the body, and a
negation binds nothing, which is why the head is provable for those instances rather than for others.
-/

namespace Horn

/-! ## A negated goal after everything else -/

namespace Branch

/-- The branch with a literal to be solved after the others. -/
def followedBy (l : Literal) : Branch → Branch
  | .goal todo σ => .goal (todo ++ [l]) σ
  | .call p clauses todo σ => .call p clauses (todo ++ [l]) σ

section

variable {b : Branch} {l : Literal} {p : Predicate} {c : Clause} {clauses : List Clause}
  {a : Atom} {todo : List Literal} {σ : Substitution}

theorem resolve?_followedBy :
    resolve? p c (todo ++ [l]) σ = (resolve? p c todo σ).map (followedBy l) := by
  unfold resolve?
  dsimp only
  split
  · rfl
  · split
    · rfl
    · rw [← List.append_assoc]
      rfl

theorem followedBy_eq_call (h : b.followedBy l = .call p clauses todo σ) :
    ∃ before, b = .call p clauses before σ ∧ todo = before ++ [l] := by
  cases b with
  | goal before τ => cases h
  | call q others before τ =>
    obtain ⟨rfl, rfl, rfl, rfl⟩ := Branch.call.inj h
    exact ⟨before, rfl, rfl⟩

theorem followedBy_eq_goal (h : b.followedBy l = .goal todo σ) :
    ∃ before, b = .goal before σ ∧ todo = before ++ [l] := by
  cases b with
  | call q others before τ => cases h
  | goal before τ =>
    obtain ⟨rfl, rfl⟩ := Branch.goal.inj h
    exact ⟨before, rfl, rfl⟩

/-- A branch that starts with an atom does so without the negation at its end. -/
theorem followedBy_eq_atom {g : Goal} (h : b.followedBy (.not g) = .goal (.atom a :: todo) σ) :
    ∃ before, b = .goal (.atom a :: before) σ ∧ todo = before ++ [.not g] := by
  obtain ⟨before, rfl, htodo⟩ := followedBy_eq_goal h
  cases before with
  | nil => cases htodo
  | cons first before =>
    obtain ⟨rfl, rfl⟩ := List.cons.inj htodo
    exact ⟨before, rfl, rfl⟩

theorem followedBy_eq_not {g g' : Goal} (hb : b.IsPositive)
    (h : b.followedBy (.not g) = .goal (.not g' :: todo) σ) :
    b = .goal [] σ ∧ g' = g ∧ todo = [] := by
  obtain ⟨before, rfl, htodo⟩ := followedBy_eq_goal h
  cases before with
  | nil =>
    obtain ⟨hnot, htodo⟩ := List.cons.inj htodo
    exact ⟨rfl, Literal.not.inj hnot, htodo⟩
  | cons first before =>
    obtain ⟨rfl, -⟩ := List.cons.inj htodo
    cases hb _ List.mem_cons_self

end

end Branch

namespace Search

/-- A search for the goal alone has an answer. -/
def Finds (lookup : Lookup) (g : Goal) (σ : Substitution) : Prop :=
  ∃ (s : Search) (τ : Substitution), (next lookup (s.inside g σ)).1 = some τ

theorem map_toList_resolve? (l : Literal) (p : Predicate) (c : Clause) (todo : List Literal)
    (σ : Substitution) :
    (Branch.resolve? p c (todo ++ [l]) σ).toList =
      (Branch.resolve? p c todo σ).toList.map (Branch.followedBy l) := by
  rw [Branch.resolve?_followedBy]
  cases Branch.resolve? p c todo σ <;> rfl

/-- When a search whose branches all end with a negated goal fails without being cut, that goal has an
answer wherever a branch leads that stops before it. -/
theorem finds_of_next_none {lookup : Lookup} {g : Goal} (s : Search) {t : Search}
    (hs : s.branches = t.branches.map (Branch.followedBy (.not g))) (ht : t.IsPositive)
    (hnone : (s.next lookup).1 = none) (hcut : (s.next lookup).2.cut = false) {ρ : Substitution}
    (hρ : t.Derives lookup ρ) : Finds lookup g ρ := by
  fun_induction next lookup s generalizing t with
  | case1 s h =>
    obtain ⟨b, hb, -⟩ := hρ
    rw [List.map_eq_nil_iff.1 (hs.symm.trans h)] at hb
    cases hb
  | case2 s p todo σ rest h _ ih =>
    obtain ⟨b, others, hbranches, hb, rfl⟩ := List.map_eq_cons_iff.1 (hs.symm.trans h)
    obtain ⟨before, rfl, rfl⟩ := Branch.followedBy_eq_call hb
    refine ih (t := t.withBranches others) rfl (ht.cons hbranches).2 hnone hcut
      ((derives_drop hbranches ?_).1 hρ)
    rintro ⟨c, hc, -⟩
    cases hc
  | case3 s p c left todo σ rest h h0 => cases hcut
  | case4 s p c left todo σ rest h h0 _ ih =>
    obtain ⟨b, others, hbranches, hb, rfl⟩ := List.map_eq_cons_iff.1 (hs.symm.trans h)
    obtain ⟨before, rfl, rfl⟩ := Branch.followedBy_eq_call hb
    obtain ⟨hcall, hothers⟩ := ht.cons hbranches
    refine ih (t := t.tried p c left before σ others) ?_ ?_ hnone hcut ((derives_tried hbranches).1 hρ)
    · rw [tried, tried, List.map_append, map_toList_resolve?]
      rfl
    · refine List.forall_mem_append.2 ⟨fun b hb => ?_, List.forall_mem_cons.2 ⟨hcall, hothers⟩⟩
      exact Branch.isPositive_of_resolve? hcall (Option.mem_toList.1 hb)
  | case5 s σ rest h => cases hnone
  | case6 s a todo σ rest h c hc hsol _ ih =>
    obtain ⟨b, others, hbranches, hb, rfl⟩ := List.map_eq_cons_iff.1 (hs.symm.trans h)
    obtain ⟨before, rfl, rfl⟩ := Branch.followedBy_eq_atom hb
    refine ih (t := t.withBranches others) rfl (ht.cons hbranches).2 hnone hcut
      ((derives_drop hbranches ?_).1 hρ)
    rw [Branch.derives_compare hc, hsol]
    simp
  | case7 s a todo σ rest h c hc τ hτ _ ih =>
    obtain ⟨b, others, hbranches, hb, rfl⟩ := List.map_eq_cons_iff.1 (hs.symm.trans h)
    obtain ⟨before, rfl, rfl⟩ := Branch.followedBy_eq_atom hb
    refine ih (t := t.withBranches (.goal before τ :: others)) rfl (ht.replace hbranches id) hnone hcut
      ((derives_replace hbranches ?_).1 hρ)
    rw [Branch.derives_compare hc, hτ]
    simp
  | case8 s a todo σ rest h p hp hbuilt _ ih =>
    obtain ⟨b, others, hbranches, hb, rfl⟩ := List.map_eq_cons_iff.1 (hs.symm.trans h)
    obtain ⟨before, rfl, rfl⟩ := Branch.followedBy_eq_atom hb
    refine ih (t := t.withBranches (.goal before σ :: others)) rfl (ht.replace hbranches id) hnone hcut
      ((derives_replace hbranches ?_).1 hρ)
    rw [Branch.derives_builtin hp hbuilt]
    exact and_iff_right rfl
  | case9 s a todo σ rest h p hp hbuilt _ ih =>
    obtain ⟨b, others, hbranches, hb, rfl⟩ := List.map_eq_cons_iff.1 (hs.symm.trans h)
    obtain ⟨before, rfl, rfl⟩ := Branch.followedBy_eq_atom hb
    refine ih (t := t.withBranches others) rfl (ht.cons hbranches).2 hnone hcut
      ((derives_drop hbranches ?_).1 hρ)
    rw [Branch.derives_builtin hp hbuilt]
    simp
  | case10 s a todo σ rest h p hp hbuilt _ ih =>
    obtain ⟨b, others, hbranches, hb, rfl⟩ := List.map_eq_cons_iff.1 (hs.symm.trans h)
    obtain ⟨before, rfl, rfl⟩ := Branch.followedBy_eq_atom hb
    exact ih (t := t.withBranches (.call p (lookup p) before σ :: others)) rfl
      (ht.replace hbranches id) hnone hcut
      ((derives_replace hbranches (Branch.derives_call hp hbuilt)).1 hρ)
  | case11 s g' todo σ rest h _ answer inner hnext _ ihin ih =>
    obtain ⟨b, others, hbranches, hb, rfl⟩ := List.map_eq_cons_iff.1 (hs.symm.trans h)
    obtain ⟨rfl, rfl, rfl⟩ := Branch.followedBy_eq_not (ht.cons hbranches).1 hb
    cases hanswer : answer with
    | none =>
      -- The negation holds, so the search has an answer.
      rw [hanswer] at hnone
      cases (congrArg Prod.fst next_answer).symm.trans hnone
    | some τ =>
      rw [hanswer] at hnone hcut ih
      rcases (derives_of_branches hbranches).1 hρ with hρ | hρ
      · obtain rfl := Branch.derives_nil.1 hρ
        exact ⟨s, τ, (congrArg Prod.fst hnext).trans hanswer⟩
      · exact ih (t := t.withBranches others) rfl (ht.cons hbranches).2 hnone hcut hρ

/-- The answer for an atom under bindings proves an instance of what they make of it. -/
theorem Finds.exists_proves {k : Knowledge} (hplain : ∀ c ∈ k.clauses, c.IsPlain) {a : Atom}
    (ha : a.IsPlain) {σ : Substitution} (hσ : σ.IsNormal) (h : Finds k.lookup [.atom a] σ) :
    ∃ ζ : Valuation, Proves k.clauses (ζ.apply (σ.apply a)) := by
  obtain ⟨s, τ, hτ⟩ := h
  let inner := s.inside [.atom a] σ
  have hstart : ∀ b ∈ inner.branches, b.Leads k [σ.apply a] := by
    refine List.forall_mem_singleton.2 ⟨List.forall_mem_singleton.2 ha, hσ, nofun, ?_⟩
    intro θ hθ hpending
    refine List.forall_mem_singleton.2 ?_
    have hsame : θ.apply (σ.apply a) = θ.apply a := Valuation.Respects.apply hθ a
    rw [hsame]
    exact hpending a List.mem_cons_self
  obtain ⟨hnormal, hproved⟩ := (next_proves hplain inner hstart).1 τ hτ
  refine ⟨τ.valuation hnormal, ?_⟩
  rw [Substitution.valuation_apply]
  exact hproved _ List.mem_cons_self

end Search

/-! ## Verification -/

theorem Search.next_only_not {lookup : Lookup} {g : Goal} {σ : Substitution} {steps : Nat}
    {cut : Bool} :
    next lookup ⟨[.goal [.not g] σ], steps, cut⟩ =
      let (answer, inner) := next lookup ⟨[.goal g (σ.addVariables g)], steps, cut⟩
      (if answer.isSome then none else some σ, ⟨[], min steps inner.steps, inner.cut⟩) := by
  rw [next_not]
  dsimp only
  cases (next lookup ⟨[.goal g (σ.addVariables g)], steps, cut⟩).1 with
  | none => exact next_answer
  | some τ => exact next_nil

section

variable {lookup : Lookup} {c : Clause} {head : Atom} {steps : Nat}

/-- The bindings with which the body is searched for a verification. -/
def Clause.verificationBindings (c : Clause) (head : Atom) : Substitution :=
  (Substitution.empty.addVariables (Goal.verificationOf c)).addVariables
    (c.bodyGoal ++ [.not [.atom head]])

/-- The search for the body with the negated head behind it. -/
def Clause.verificationSearch (c : Clause) (head : Atom) (steps : Nat) : Search :=
  ⟨[.goal (c.bodyGoal ++ [.not [.atom head]]) (c.verificationBindings head)], steps, false⟩

theorem Clause.next_verification (hhead : c.head = some head) {inner : Option Substitution × Search}
    (hinner : (c.verificationSearch head steps).next lookup = inner) :
    (Search.start (Goal.verificationOf c) Substitution.empty steps).next lookup =
      (if inner.1.isSome then none
        else some (Substitution.empty.addVariables (Goal.verificationOf c)),
        ⟨[], min steps inner.2.steps, inner.2.cut⟩) := by
  have hgoal : Goal.verificationOf c = [.not (c.bodyGoal ++ [.not [.atom head]])] := by
    rw [Goal.verificationOf, hhead]
  rw [verificationSearch, verificationBindings] at hinner
  rw [hgoal] at hinner ⊢
  rw [Search.start, Search.next_only_not, hinner]

/-- A clause is verified exactly when the search for its body with the negated head has no answer. -/
theorem Clause.succeeds_verification (hhead : c.head = some head) :
    (Goal.verificationOf c).succeeds lookup steps = true ↔
      ((c.verificationSearch head steps).next lookup).1 = none := by
  have hnext := c.next_verification hhead (Eq.refl ((c.verificationSearch head steps).next lookup))
  rw [Goal.succeeds_eq, hnext]
  cases ((c.verificationSearch head steps).next lookup).1 <;> simp

/-- Where the body of a verified clause leads, its head has an answer. -/
theorem Clause.finds_of_verification (hhead : c.head = some head)
    (hverify : (Goal.verificationOf c).succeeds lookup steps = true)
    (hcut : ((Search.start (Goal.verificationOf c) Substitution.empty steps).next lookup).2.cut = false)
    {ρ : Substitution}
    (hρ : Goal.Derives lookup (c.body.map .atom) (c.verificationBindings head) ρ) :
    Search.Finds lookup [.atom head] ρ := by
  let inner := c.verificationSearch head steps
  let body := inner.withBranches [.goal c.bodyGoal (c.verificationBindings head)]
  have hnext := c.next_verification hhead (Eq.refl (inner.next lookup))
  have hnone : (inner.next lookup).1 = none := (c.succeeds_verification hhead).1 hverify
  rw [hnext] at hcut
  have hpositive : body.IsPositive := by
    refine List.forall_mem_singleton.2 fun l hl => ?_
    obtain ⟨a, -, rfl⟩ := List.mem_map.1 hl
    rfl
  exact Search.finds_of_next_none inner (t := body) rfl hpositive hnone hcut
    ⟨_, List.mem_singleton_self _, hρ⟩

end

/-- A provable instance of the head of a most general instance of the body has the values of any
instance of the body, if those of the most general one are ground where head and body share them. -/
theorem exists_proves_of_ground {clauses : List Clause} {body : List Atom} {head : Atom}
    {θ τ η ζ : Valuation} (hinstance : ∀ v ∈ «variables» body, η.apply (τ.value v) = θ.value v)
    (hground : ∀ v ∈ «variables» body, v ∈ «variables» head → isGround (τ.value v) = true)
    (hproves : Proves clauses (ζ.apply (τ.apply head))) :
    ∃ ζ : Valuation, (∀ v ∈ «variables» body, ζ.value v = θ.value v) ∧
      Proves clauses (ζ.apply head) := by
  let values : Valuation :=
    { value := fun v => if v ∈ «variables» body then θ.value v else (ζ.after τ.value).value v
      normal := fun v => by
        split
        · exact θ.normal v
        · exact (ζ.after τ.value).normal v }
  refine ⟨values, fun v hv => if_pos hv, ?_⟩
  have hsame : values.apply head = (ζ.after τ.value).apply head := by
    refine instantiate_congr fun v hv => ?_
    by_cases hbody : v ∈ «variables» body
    · have htv := hground v hbody (mem_variables_iff.2 hv)
      have hθ : θ.value v = τ.value v :=
        (hinstance v hbody).symm.trans (η.apply_of_isGround htv (τ.normal v))
      have hζ : (ζ.after τ.value).value v = τ.value v := ζ.apply_of_isGround htv (τ.normal v)
      exact (if_pos hbody).trans (hθ.trans hζ.symm)
    · exact if_neg hbody
  rw [hsame, ← Valuation.apply_instantiate]
  exact hproves

/-! ## Verification with facts -/

namespace Search

/-- A call that one fact answers goes on with what follows it. -/
theorem next_fact {k : Knowledge} (hk : k.IsComplete) {σ : Substitution} {η : Valuation}
    (hσ : σ.Admits η) {a : Atom} (hknown : σ.Knows a) {q d : Predicate}
    (ha : η.apply a = .predicate q) (hq : builtin? q = none)
    (hlookup : ∀ p : Predicate, p.name = q.name → Clause.fact (.predicate d) ∈ k.lookup p →
      k.lookup p = [.fact (.predicate d)])
    (hd : Clause.fact (.predicate d) ∈ k.clauses) {ζ : Valuation} (hζ : ζ.apply d = q) :
    ∃ (p : Predicate) (τ : Substitution) (θ : Valuation), τ.Admits θ ∧ σ.Precedes η τ θ ∧
      ∀ (todo : List Literal) (rest : List Branch) (steps : Nat) (cut : Bool),
        next k.lookup ⟨.goal (.atom a :: todo) σ :: rest, steps + 1, cut⟩ =
          next k.lookup ⟨.goal todo τ :: .call p [] todo σ :: rest, steps, cut⟩ := by
  obtain ⟨p, hσa, hp, hpnormal, hpknown⟩ := hσ.exists_call hknown ha
  have hhead : (ζ.apply (Clause.fact (.predicate d))).head = some (.predicate (η.apply p)) := by
    rw [hp, ← hζ]
    rfl
  obtain ⟨hfound, ρ, τ, θ, hresolved, hτ, hστ, -, -⟩ :=
    exists_resolvent hk hσ hpnormal hpknown hd hhead
  have hbuilt : builtin? p = none := by rw [← builtin?_apply η p, hp, hq]
  refine ⟨p, τ, θ, hτ, hστ, fun todo rest steps cut => ?_⟩
  have hresolve : Branch.resolve? p (.fact (.predicate d)) todo σ = some (.goal todo τ) := by
    rw [Interpreter.resolve?_eq_resolvent?, hresolved]
    rfl
  have hname : p.name = q.name := by
    rw [← hp]
    rfl
  rw [next_call hσa hbuilt, hlookup p hname hfound, next_tried, hresolve]
  rfl

end Search

section

variable {d e b h : Predicate} {p : Program}

/-- Different facts answer different calls. -/
theorem Store.candidates_facts {s : Store} (hs : s.IsFiled) (hde : d.name ≠ e.name)
    (hclauses : s.clauses = [.fact (.predicate d), .fact (.predicate e)]) {q : Predicate} :
    (q.name = d.name → Clause.fact (.predicate d) ∈ s.candidates q →
      s.candidates q = [.fact (.predicate d)]) ∧
    (q.name = e.name → Clause.fact (.predicate e) ∈ s.candidates q →
      s.candidates q = [.fact (.predicate e)]) := by
  let fits (c : Clause) : Bool := c.headPredicate.any (·.agrees q)
  have hfilter : s.candidates q = [Clause.fact (.predicate d), .fact (.predicate e)].filter fits := by
    rw [hs.candidates_eq, hclauses]
  have hmisses : ∀ {f : Predicate}, f.name ≠ q.name → ¬ fits (.fact (.predicate f)) = true := by
    intro f hf
    show ¬ f.agrees q = true
    rw [Predicate.agrees, beq_eq_false_iff_ne.2 hf, Bool.false_and]
    exact Bool.false_ne_true
  rw [hfilter]
  refine ⟨fun hname hmem => ?_, fun hname hmem => ?_⟩
  · rw [List.filter_cons_of_pos (List.mem_filter.1 hmem).2,
      List.filter_cons_of_neg (hmisses (hname ▸ hde.symm)), List.filter_nil]
  · rw [List.filter_cons_of_neg (hmisses (hname ▸ hde)),
      List.filter_cons_of_pos (List.mem_filter.1 hmem).2, List.filter_nil]

/-- A rule of one body atom is verified when one fact answers the body and another the head. -/
theorem Program.verify_of_facts (hs : p.knowledge.Reachable)
    (hnormal : ∀ d ∈ p.knowledge.clauses, Normal d) (hde : d.name ≠ e.name)
    (hclauses : p.knowledge.clauses = [.fact (.predicate d), .fact (.predicate e)])
    {η ζ κ : Valuation} (hb : ζ.apply d = η.apply b) (hh : κ.apply e = η.apply h)
    (hbuiltb : builtin? b = none) (hbuilth : builtin? h = none) (hsteps : 2 ≤ p.options.h) :
    p.verify (.rule (.predicate h) [.predicate b]) = true ∧
      ((Search.start (Goal.verificationOf (.rule (.predicate h) [.predicate b])) Substitution.empty
        p.options.h).next p.knowledge.candidates).2.cut = false := by
  obtain ⟨n, hn⟩ : ∃ n, p.options.h = n + 1 + 1 := ⟨p.options.h - 2, by omega⟩
  let c := Clause.rule (.predicate h) [.predicate b]
  let k := p.knowledge.knowledge
  have hk : k.IsComplete := (Knowledge.IsStored.store hs).isComplete hnormal
  have hstored : ∀ c, c ∈ k.clauses ↔ c = .fact (.predicate d) ∨ c = .fact (.predicate e) := by
    intro c
    show c ∈ p.knowledge.clauses ↔ _
    rw [hclauses, List.mem_cons, List.mem_singleton]
  have hnameb : d.name = b.name := by
    have hname : (ζ.apply d).name = (η.apply b).name := by rw [hb]
    exact hname
  have hnameh : e.name = h.name := by
    have hname : (κ.apply e).name = (η.apply h).name := by rw [hh]
    exact hname
  let σ := c.verificationBindings (.predicate h)
  have hσ : σ.Admits η := (Substitution.admits_start _ η).addVariables _
  have hbodyKnown : σ.Knows (Atom.predicate b) := Substitution.knows_of_mem _ List.mem_cons_self
  have hheadKnown : σ.Knows (Atom.predicate h) := fun v hv =>
    Substitution.knows_addVariables _ _ v (List.mem_flatMap.2
      ⟨.not [.atom (.predicate h)], List.mem_append_right _ List.mem_cons_self,
        List.mem_append_left _ hv⟩)
  obtain ⟨q, τ, θ, hτ, hστ, hbody⟩ := Search.next_fact hk hσ hbodyKnown (q := η.apply b) rfl
    ((builtin?_apply η b).trans hbuiltb)
    (fun q hq => (Store.candidates_facts hs.isFiled hde hclauses).1 (hq.trans hnameb.symm))
    ((hstored _).2 (.inl rfl)) hb
  have hcall : θ.apply (Atom.predicate h) = .predicate (η.apply h) :=
    hheadKnown.apply_congr hστ.agrees
  obtain ⟨r, ω, -, -, -, hhead⟩ := Search.next_fact hk (hτ.addVariables [.atom (.predicate h)])
    (Substitution.knows_of_mem _ List.mem_cons_self) hcall ((builtin?_apply η h).trans hbuilth)
    (fun q hq => (Store.candidates_facts hs.isFiled hde hclauses).2 (hq.trans hnameh.symm))
    ((hstored _).2 (.inr rfl)) hh
  -- The body is answered, then the head inside the negation, and no branch is left.
  have hinner : (c.verificationSearch (.predicate h) (n + 1 + 1)).next k.lookup =
      (none, ⟨[], min (n + 1) n, false⟩) := by
    refine (hbody [.not [.atom (.predicate h)]] [] (n + 1) false).trans ?_
    rw [Search.next_not, hhead [] [] n false, Search.next_answer]
    exact Search.next_exhausted.trans Search.next_nil
  have hnext := c.next_verification rfl hinner
  rw [← hn] at hnext
  constructor
  · exact (c.succeeds_verification rfl).2 (hn ▸ congrArg Prod.fst hinner)
  · show ((Search.start (Goal.verificationOf c) Substitution.empty p.options.h).next k.lookup).2.cut =
      false
    rw [hnext]

end

/-- What is provable and does not hold by itself is an instance of the head of a clause. -/
theorem exists_head_of_proves {clauses : List Clause} {q : Predicate}
    (h : Proves clauses (.predicate q)) (hq : builtin? q = none) :
    ∃ c ∈ clauses, ∃ θ : Valuation, (θ.apply c).head = some (.predicate q) := by
  cases h with
  | truth => cases hq
  | @clause c θ _ stored resolved head body => exact ⟨c, stored, θ, head⟩

theorem Valuation.apply_fact {θ : Valuation} {f q : Predicate}
    (h : (θ.apply (Clause.fact (.predicate f))).head = some (.predicate q)) :
    f.name = q.name ∧ f.args.map θ.apply = q.args :=
  Predicate.mk.inj (Atom.predicate.inj (Option.some.inj h))

/-- A fact proves nothing of another predicate. -/
theorem not_proves_of_fact {f q : Predicate} (hq : builtin? q = none) (h : f.name ≠ q.name) :
    ¬ Proves [.fact (.predicate f)] (.predicate q) := by
  intro hproves
  obtain ⟨c, hc, θ, hhead⟩ := exists_head_of_proves hproves hq
  rw [List.mem_singleton.1 hc] at hhead
  exact h (Valuation.apply_fact hhead).1

/-- A valuation that gives symbols to all variables. -/
def Valuation.ofSymbols (symbol : Var → String) : Valuation :=
  ⟨fun v => .symbol (symbol v), fun _ => rfl⟩

/-! ## What a verified clause says -/

/-- A clause that the background verifies, in a search that is not cut, has a provable head for a most
general instance of its body of which any given provable instance is one.  Where such instances are
ground in what head and body share, the head is provable with the values of the given one. -/
theorem Program.verify_sound (p : Program) (hstored : p.knowledge.Reachable)
    (hnormal : ∀ d ∈ p.knowledge.clauses, Normal d) (hplain : ∀ d ∈ p.knowledge.clauses, d.IsPlain)
    {c : Clause} {head : Atom} (hhead : c.head = some head) (hheadPlain : head.IsPlain)
    (hc : c.IsPlain) (hverify : p.verify c = true)
    (hcut : ((Search.start (Goal.verificationOf c) Substitution.empty p.options.h).next
      p.knowledge.candidates).2.cut = false)
    (θ : Valuation) (hbody : ∀ a ∈ c.body, Proves p.knowledge.clauses (θ.apply a)) :
    (∃ τ η ζ : Valuation, (∀ v ∈ «variables» c.body, η.apply (τ.value v) = θ.value v) ∧
      (∀ a ∈ c.body, Proves p.knowledge.clauses (τ.apply a)) ∧
      Proves p.knowledge.clauses (ζ.apply (τ.apply head))) ∧
    ((∀ τ : Valuation, (∀ a ∈ c.body, Proves p.knowledge.clauses (τ.apply a)) →
        ∀ v ∈ «variables» c.body, v ∈ «variables» head → isGround (τ.value v) = true) →
      ∃ ζ : Valuation, (∀ v ∈ «variables» c.body, ζ.value v = θ.value v) ∧
        Proves p.knowledge.clauses (ζ.apply head)) := by
  have hk : p.knowledge.knowledge.IsComplete := (Knowledge.IsStored.store hstored).isComplete hnormal
  let σ := c.verificationBindings head
  have hσ : σ.Admits θ := (Substitution.admits_start _ θ).addVariables _
  have hknown : ∀ a ∈ c.body, σ.Knows a := fun a ha =>
    Substitution.knows_of_mem _ (List.mem_append_left _ (List.mem_map_of_mem ha))
  obtain ⟨ρ, η, hders, hρ, hagrees⟩ :=
    Goal.exists_derives_from hk hplain hc hσ hknown hbody
  obtain ⟨ζ, hζ⟩ := (Clause.finds_of_verification hhead hverify hcut hders).exists_proves
    (k := p.knowledge.knowledge) hplain hheadPlain hρ.normal
  have hleads : (Branch.goal (c.body.map .atom) σ).Leads p.knowledge.knowledge c.body := by
    refine ⟨fun l hl => ?_, hσ.normal, nofun, fun θ _ hpending a ha => ?_⟩
    · obtain ⟨a, ha, rfl⟩ := List.mem_map.1 hl
      exact hc a ha
    · exact hpending a (List.mem_map_of_mem ha)
  have hproved := (hders.isProof hplain hleads).2
  let τ := ρ.valuation hρ.normal
  have hτ : ∀ a : Atom, τ.apply a = ρ.apply a := Substitution.valuation_apply hρ.normal
  have hinstance : ∀ v ∈ «variables» c.body, η.apply (τ.value v) = θ.value v := by
    intro v hv
    rw [← hagrees v hv]
    exact hρ.respected.apply (Term.var v)
  have hmost : ∀ a ∈ c.body, Proves p.knowledge.clauses (τ.apply a) := by
    intro a ha
    rw [hτ]
    exact hproved a ha
  have hheadProved : Proves p.knowledge.clauses (ζ.apply (τ.apply head)) := by
    rw [hτ]
    exact hζ
  exact ⟨⟨τ, η, ζ, hinstance, hmost, hheadProved⟩, fun hground =>
    exists_proves_of_ground hinstance (hground τ hmost) hheadProved⟩

/-- With the facts `q(a)` and `p(a)` the rule `p(X) :- q(X)` is verified, and `q(a)` is the one
instance of its body. -/
theorem Program.verify_sound_rule :
    let x : Term := .var (.named "X")
    let a : Term := .symbol "a"
    let facts : List Clause := [.fact (.predicate ⟨"q", [a]⟩), .fact (.predicate ⟨"p", [a]⟩)]
    ∃ s, s.Reachable ∧ s.clauses = facts ∧
      Program.verify { Program.empty with knowledge := s }
        (.rule (.predicate ⟨"p", [x]⟩) [.predicate ⟨"q", [x]⟩]) = true ∧
      ∃ ζ : Valuation, ζ.value (.named "X") = a ∧
        Proves facts (ζ.apply (Atom.predicate ⟨"p", [x]⟩)) := by
  intro x a facts
  obtain ⟨s, hs, hclauses⟩ : ∃ s : Store, s.Reachable ∧ s.clauses = facts :=
    Store.exists_clauses (by decide) (by decide)
  let program : Program := { Program.empty with knowledge := s }
  let θ := Valuation.ofSymbols fun _ => "a"
  have hnormal : ∀ d ∈ s.clauses, Normal d := by
    rw [hclauses]
    decide
  have hplain : ∀ d ∈ s.clauses, d.IsPlain := by
    rw [hclauses]
    exact List.forall_mem_cons.2 ⟨nofun, List.forall_mem_singleton.2 nofun⟩
  obtain ⟨hverify, hcut⟩ := Program.verify_of_facts (p := program) (d := ⟨"q", [a]⟩) (e := ⟨"p", [a]⟩)
    (b := ⟨"q", [x]⟩) (h := ⟨"p", [x]⟩) hs hnormal (by decide) hclauses (η := θ) (ζ := θ) (κ := θ)
    rfl rfl rfl rfl (show 2 ≤ 10000 by decide)
  have hbody : Proves s.clauses (θ.apply (Atom.predicate ⟨"q", [x]⟩)) :=
    .clause (c := .fact (.predicate ⟨"q", [a]⟩)) θ (hclauses ▸ List.mem_cons_self) rfl rfl nofun
  have hgroundBody : ∀ τ : Valuation, Proves s.clauses (τ.apply (Atom.predicate ⟨"q", [x]⟩)) →
      τ.value (.named "X") = a := by
    intro τ hτ
    obtain ⟨c, hc, η, hhead⟩ := exists_head_of_proves hτ rfl
    rw [hclauses] at hc
    rcases List.mem_cons.1 hc with rfl | hc
    · exact (List.cons.inj (Valuation.apply_fact hhead).2).1.symm
    · rw [List.mem_singleton.1 hc] at hhead
      exact absurd (show "p" = "q" from (Valuation.apply_fact hhead).1) (by decide)
  have hvars : «variables» [Atom.predicate ⟨"q", [x]⟩] = [.named "X"] := rfl
  have hroot : (Clause.rule (.predicate ⟨"p", [x]⟩) [.predicate ⟨"q", [x]⟩]).head =
      some (.predicate ⟨"p", [x]⟩) := rfl
  obtain ⟨-, hsound⟩ := Program.verify_sound program hs hnormal hplain hroot
    trivial (List.forall_mem_singleton.2 trivial) hverify hcut θ (List.forall_mem_singleton.2 hbody)
  obtain ⟨ζ, hζ, hproves⟩ := hsound fun τ hτ v hv _ => by
    have hv : v ∈ [Var.named "X"] := hvars ▸ hv
    rw [List.mem_singleton.1 hv, hgroundBody τ (hτ _ List.mem_cons_self)]
    rfl
  refine ⟨s, hs, hclauses, hverify, ζ, hζ _ (hvars ▸ List.mem_cons_self), ?_⟩
  rw [← hclauses]
  exact hproves

/-- A rule is verified when the store has no candidates for its body. -/
theorem Program.verify_of_no_candidates {p : Program} {b h : Predicate} (hnormal : Normal b)
    (hbuilt : builtin? b = none) (hnone : p.knowledge.candidates b = []) :
    p.verify (.rule (.predicate h) [.predicate b]) = true := by
  let c := Clause.rule (.predicate h) [.predicate b]
  let σ := c.verificationBindings (.predicate h)
  have hσ : σ.Admits .identity := (Substitution.admits_start _ _).addVariables _
  obtain ⟨q, hq, heq, hqnormal, -⟩ := hσ.exists_call
    (Substitution.knows_of_mem _ List.mem_cons_self) (a := Atom.predicate b) (q := b)
    (congrArg Atom.predicate (Valuation.apply_of_normal hnormal))
  obtain rfl : q = b := (Valuation.apply_of_normal hqnormal).symm.trans heq
  have hinner : (c.verificationSearch (.predicate h) p.options.h).next p.knowledge.candidates =
      (none, ⟨[], p.options.h, false⟩) := by
    refine (Search.next_call hq hbuilt).trans ?_
    rw [hnone]
    exact Search.next_exhausted.trans Search.next_nil
  exact (c.succeeds_verification rfl).2 (congrArg Prod.fst hinner)

/-- The normal form is needed: `q([|a])`, which no text gives, is filed under the lists, so that a call
of `q(a)`, an instance of it, misses it. -/
theorem Program.verify_misses_raw :
    let q : Predicate := ⟨"q", [.symbol "a"]⟩
    ∃ p : Program, p.knowledge.Reachable ∧
      p.knowledge.clauses = [.fact (.predicate ⟨"q", [.list [] (some (.symbol "a"))]⟩)] ∧
      p.verify (.rule (.predicate ⟨"p", []⟩) [.predicate q]) = true ∧
      Proves p.knowledge.clauses (.predicate q) ∧
      ¬ Proves p.knowledge.clauses (.predicate ⟨"p", []⟩) := by
  intro q
  let stored : Clause := .fact (.predicate ⟨"q", [.list [] (some (.symbol "a"))]⟩)
  obtain ⟨s, hs, hclauses⟩ : ∃ s : Store, s.Reachable ∧ s.clauses = [stored] :=
    Store.exists_clauses (by decide) (by decide)
  refine ⟨{ Program.empty with knowledge := s }, hs, hclauses,
    Program.verify_of_no_candidates (by decide) rfl ?_, ?_, ?_⟩
  · show s.candidates q = []
    rw [hs.isFiled.candidates_eq, hclauses]
    decide
  · have hinstance : Valuation.identity.apply (Term.list [] (some (.symbol "a"))) = .symbol "a" :=
      (Term.instantiate_list _ [] _).trans (Term.listOf_nil rfl)
    exact .clause (c := stored) .identity (hclauses ▸ List.mem_cons_self) rfl
      (congrArg (fun t => some (Atom.predicate ⟨"q", [t]⟩)) hinstance) nofun
  · exact hclauses ▸ not_proves_of_fact rfl (by decide)

/-- A rule that is verified, a valuation that makes its body provable and its head unprovable, whatever
stands for the variables that are left. -/
structure Program.Overlooks (p : Program) (head body : Predicate) (θ : Valuation) : Prop where
  reachable : p.knowledge.Reachable
  facts : ∀ c ∈ p.knowledge.clauses, Normal c ∧ c.body = []
  verified : p.verify (.rule (.predicate head) [.predicate body]) = true
  body : Proves p.knowledge.clauses (θ.apply (Atom.predicate body))
  head : ∀ ζ : Valuation, ¬ Proves p.knowledge.clauses (ζ.apply (θ.apply (Atom.predicate head)))

/-- Two facts that verify a rule with one instance of it overlook another for which only the body has a
fact. -/
theorem Program.overlooks_of_facts {d e b h : Predicate}
    (hnodup : [Clause.fact (.predicate d), .fact (.predicate e)].Nodup)
    (hstorable : ∀ c ∈ [Clause.fact (.predicate d), .fact (.predicate e)],
      c.refusal? = none ∧ Normal c ∧ c.body = [])
    (hnames : d.name ≠ e.name) (hbuiltb : builtin? b = none) (hbuilth : builtin? h = none)
    {η ζ κ : Valuation} (hb : ζ.apply d = η.apply b) (hh : κ.apply e = η.apply h)
    {θ ξ : Valuation} (hbody : ξ.apply d = θ.apply b)
    (hhead : ∀ ζ ω : Valuation, e.args.map ζ.apply ≠ (h.args.map θ.apply).map ω.apply) :
    ∃ p : Program, p.knowledge.clauses = [.fact (.predicate d), .fact (.predicate e)] ∧
      p.Overlooks h b θ := by
  obtain ⟨s, hs, hclauses⟩ := Store.exists_clauses hnodup fun c hc => (hstorable c hc).1
  have hfacts : ∀ c ∈ s.clauses, Normal c ∧ c.body = [] := by
    rw [hclauses]
    exact fun c hc => (hstorable c hc).2
  refine ⟨{ Program.empty with knowledge := s }, hclauses, hs, hfacts, ?_, ?_, fun ω hproves => ?_⟩
  · exact (Program.verify_of_facts hs (fun c hc => (hfacts c hc).1) hnames hclauses hb hh hbuiltb hbuilth
      (show 2 ≤ 10000 by decide)).1
  · exact .clause (c := .fact (.predicate d)) ξ (hclauses ▸ List.mem_cons_self)
      ((builtin?_apply θ b).trans hbuiltb) (congrArg (fun p => some (Atom.predicate p)) hbody) nofun
  · obtain ⟨c, hc, ζ, hroot⟩ := exists_head_of_proves hproves
      ((builtin?_apply ω _).trans ((builtin?_apply θ h).trans hbuilth))
    have hc : c ∈ [Clause.fact (.predicate d), .fact (.predicate e)] := hclauses ▸ hc
    rcases List.mem_cons.1 hc with rfl | hc
    · have hname : d.name = h.name := (Valuation.apply_fact hroot).1
      have hname' : (κ.apply e).name = (η.apply h).name := by rw [hh]
      exact hnames (hname.trans hname'.symm)
    · rw [List.mem_singleton.1 hc] at hroot
      exact hhead ζ ω (Valuation.apply_fact hroot).2

/-- Without steps every rule is verified. -/
theorem Program.verify_of_no_steps {p : Program} (hsteps : p.options.h = 0) {b h : Predicate}
    (hbuilt : builtin? b = none) :
    p.verify (.rule (.predicate h) [.predicate b]) = true := by
  let c := Clause.rule (.predicate h) [.predicate b]
  have hinner : ((c.verificationSearch (.predicate h) 0).next p.knowledge.candidates).1 = none := by
    have hσ : (c.verificationBindings (.predicate h)).Admits .identity :=
      (Substitution.admits_start _ _).addVariables _
    obtain ⟨q, hq, heq, -⟩ :=
      hσ.exists_call (Substitution.knows_of_mem _ List.mem_cons_self) (q := Valuation.identity.apply b) rfl
    have hbuiltq : builtin? q = none := by
      rw [← builtin?_apply .identity q, heq, builtin?_apply, hbuilt]
    exact (congrArg Prod.fst (Search.next_call hq hbuiltq)).trans Search.next_no_steps
  exact (c.succeeds_verification rfl).2 (hsteps ▸ hinner)

/-- A rule can be verified though an instance of its body holds and its head does not: when the body
holds for more than the head, since the negation tries one value for a variable that the body leaves
open; when the head has a variable that the body lacks; and when no step is left to find out. -/
theorem Program.verify_overlooks :
    let x : Term := .var (.named "X")
    let y : Term := .var (.named "Y")
    let a : Term := .symbol "a"
    (∃ (p : Program) (θ : Valuation),
      p.knowledge.clauses = [.fact (.predicate ⟨"q", [x]⟩), .fact (.predicate ⟨"p", [a]⟩)] ∧
        p.Overlooks ⟨"p", [x]⟩ ⟨"q", [x]⟩ θ) ∧
      (∃ (p : Program) (θ : Valuation),
        p.knowledge.clauses =
            [.fact (.predicate ⟨"q", [a]⟩), .fact (.predicate ⟨"p", [a, .symbol "b"]⟩)] ∧
          p.Overlooks ⟨"p", [x, y]⟩ ⟨"q", [x]⟩ θ) ∧
      ∃ (p : Program) (θ : Valuation), p.options.h = 0 ∧
        p.knowledge.clauses = [.fact (.predicate ⟨"q", [a]⟩)] ∧
          p.Overlooks ⟨"p", [x]⟩ ⟨"q", [x]⟩ θ := by
  intro x y a
  let forX (s t : String) := Valuation.ofSymbols fun v => if v = .named "X" then s else t
  refine ⟨?_, ?_, ?_⟩
  · obtain ⟨p, hclauses, hp⟩ := Program.overlooks_of_facts (d := ⟨"q", [x]⟩) (e := ⟨"p", [a]⟩)
      (b := ⟨"q", [x]⟩) (h := ⟨"p", [x]⟩) (by decide) (by decide) (by decide) rfl rfl
      (η := forX "a" "a") (ζ := forX "a" "a") (κ := forX "a" "a") rfl rfl
      (θ := forX "b" "b") (ξ := forX "b" "b") rfl fun ζ ω heq =>
        absurd (show a = .symbol "b" from (List.cons.inj heq).1) (by decide)
    exact ⟨p, _, hclauses, hp⟩
  · obtain ⟨p, hclauses, hp⟩ := Program.overlooks_of_facts (d := ⟨"q", [a]⟩)
      (e := ⟨"p", [a, .symbol "b"]⟩) (b := ⟨"q", [x]⟩) (h := ⟨"p", [x, y]⟩) (by decide) (by decide)
      (by decide) rfl rfl (η := forX "a" "b") (ζ := forX "a" "b") (κ := forX "a" "b") rfl rfl
      (θ := forX "a" "c") (ξ := forX "a" "c") rfl fun ζ ω heq =>
        absurd (show [Term.symbol "b"] = [.symbol "c"] from (List.cons.inj heq).2) (by decide)
    exact ⟨p, _, hclauses, hp⟩
  · obtain ⟨s, hs, hclauses⟩ :
        ∃ s : Store, s.Reachable ∧ s.clauses = [.fact (.predicate ⟨"q", [a]⟩)] :=
      Store.exists_clauses (by decide) (by decide)
    let p : Program := { Program.empty with knowledge := s, options := { Options.default with h := 0 } }
    refine ⟨p, forX "a" "a", rfl, hclauses, hs, ?_, Program.verify_of_no_steps rfl rfl, ?_,
      fun ω hproves => ?_⟩
    · show ∀ c ∈ s.clauses, Normal c ∧ c.body = []
      rw [hclauses]
      decide
    · exact .clause (c := .fact (.predicate ⟨"q", [a]⟩)) (forX "a" "a") (hclauses ▸ List.mem_cons_self)
        rfl rfl nofun
    · exact not_proves_of_fact (f := ⟨"q", [a]⟩) rfl (show "q" ≠ "p" by decide) (hclauses ▸ hproves)

end Horn
