import Horn.Proofs.FrameSearch
import Horn.Proofs.SearchRefinement

/-!
Derivations: what a goal without negations leads to by some choice of clauses, whatever the order in
which a search makes its choices and however many steps it has.  A search that is not cut finds
exactly the bindings that are derived, so its order does not matter for whether it has an answer.
-/

namespace Horn

/-- Bindings to which a goal without negations leads by some choice of clauses. -/
inductive Goal.Derives (lookup : Lookup) : Goal → Substitution → Substitution → Prop where
  | done (σ : Substitution) : Derives lookup [] σ σ
  | compare {a : Atom} {c : Comparison} {todo : Goal} {σ τ ρ : Substitution}
    (compared : σ.apply a = .compare c) (solved : c.solution? σ = some τ)
    (rest : Derives lookup todo τ ρ) : Derives lookup (.atom a :: todo) σ ρ
  | truth {a : Atom} {p : Predicate} {todo : Goal} {σ ρ : Substitution}
    (called : σ.apply a = .predicate p) (holds : builtin? p = some true)
    (rest : Derives lookup todo σ ρ) : Derives lookup (.atom a :: todo) σ ρ
  | clause {a : Atom} {p : Predicate} {c : Clause} {body todo : Goal} {σ τ ρ : Substitution}
    (called : σ.apply a = .predicate p) (ordinary : builtin? p = none) (candidate : c ∈ lookup p)
    (resolved : Interpreter.resolvent? p c σ = some (body, τ))
    (rest : Derives lookup (body ++ todo) τ ρ) : Derives lookup (.atom a :: todo) σ ρ

/-- More clauses allow more derivations. -/
theorem Goal.Derives.mono {lookup more : Lookup} (h : ∀ p, ∀ c ∈ lookup p, c ∈ more p) {g : Goal}
    {σ ρ : Substitution} (hg : Derives lookup g σ ρ) : Derives more g σ ρ := by
  induction hg with
  | done σ => exact .done σ
  | compare compared solved _ ih => exact .compare compared solved ih
  | truth called holds _ ih => exact .truth called holds ih
  | clause called ordinary candidate resolved _ ih =>
    exact .clause called ordinary (h _ _ candidate) resolved ih

namespace Branch

/-- Bindings to which a branch leads; a call may go on with any of the clauses left for it. -/
def Derives (lookup : Lookup) : Branch → Substitution → Prop
  | .goal todo σ, ρ => Goal.Derives lookup todo σ ρ
  | .call p clauses todo σ, ρ => ∃ c ∈ clauses, ∃ body τ,
    Interpreter.resolvent? p c σ = some (body, τ) ∧ Goal.Derives lookup (body ++ todo) τ ρ

/-- No literal of the branch is negated. -/
def IsPositive : Branch → Prop
  | .goal todo _ | .call _ _ todo _ => ∀ l ∈ todo, l.isNegation = false

section

variable {lookup : Lookup} {a : Atom} {p : Predicate} {c : Clause} {left : List Clause}
  {todo : List Literal} {σ ρ : Substitution}

theorem derives_nil : (goal [] σ).Derives lookup ρ ↔ σ = ρ := by
  constructor
  · intro h
    cases h
    rfl
  · rintro rfl
    exact .done σ

theorem derives_compare {d : Comparison} (ha : σ.apply a = .compare d) :
    (goal (.atom a :: todo) σ).Derives lookup ρ ↔
      ∃ τ, d.solution? σ = some τ ∧ (goal todo τ).Derives lookup ρ := by
  constructor
  · intro h
    cases h with
    | compare compared solved rest =>
      rw [ha] at compared
      obtain rfl := Atom.compare.inj compared
      exact ⟨_, solved, rest⟩
    | truth called _ _ =>
      rw [ha] at called
      cases called
    | clause called _ _ _ _ =>
      rw [ha] at called
      cases called
  · exact fun ⟨τ, solved, rest⟩ => .compare ha solved rest

theorem derives_builtin {holds : Bool} (ha : σ.apply a = .predicate p)
    (hp : builtin? p = some holds) :
    (goal (.atom a :: todo) σ).Derives lookup ρ ↔
      holds = true ∧ (goal todo σ).Derives lookup ρ := by
  constructor
  · intro h
    cases h with
    | compare compared _ _ =>
      rw [ha] at compared
      cases compared
    | truth called hq rest =>
      rw [ha] at called
      obtain rfl := Atom.predicate.inj called
      rw [hp] at hq
      exact ⟨Option.some.inj hq, rest⟩
    | clause called hq _ _ _ =>
      rw [ha] at called
      obtain rfl := Atom.predicate.inj called
      rw [hp] at hq
      cases hq
  · rintro ⟨rfl, rest⟩
    exact .truth ha hp rest

theorem derives_call (ha : σ.apply a = .predicate p) (hp : builtin? p = none) :
    (goal (.atom a :: todo) σ).Derives lookup ρ ↔
      (call p (lookup p) todo σ).Derives lookup ρ := by
  constructor
  · intro h
    cases h with
    | compare compared _ _ =>
      rw [ha] at compared
      cases compared
    | truth called hq _ =>
      rw [ha] at called
      obtain rfl := Atom.predicate.inj called
      rw [hp] at hq
      cases hq
    | clause called _ candidate resolved rest =>
      rw [ha] at called
      obtain rfl := Atom.predicate.inj called
      exact ⟨_, candidate, _, _, resolved, rest⟩
  · exact fun ⟨c, candidate, body, τ, resolved, rest⟩ => .clause ha hp candidate resolved rest

theorem derives_call_cons :
    (call p (c :: left) todo σ).Derives lookup ρ ↔
      (∃ b ∈ resolve? p c todo σ, b.Derives lookup ρ) ∨ (call p left todo σ).Derives lookup ρ := by
  have hfirst : (∃ b ∈ resolve? p c todo σ, b.Derives lookup ρ) ↔ ∃ body τ,
      Interpreter.resolvent? p c σ = some (body, τ) ∧ Goal.Derives lookup (body ++ todo) τ ρ := by
    rw [Interpreter.resolve?_eq_resolvent?]
    cases Interpreter.resolvent? p c σ with
    | none => simp
    | some found =>
      obtain ⟨body, τ⟩ := found
      simp [Derives, and_assoc]
  rw [hfirst]
  simp [Derives]

/-- A clause puts only atoms in front of what follows the call. -/
theorem isPositive_of_resolve? {b : Branch} (htodo : ∀ l ∈ todo, l.isNegation = false)
    (hb : b ∈ resolve? p c todo σ) : b.IsPositive := by
  obtain ⟨head, τ, -, -, rfl⟩ := resolve?_eq_some_iff.1 hb
  refine List.forall_mem_append.2 ⟨fun l hl => ?_, htodo⟩
  obtain ⟨a, -, rfl⟩ := List.mem_map.1 hl
  rfl

end
end Branch

/-! ## Searches -/

namespace Search

/-- Bindings to which some branch of the search leads. -/
def Derives (lookup : Lookup) (s : Search) (ρ : Substitution) : Prop :=
  ∃ b ∈ s.branches, b.Derives lookup ρ

def IsPositive (s : Search) : Prop := ∀ b ∈ s.branches, b.IsPositive

/-- A search ends cut off without an answer, or what it derived is the answer that it gives and what
it still derives. -/
def Explores (lookup : Lookup) (s : Search) (r : Option Substitution × Search) : Prop :=
  r.2.IsPositive ∧
    (r.1 = none ∧ r.2.cut = true ∨
      ∀ ρ, s.Derives lookup ρ ↔ r.1 = some ρ ∨ r.2.Derives lookup ρ)

section

variable {lookup : Lookup} {s t : Search} {b : Branch} {rest : List Branch} {ρ : Substitution}

theorem derives_of_branches (h : s.branches = b :: rest) :
    s.Derives lookup ρ ↔ b.Derives lookup ρ ∨ (s.withBranches rest).Derives lookup ρ := by
  rw [Derives, h]
  simp [Derives, withBranches]

theorem Explores.congr {r : Option Substitution × Search} (h : t.Explores lookup r)
    (hst : ∀ ρ, s.Derives lookup ρ ↔ t.Derives lookup ρ) : s.Explores lookup r :=
  ⟨h.1, h.2.imp_right fun hr ρ => (hst ρ).trans (hr ρ)⟩

theorem IsPositive.cons (hs : s.IsPositive) (h : s.branches = b :: rest) :
    b.IsPositive ∧ (s.withBranches rest).IsPositive :=
  forall_branches hs h

/-- A positive branch stays positive without its first literal. -/
theorem IsPositive.replace {l : Literal} {todo : List Literal} {σ : Substitution}
    (hs : s.IsPositive) (h : s.branches = .goal (l :: todo) σ :: rest) {b' : Branch}
    (hb' : (∀ l ∈ todo, l.isNegation = false) → b'.IsPositive) :
    (s.withBranches (b' :: rest)).IsPositive := by
  obtain ⟨hb, hrest⟩ := hs.cons h
  exact List.forall_mem_cons.2 ⟨hb' (List.forall_mem_cons.1 hb).2, hrest⟩

/-- A branch that leads nowhere can be dropped. -/
theorem derives_drop (h : s.branches = b :: rest) (hb : ¬ b.Derives lookup ρ) :
    s.Derives lookup ρ ↔ (s.withBranches rest).Derives lookup ρ := by
  rw [derives_of_branches h]
  exact or_iff_right hb

theorem derives_replace {b' : Branch} (h : s.branches = b :: rest)
    (hb : b.Derives lookup ρ ↔ b'.Derives lookup ρ) :
    s.Derives lookup ρ ↔ (s.withBranches (b' :: rest)).Derives lookup ρ := by
  rw [derives_of_branches h, hb]
  exact (derives_of_branches (s := s.withBranches (b' :: rest)) rfl).symm

theorem derives_tried {p : Predicate} {c : Clause} {left : List Clause} {todo : List Literal}
    {σ : Substitution} (h : s.branches = .call p (c :: left) todo σ :: rest) :
    s.Derives lookup ρ ↔ (s.tried p c left todo σ rest).Derives lookup ρ := by
  have htried : (s.tried p c left todo σ rest).Derives lookup ρ ↔
      (∃ b ∈ Branch.resolve? p c todo σ, b.Derives lookup ρ) ∨
        (Branch.call p left todo σ).Derives lookup ρ ∨ (s.withBranches rest).Derives lookup ρ := by
    simp only [Derives, tried, withBranches, List.mem_append, Option.mem_toList, List.mem_cons,
      or_and_right, exists_or, exists_eq_left, Option.mem_def]
  rw [htried, derives_of_branches h, Branch.derives_call_cons, or_assoc]

theorem next_explores (lookup : Lookup) (s : Search) (hs : s.IsPositive) :
    s.Explores lookup (s.next lookup) := by
  fun_induction next lookup s with
  | case1 s h =>
    refine ⟨hs, .inr fun ρ => ?_⟩
    simp [Derives, h]
  | case2 s p todo σ rest h hb ih =>
    refine (ih (hs.cons h).2).congr fun ρ => derives_drop h ?_
    rintro ⟨c, hc, -⟩
    cases hc
  | case3 s p c left todo σ rest h h0 => exact ⟨List.forall_mem_nil _, .inl ⟨rfl, rfl⟩⟩
  | case4 s p c left todo σ rest h h0 hb ih =>
    obtain ⟨hcall, hrest⟩ := hs.cons h
    refine (ih ?_).congr fun ρ => derives_tried h
    refine List.forall_mem_append.2 ⟨fun b hb => ?_, List.forall_mem_cons.2 ⟨hcall, hrest⟩⟩
    exact Branch.isPositive_of_resolve? hcall (Option.mem_toList.1 hb)
  | case5 s σ rest h =>
    refine ⟨(hs.cons h).2, .inr fun ρ => ?_⟩
    rw [derives_of_branches h, Branch.derives_nil, Option.some.injEq]
  | case6 s a todo σ rest h c hc hnone hb ih =>
    refine (ih (hs.cons h).2).congr fun ρ => derives_drop h ?_
    rw [Branch.derives_compare hc, hnone]
    simp
  | case7 s a todo σ rest h c hc τ hτ hb ih =>
    refine (ih (hs.replace h id)).congr fun ρ => derives_replace h ?_
    rw [Branch.derives_compare hc, hτ]
    simp
  | case8 s a todo σ rest h p hp hbuilt hb ih =>
    refine (ih (hs.replace h id)).congr fun ρ => derives_replace h ?_
    rw [Branch.derives_builtin hp hbuilt]
    exact and_iff_right rfl
  | case9 s a todo σ rest h p hp hbuilt hb ih =>
    refine (ih (hs.cons h).2).congr fun ρ => derives_drop h ?_
    rw [Branch.derives_builtin hp hbuilt]
    simp
  | case10 s a todo σ rest h p hp hbuilt hb ih =>
    exact (ih (hs.replace h id)).congr fun ρ => derives_replace h (Branch.derives_call hp hbuilt)
  | case11 s g todo σ rest h => cases (List.forall_mem_cons.1 (hs.cons h).1).1

/-- All the answers of a search are derived, and when it is not cut all that is derived is found. -/
theorem rest_derives (lookup : Lookup) (s : Search) (hs : s.IsPositive) :
    (∀ ρ ∈ (s.rest lookup).1, s.Derives lookup ρ) ∧
      ((s.rest lookup).2.cut = false → ∀ ρ, s.Derives lookup ρ → ρ ∈ (s.rest lookup).1) := by
  fun_induction rest lookup s with
  | case1 s t h =>
    have hnext := next_explores lookup s hs
    rw [h] at hnext
    obtain ⟨-, ⟨-, hcut⟩ | hiff⟩ := hnext
    · exact ⟨List.forall_mem_nil _, fun hnot => by rw [hcut] at hnot; cases hnot⟩
    refine ⟨List.forall_mem_nil _, fun _ ρ hρ => ?_⟩
    rcases (hiff ρ).1 hρ with hσ | ⟨b, hb, -⟩
    · cases hσ
    · rw [Interpreter.Search.branches_of_next_none h] at hb
      cases hb
  | case2 s σ t h hb more ended hrest ih =>
    have hnext := next_explores lookup s hs
    rw [h] at hnext
    obtain ⟨ht, ⟨hnone, -⟩ | hiff⟩ := hnext
    · cases hnone
    rw [hrest] at ih
    obtain ⟨hsound, hall⟩ := ih ht
    refine ⟨List.forall_mem_cons.2 ⟨(hiff σ).2 (.inl rfl), fun ρ hρ => ?_⟩, fun hcut ρ hρ => ?_⟩
    · exact (hiff ρ).2 (.inr (hsound ρ hρ))
    · rcases (hiff ρ).1 hρ with hσ | hρ
      · exact List.mem_cons.2 (.inl (Option.some.inj hσ).symm)
      · exact List.mem_cons_of_mem _ (hall hcut ρ hρ)

end
end Search

/-! ## Goals -/

namespace Goal

variable {g : Goal} {lookup : Lookup} {steps : Nat}

theorem isPositive_start (steps : Nat) (hg : ∀ l ∈ g, l.isNegation = false) :
    (Search.start g Substitution.empty steps).IsPositive :=
  List.forall_mem_singleton.2 hg

theorem start_derives {ρ : Substitution} :
    (Search.start g Substitution.empty steps).Derives lookup ρ ↔
      g.Derives lookup (Substitution.empty.addVariables g) ρ := by
  simp [Search.Derives, Search.start, Branch.Derives]

/-- A goal that succeeds is derived, and when the search for it is not cut it succeeds exactly when it
is derived. -/
theorem succeeds_derives (hg : ∀ l ∈ g, l.isNegation = false) :
    (g.succeeds lookup steps = true → ∃ ρ, g.Derives lookup (Substitution.empty.addVariables g) ρ) ∧
      (((Search.start g Substitution.empty steps).next lookup).2.cut = false →
        (∃ ρ, g.Derives lookup (Substitution.empty.addVariables g) ρ) →
          g.succeeds lookup steps = true) := by
  have hnext := Search.next_explores lookup _ (isPositive_start steps hg)
  rw [succeeds_eq]
  cases h : (Search.start g Substitution.empty steps).next lookup with
  | mk found t =>
    rw [h] at hnext
    obtain ⟨-, ⟨rfl, hcut⟩ | hiff⟩ := hnext
    · exact ⟨nofun, fun hnot => by rw [hcut] at hnot; cases hnot⟩
    cases found with
    | some σ => exact ⟨fun _ => ⟨σ, start_derives.1 ((hiff σ).2 (.inl rfl))⟩, fun _ _ => rfl⟩
    | none =>
      refine ⟨nofun, fun _ ⟨ρ, hρ⟩ => ?_⟩
      rcases (hiff ρ).1 (start_derives.2 hρ) with hσ | ⟨b, hb, -⟩
      · cases hσ
      · rw [Interpreter.Search.branches_of_next_none h] at hb
        cases hb

end Goal
end Horn
