import Horn.Proofs.Reachable
import Horn.Proofs.Soundness

/-!
The bindings of a search are made by the operations on substitutions, whatever the goal and the clauses
are.  So they have all that these operations keep, list normal form among it.
-/

namespace Horn

namespace Comparison

/-- A comparison that holds leaves the bindings as they are or unifies two terms: its sides, or the
left one and the value of the right one. -/
theorem solution?_cases {c : Comparison} {σ τ : Substitution} (h : c.solution? σ = some τ) :
    σ = τ ∨ ∃ target s t, σ.unify s t = .ok τ ∧ c.left.asTerm = some target ∧
      (s = target ∧ c.right.asTerm = some t ∨ s = σ.apply target ∧ ∃ a : Number, t = a.toTerm) := by
  have hkept : ∀ {p : Prop} [Decidable p], (if p then some σ else none) = some τ → σ = τ := by
    intro p _ h
    exact Option.some.inj (Option.ite_none_right_eq_some.1 h).2
  have hunify : ∀ s t, (σ.unify s t).toOption = some τ → σ.unify s t = .ok τ := by
    intro s t h
    cases hu : σ.unify s t with
    | error why => simp [hu, Except.toOption] at h
    | ok ρ => simpa [hu, Except.toOption] using h
  unfold solution? at h
  split at h
  · exact .inl (hkept h)
  · obtain ⟨target, htarget, h⟩ := Option.bind_eq_some_iff.1 h
    obtain ⟨value, -, h⟩ := Option.bind_eq_some_iff.1 h
    split at h
    · exact .inl (hkept h)
    · exact .inr ⟨target, _, _, hunify _ _ h, htarget, .inr ⟨rfl, value, rfl⟩⟩
  · obtain ⟨s, hs, h⟩ := Option.bind_eq_some_iff.1 h
    obtain ⟨t, ht, h⟩ := Option.bind_eq_some_iff.1 h
    unfold structural? at h
    split at h
    · exact .inr ⟨s, s, t, hunify s t h, hs, .inl ⟨rfl, ht⟩⟩
    all_goals exact .inl (hkept h)

theorem reachable_of_solution? {c : Comparison} {σ τ : Substitution} (hσ : σ.Reachable)
    (h : c.solution? σ = some τ) : τ.Reachable := by
  obtain rfl | ⟨-, s, t, hunify, -⟩ := solution?_cases h
  · exact hσ
  · exact .unify hσ hunify

end Comparison

/-- Resolving a call renames a clause and unifies two predicates. -/
theorem Branch.reachable_of_resolve? {p : Predicate} {c : Clause} {todo : List Literal}
    {σ : Substitution} {b : Branch} (hσ : σ.Reachable) (h : resolve? p c todo σ = some b) :
    b.bindings.Reachable := by
  obtain ⟨head, τ, -, hunify, rfl⟩ := resolve?_eq_some_iff.1 h
  exact .unifyAtoms (a := .predicate p) (b := .predicate head) (.rename [] c hσ) hunify

namespace Search

/-- All branches have bindings that the operations make. -/
def IsReachable (s : Search) : Prop := ∀ b ∈ s.branches, b.bindings.Reachable

theorem kept_reachable (lookup : Lookup) :
    Kept lookup (fun b => b.bindings.Reachable) Substitution.Reachable where
  answer := id
  skip := id
  resolve := Branch.reachable_of_resolve?
  compare h _ hτ := Comparison.reachable_of_solution? h hτ
  builtin h _ _ := h
  call h _ _ := h
  negation := id

theorem next_reachable (lookup : Lookup) (s : Search) (hs : s.IsReachable) :
    (∀ σ, (s.next lookup).1 = some σ → σ.Reachable) ∧ (s.next lookup).2.IsReachable :=
  (kept_reachable lookup).next s hs

end Search

/-- Answers are made by the operations from the bindings that the goal is asked with. -/
theorem Goal.reachable_of_mem_answersFrom {g : Goal} {lookup : Lookup} {steps : Nat}
    {σ : Substitution} (hσ : σ.Reachable) {most : Option Nat} {τ : Substitution}
    (h : τ ∈ (g.answersFrom lookup steps σ most).1) : τ.Reachable := by
  have hstart : (Search.start g σ steps).IsReachable :=
    List.forall_mem_singleton.2 (.addVariables g hσ)
  unfold answersFrom at h
  cases most with
  | none =>
    obtain ⟨ρ, hρ, rfl⟩ := List.mem_map.1 h
    exact .restrict _ (Search.forall_rest (Search.next_reachable lookup) hstart ρ hρ)
  | some n =>
    obtain ⟨ρ, hρ, rfl⟩ := List.mem_map.1 h
    exact .restrict _ (Search.forall_take (Search.next_reachable lookup) n hstart ρ hρ)

end Horn
