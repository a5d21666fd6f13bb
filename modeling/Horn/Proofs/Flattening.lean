import Horn.Proofs.Coverage
import Horn.Proofs.StoreRefinement

/-!
Layers flattened into one store.  The clauses of all layers, each at its first place, make a store when
they are added in this order.  Leaving out repetitions before a call is matched, as that store does, or
after, as the layers do, makes no difference, so both offer the same candidates for every call and a
search cannot tell them apart.
-/

namespace Horn

/-- Whether an element is kept does not depend on which of its equals come before it. -/
theorem eraseDups_filter {α : Type} [BEq α] [LawfulBEq α] (p : α → Bool) (as : List α) :
    (as.filter p).eraseDups = as.eraseDups.filter p := by
  match as with
  | [] => rfl
  | a :: as =>
    have hcomm : (as.filter p).filter (fun b => !b == a) = (as.filter fun b => !b == a).filter p := by
      rw [List.filter_filter, List.filter_filter]
      exact List.filter_congr fun b _ => Bool.and_comm _ _
    have ih := eraseDups_filter p (as.filter fun b => !b == a)
    rw [List.eraseDups_cons]
    by_cases ha : p a = true
    · rw [List.filter_cons_of_pos ha, List.filter_cons_of_pos ha, List.eraseDups_cons, hcomm, ih]
    · -- none of the elements equal to the first one is kept
      have hsame : (as.filter fun b => !b == a).filter p = as.filter p := by
        rw [← hcomm]
        refine List.filter_eq_self.2 fun b hb => ?_
        have hne : b ≠ a := fun heq => ha (heq ▸ (List.mem_filter.1 hb).2)
        simp [hne]
      rw [List.filter_cons_of_neg ha, List.filter_cons_of_neg ha, ← ih, hsame]
termination_by as.length
decreasing_by exact Nat.lt_succ_of_le (List.length_filter_le _ _)

namespace LayeredStore

variable {s : LayeredStore}

theorem nodup_clauses (s : LayeredStore) : s.clauses.Nodup := nodup_eraseDups _

/-- The candidates of all layers can be read off the clauses of all layers. -/
theorem IsFiled.candidates_eq (h : s.IsFiled) (q : Predicate) :
    s.candidates q = s.clauses.filter fun c => c.headPredicate.any (·.agrees q) := by
  have hlayers : (s.layers.flatMap fun l => l.store.candidates q) =
      (s.layers.flatMap fun l => l.store.clauses).filter fun c => c.headPredicate.any (·.agrees q) := by
    rw [List.filter_flatMap]
    exact List.flatMap_congr fun l hl => (h l hl).candidates_eq q
  show (s.layers.flatMap fun l => l.store.candidates q).eraseDups = _
  rw [hlayers, eraseDups_filter]
  rfl

theorem not_refused (hs : ∀ l ∈ s.layers, l.store.Reachable) : ∀ c ∈ s.clauses, c.refusal? = none := by
  intro c hc
  obtain ⟨l, hl, hc⟩ := mem_union.1 hc
  exact Store.refusal?_eq_none.2 ((hs l hl).plain c hc)

/-- A store with all clauses of the layers answers every query as the layers do. -/
theorem exists_flattened (hs : ∀ l ∈ s.layers, l.store.Reachable) :
    ∃ t, Store.ofClauses s.clauses = .ok t ∧ t.clauses = s.clauses ∧
      (∀ q, t.candidates q = s.candidates q) ∧
      ∀ (g : Goal) (steps : Nat) (σ : Substitution) (wanted : Option Nat),
        g.answersFrom t.candidates steps σ wanted = g.answersFrom s.candidates steps σ wanted := by
  obtain ⟨t, ht, hreplayed, hclauses⟩ := Store.exists_replayed s.nodup_clauses (not_refused hs)
  have hfiled : s.IsFiled := fun l hl => (hs l hl).isFiled
  have hcandidates : t.candidates = s.candidates := by
    funext q
    rw [ht.isFiled.candidates_eq, hfiled.candidates_eq, hclauses]
  refine ⟨t, hclauses ▸ hreplayed, hclauses, congrFun hcandidates, fun g steps σ wanted => ?_⟩
  rw [hcandidates]

/-- The fact `p(name)`. -/
def factOf (name : String) : Clause := .fact (.predicate ⟨"p", [.symbol name]⟩)

/-- The fact `p(a)` is in both layers and `p(b)` in the second; the store has `p(a)` once.  Of three
steps two are spent on the answers to `p(X)`. -/
theorem exists_flattened_shared :
    let g : Goal := [.atom (.predicate ⟨"p", [.var (.named "X")]⟩)]
    ∃ (s : LayeredStore) (t : Store),
      s.layers.map (·.store.clauses) = [[factOf "a"], [factOf "a", factOf "b"]] ∧
      Store.ofClauses [factOf "a", factOf "b"] = .ok t ∧
      (∀ (g : Goal) (steps : Nat) (σ : Substitution) (wanted : Option Nat),
        g.answersFrom t.candidates steps σ wanted = g.answersFrom s.candidates steps σ wanted) ∧
      ∃ σ τ : Substitution,
        g.answersFrom s.candidates 3 Substitution.empty none = ([σ, τ], ⟨[], 1, false⟩) ∧
        σ.apply (Term.var (.named "X")) = .symbol "a" ∧
        τ.apply (Term.var (.named "X")) = .symbol "b" := by
  intro g
  obtain ⟨first, hfirst, hfirsts⟩ : ∃ s, Store.Reachable s ∧ s.clauses = [factOf "a"] :=
    Store.exists_clauses (by decide) (by decide)
  obtain ⟨second, hsecond, hseconds⟩ :
      ∃ s, Store.Reachable s ∧ s.clauses = [factOf "a", factOf "b"] :=
    Store.exists_clauses (by decide) (by decide)
  let s : LayeredStore := ofLayers [(.owned, first), (.shared, second)]
  have hs : ∀ l ∈ s.layers, l.store.Reachable :=
    List.forall_mem_cons.2 ⟨hfirst, List.forall_mem_singleton.2 hsecond⟩
  have hclauses : s.clauses = [factOf "a", factOf "b"] := by
    show (first.clauses ++ (second.clauses ++ [])).eraseDups = _
    rw [hfirsts, hseconds]
    decide
  obtain ⟨t, ht, -, -, hanswers⟩ := exists_flattened hs
  rw [hclauses] at ht
  let p : Predicate := ⟨"p", [.var (.named "X")]⟩
  have hcandidates : s.candidates p = [factOf "a", factOf "b"] := by
    rw [IsFiled.candidates_eq fun l hl => (hs l hl).isFiled, hclauses]
    rfl
  obtain ⟨σ, hσ, hσvalue⟩ := Branch.exists_resolve?_symbol "a" g
  obtain ⟨τ, hτ, hτvalue⟩ := Branch.exists_resolve?_symbol "b" g
  have hfacts : ∀ c ∈ [factOf "a", factOf "b"], Branch.resolve? p c []
      (Substitution.empty.addVariables g) = some (.goal [] (if c = factOf "a" then σ else τ)) :=
    List.forall_mem_cons.2 ⟨hσ, List.forall_mem_singleton.2 hτ⟩
  have hrest : Search.rest s.candidates (Search.start g Substitution.empty 3) =
      ([σ, τ], ⟨[], 1, false⟩) := by
    have hcall : Search.next s.candidates (Search.start g Substitution.empty 3) =
        Search.next s.candidates ⟨[.call p [factOf "a", factOf "b"] []
          (Substitution.empty.addVariables g)], 3, false⟩ := by
      rw [← hcandidates]
      exact Search.next_call rfl rfl
    exact (Search.rest_congr hcall).trans (Search.rest_of_facts hfacts)
  have hrun : g.answersFrom s.candidates 3 Substitution.empty none =
      (g.restricted [σ, τ], ⟨[], 1, false⟩) := by
    show (g.restricted _, _) = _
    rw [hrest]
  have hx : .named "X" ∈ «variables» g := by decide
  exact ⟨s, t, congrArg₂ (fun x y => [x, y]) hfirsts hseconds, ht, hanswers, _, _, hrun,
    (Substitution.valueOf_restrict hx).trans hσvalue,
    (Substitution.valueOf_restrict hx).trans hτvalue⟩

end LayeredStore
end Horn
