import Horn.Proofs.Completeness
import Horn.Proofs.Refinement
import Mathlib.Data.List.Perm.Subperm

/-!
When an example follows from clauses.  A test that is not cut succeeds exactly when the head of the
example is derived, so its outcome depends on which clauses are stored and not on the layers that
hold them.
-/

namespace Horn

namespace LayeredStore

variable {s t : LayeredStore} {c : Clause}

/-- No more clauses are found than there are. -/
theorem length_candidates_le {clauses : List Clause} (h : ∀ c ∈ s.clauses, c ∈ clauses)
    (p : Predicate) : (s.candidates p).length ≤ clauses.length :=
  (List.subperm_of_subset (nodup_eraseDups _) fun c hc =>
    h c (s.knowledge.within p c hc)).length_le

theorem IsFiled.candidates_mono (hs : s.IsFiled) (ht : t.IsFiled)
    (h : ∀ c ∈ s.clauses, c ∈ t.clauses) (p : Predicate) :
    ∀ c ∈ s.candidates p, c ∈ t.candidates p := by
  intro c hc
  obtain ⟨hc, hshape⟩ := hs.mem_candidates.1 hc
  exact ht.mem_candidates.2 ⟨h c hc, hshape⟩

theorem mem_clauses_under {own : Ownership} {first : Store} :
    c ∈ (s.under own first).clauses ↔ c ∈ first.clauses ∨ c ∈ s.clauses := by
  rw [clauses, mem_union, clauses, mem_union]
  simp [under]

theorem IsFiled.under (h : s.IsFiled) (own : Ownership) {first : Store} (hfirst : first.IsFiled) :
    (s.under own first).IsFiled := by
  refine List.forall_mem_cons.2 ⟨hfirst, fun l hl => ?_⟩
  obtain ⟨old, hold, rfl⟩ := List.mem_map.1 hl
  exact h old hold

end LayeredStore

/-! ## Tests -/

namespace Clause

variable {e : Clause} {lookup more : Lookup} {steps : Nat}

/-- Some choice of clauses leads from the head to an answer. -/
def IsDerived (e : Clause) (lookup : Lookup) : Prop :=
  ∃ g, e.headGoal = some g ∧ ∃ ρ, g.Derives lookup (Substitution.empty.addVariables g) ρ

/-- The search for the head finds an answer or goes to the end, so more steps would not help. -/
def IsDecided (e : Clause) (lookup : Lookup) (steps : Nat) : Prop :=
  ∀ g, e.headGoal = some g → g.succeeds lookup steps = true ∨
    ((Search.start g Substitution.empty steps).next lookup).2.cut = false

theorem isPositive_headGoal {g : Goal} (h : e.headGoal = some g) : ∀ l ∈ g, l.isNegation = false := by
  obtain ⟨a, -, rfl⟩ := Option.map_eq_some_iff.1 h
  exact List.forall_mem_singleton.2 rfl

theorem IsDerived.exists_head (h : e.IsDerived lookup) : ∃ a, e.head = some a := by
  obtain ⟨g, hg, -⟩ := h
  obtain ⟨a, ha, -⟩ := Option.map_eq_some_iff.1 hg
  exact ⟨a, ha⟩

theorem isDerived_of_isCovered (h : e.isCovered lookup steps = true) : e.IsDerived lookup := by
  obtain ⟨g, hg, hfound⟩ := (Option.any_eq_true _ _).1 h
  exact ⟨g, hg, (Goal.succeeds_derives (isPositive_headGoal hg)).1 hfound⟩

theorem IsDecided.isCovered_iff (hd : e.IsDecided lookup steps) :
    e.isCovered lookup steps = true ↔ e.IsDerived lookup := by
  refine ⟨isDerived_of_isCovered, fun ⟨g, hg, hderived⟩ => ?_⟩
  refine (Option.any_eq_true _ _).2 ⟨g, hg, ?_⟩
  rcases hd g hg with hfound | hcut
  · exact hfound
  · exact (Goal.succeeds_derives (isPositive_headGoal hg)).2 hcut hderived

theorem IsDerived.mono (h : ∀ p, ∀ c ∈ lookup p, c ∈ more p) (he : e.IsDerived lookup) :
    e.IsDerived more := by
  obtain ⟨g, hg, ρ, hρ⟩ := he
  exact ⟨g, hg, ρ, hρ.mono h⟩

end Clause

namespace HypothesisSpace

variable (s : HypothesisSpace)

/-- What a clause is tested with: the knowledge below a store of the clause alone. -/
def trial? (c : Clause) : Option LayeredStore :=
  (Store.ofClauses [c]).toOption.map (s.knowledge.under .owned)

/-- Whether an example follows from the knowledge and a clause. -/
def accepts (c e : Clause) : Bool :=
  (s.trial? c).any fun k => e.isCovered k.candidates s.steps

/-- The test of an example with a clause is not cut. -/
def Decides (c e : Clause) : Prop :=
  ∀ k, s.trial? c = some k → e.IsDecided k.candidates s.steps

theorem covers_eq (c : Clause) (examples : List Clause) (place : Nat) :
    s.covers c examples place = examples[place]?.any (s.accepts c) := by
  unfold covers accepts trial?
  cases Store.ofClauses [c] with
  | error why => simp [Except.toOption]
  | ok store => rfl

/-- Over all the places as many examples are covered as are accepted. -/
theorem length_covered (c : Clause) (examples : List Clause) :
    (s.covered c examples (List.range examples.length)).length = examples.countP (s.accepts c) := by
  rw [covered_eq_filter, List.filter_congr fun i _ => s.covers_eq c examples i]
  induction examples using List.reverseRecOn with
  | nil => rfl
  | append_singleton examples e ih =>
    have hbefore : ∀ i ∈ List.range examples.length,
        ((examples ++ [e])[i]?.any (s.accepts c)) = examples[i]?.any (s.accepts c) := fun i hi => by
      rw [List.getElem?_append_left (List.mem_range.1 hi)]
    have hlast : (examples ++ [e])[examples.length]? = some e := by simp
    rw [List.length_append, List.length_singleton, List.range_succ, List.filter_append,
      List.length_append, List.filter_congr hbefore, ih, List.countP_append, List.countP_singleton,
      List.filter_singleton, hlast, Option.any_some]
    cases s.accepts c e <;> rfl

variable {s} {c e : Clause}

/-- A test is made with the clauses of the knowledge and the one tested. -/
theorem trial?_spec {k : LayeredStore} (h : s.trial? c = some k) (hs : s.knowledge.IsFiled) :
    k.IsFiled ∧ ∀ d, d ∈ k.clauses ↔ d = c ∨ d ∈ s.knowledge.clauses := by
  obtain ⟨store, hstore, rfl⟩ := Option.map_eq_some_iff.1 h
  rw [Store.ofClauses_singleton] at hstore
  cases hadd : Store.empty.add c with
  | error why =>
    rw [hadd] at hstore
    cases hstore
  | ok added =>
    obtain ⟨isNew, t⟩ := added
    rw [hadd] at hstore
    obtain rfl : t = store := Option.some.inj hstore
    refine ⟨hs.under .owned (Store.isFiled_empty.add hadd), fun d => ?_⟩
    rw [LayeredStore.mem_clauses_under, Store.isFiled_empty.mem_clauses_add hadd, Store.clauses_empty]
    exact or_congr_left (or_iff_left List.not_mem_nil)

/-- Clauses that a store takes can be tested. -/
theorem trial?_isSome : (s.trial? c).isSome = true ↔
    c.headPredicate.isSome = true ∧ hasPlaceholders c = false := by
  rw [trial?, Option.isSome_map, Store.ofClauses_singleton]
  cases hadd : Store.empty.add c with
  | ok added =>
    obtain ⟨head, hhead, hplain, -⟩ := Store.add_cases (t := added.2) hadd
    simp [Except.map, Except.toOption, hhead, hplain]
  | error why =>
    constructor
    · intro h
      cases h
    · rintro ⟨hhead, hplain⟩
      obtain ⟨head, hhead⟩ := Option.isSome_iff_exists.1 hhead
      rw [Store.add_of_not_contains hhead hplain (Store.contains_empty c)] at hadd
      cases hadd

end HypothesisSpace
end Horn
