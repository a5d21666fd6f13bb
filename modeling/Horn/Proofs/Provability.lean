import Horn.Proofs.Valuation
import Horn.Resolution

/-!
What stored clauses prove, without regard to how a search goes about it.  An atom is proved by a
finite tree: its root is an instance of a clause's head and its branches prove the instances of the
body atoms.
-/

namespace Horn

/-- Clauses to resolve with.  What is looked up for a predicate is among them. -/
structure Knowledge where
  lookup : Lookup
  clauses : List Clause
  within : ∀ p, ∀ c ∈ lookup p, c ∈ clauses

/-- The clauses of a store are what its numbers stand for. -/
theorem Store.clauses_eq (s : Store) : s.clauses = s.clauseOf.toList.map Prod.snd := by
  have h : s.clauses = s.clauseOf.foldr (fun _ c cs => c :: cs) [] := rfl
  rw [h, Std.TreeMap.foldr_eq_foldr_toList]
  generalize s.clauseOf.toList = pairs
  induction pairs with
  | nil => rfl
  | cons pair pairs ih => rw [List.foldr_cons, ih, List.map_cons]

theorem Store.mem_clauses_of_mem_candidates {s : Store} {p : Predicate} {c : Clause}
    (h : c ∈ s.candidates p) : c ∈ s.clauses := by
  unfold Store.candidates at h
  split at h
  · exact absurd h List.not_mem_nil
  · obtain ⟨id, _, hid⟩ := List.mem_filterMap.1 h
    rw [Store.clauses_eq]
    exact List.mem_map.2 ⟨(id, c), Std.TreeMap.mem_toList_iff_getElem?_eq_some.2 hid, rfl⟩

theorem LayeredStore.mem_clauses_of_mem_candidates {s : LayeredStore} {p : Predicate} {c : Clause}
    (h : c ∈ s.candidates p) : c ∈ s.clauses := by
  have h : c ∈ (s.layers.flatMap fun l => l.store.candidates p).eraseDups := h
  show c ∈ (s.layers.flatMap fun l => l.store.clauses).eraseDups
  rw [List.mem_eraseDups, List.mem_flatMap] at h ⊢
  obtain ⟨l, hl, hc⟩ := h
  exact ⟨l, hl, Store.mem_clauses_of_mem_candidates hc⟩

/-- The clauses of a store. -/
def Store.knowledge (s : Store) : Knowledge :=
  ⟨s.candidates, s.clauses, fun _ _ => Store.mem_clauses_of_mem_candidates⟩

/-- The clauses of all layers. -/
def LayeredStore.knowledge (s : LayeredStore) : Knowledge :=
  ⟨s.candidates, s.clauses, fun _ _ => LayeredStore.mem_clauses_of_mem_candidates⟩

/-- Clauses that are all tried for every predicate. -/
def Knowledge.ofClauses (clauses : List Clause) : Knowledge :=
  ⟨fun _ => clauses, clauses, fun _ _ h => h⟩

/-! ## Plain atoms -/

/-- Predicates, and `=` between terms. -/
def Atom.IsPlain : Atom → Prop
  | .predicate _ => True
  | .compare c => ∃ s t, c = ⟨.unify, .term s, .term t⟩

/-- A clause whose body atoms are plain. -/
def Clause.IsPlain (c : Clause) : Prop := ∀ a ∈ c.body, a.IsPlain

theorem Atom.IsPlain.instantiate {a : Atom} (h : a.IsPlain) (θ : Var → Term) :
    (instantiate θ a).IsPlain := by
  cases a with
  | predicate p => trivial
  | compare c =>
    obtain ⟨s, t, rfl⟩ := h
    exact ⟨Horn.instantiate θ s, Horn.instantiate θ t, rfl⟩

/-! ## Proofs -/

/-- What has a finite proof from instances of the clauses.  The goals that always and never hold
are not looked up, and `=` asks for equal sides. -/
inductive Proves (clauses : List Clause) : Atom → Prop where
  | truth : Proves clauses (.predicate ⟨"true", []⟩)
  | same (t : Term) : Proves clauses (.compare ⟨.unify, .term t, .term t⟩)
  | clause {c : Clause} (θ : Valuation) {p : Predicate} (stored : c ∈ clauses)
    (resolved : builtin? p = none) (head : (θ.apply c).head = some (.predicate p))
    (body : ∀ a ∈ (θ.apply c).body, Proves clauses a) : Proves clauses (.predicate p)

section

variable {clauses : List Clause}

/-- More clauses prove more. -/
theorem Proves.mono {more : List Clause} (h : ∀ c ∈ clauses, c ∈ more) {a : Atom}
    (ha : Proves clauses a) : Proves more a := by
  induction ha with
  | truth => exact .truth
  | same t => exact .same t
  | clause θ stored resolved head _ ih => exact .clause θ (h _ stored) resolved head ih

theorem builtin?_eq_true {p : Predicate} : builtin? p = some true ↔ p = ⟨"true", []⟩ := by
  obtain ⟨name, args⟩ := p
  unfold builtin?
  constructor
  · intro h
    split at h
    · rename_i hargs
      split at h
      · rename_i hname
        rw [Predicate.mk.injEq]
        exact ⟨hname, by simpa using hargs⟩
      · split at h <;> cases h
    · cases h
  · intro h
    obtain ⟨rfl, rfl⟩ := Predicate.mk.inj h
    rfl

/-- Whether a goal always or never holds does not depend on its variables. -/
theorem builtin?_apply (θ : Valuation) (p : Predicate) : builtin? (θ.apply p) = builtin? p := by
  have hargs : (p.args.map θ.apply).isEmpty = p.args.isEmpty := List.isEmpty_map
  show builtin? ⟨p.name, p.args.map θ.apply⟩ = builtin? p
  unfold builtin?
  rw [hargs]

theorem not_proves_of_builtin {p : Predicate} (h : builtin? p = some false) :
    ¬ Proves clauses (.predicate p) := by
  intro hp
  cases hp with
  | truth => cases h
  | clause θ stored resolved head body =>
    rw [resolved] at h
    cases h

/-- What is looked up is proved by an instance of a clause. -/
theorem Proves.exists_clause {p : Predicate} (h : Proves clauses (.predicate p))
    (hp : builtin? p = none) : ∃ c ∈ clauses, ∃ θ : Valuation,
      (θ.apply c).head = some (.predicate p) ∧ ∀ a ∈ (θ.apply c).body, Proves clauses a := by
  cases h with
  | truth => cases hp
  | clause θ stored _ head body => exact ⟨_, stored, θ, head, body⟩

theorem proves_unify_iff {s t : Term} :
    Proves clauses (.compare ⟨.unify, .term s, .term t⟩) ↔ s = t := by
  constructor
  · intro h
    cases h
    rfl
  · rintro rfl
    exact .same s

end
end Horn
