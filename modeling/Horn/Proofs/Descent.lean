import Horn.Proofs.Coverage
import Mathlib.Algebra.Group.Action.Defs
import Mathlib.Algebra.Order.BigOperators.Group.List
import Mathlib.Algebra.Order.Ring.Nat

/-!
Programs whose calls descend.  Give every predicate a level, and let the levels in a body together stay
below the level of the head.  Then a goal is searched in a number of steps that its levels bound: each
call replaces one level by lower ones, once for every clause that is found.  A search with so many steps
is not cut, however its goals are nested in negations.
-/

namespace Horn

namespace Literal

mutual
/-- The levels of the predicates in a literal, taken together. -/
def load (level : String → Nat) : Literal → Nat
  | .atom (.predicate p) => level p.name
  | .atom (.compare _) => 0
  | .not g => loadAll level g

def loadAll (level : String → Nat) : List Literal → Nat
  | [] => 0
  | l :: rest => load level l + loadAll level rest
end

variable {level : String → Nat}

@[simp] theorem loadAll_nil : loadAll level [] = 0 := by rw [loadAll]

@[simp] theorem loadAll_cons {l : Literal} {rest : List Literal} :
    loadAll level (l :: rest) = load level l + loadAll level rest := by rw [loadAll]

@[simp] theorem loadAll_append {ls ms : List Literal} :
    loadAll level (ls ++ ms) = loadAll level ls + loadAll level ms := by
  induction ls with
  | nil => simp
  | cons l ls ih => simp [ih, Nat.add_assoc]

/-- A substitution replaces terms, so levels stay as they are. -/
theorem load_apply {a : Atom} {p : Predicate} {σ : Substitution} (h : σ.apply a = .predicate p) :
    load level (.atom a) = level p.name := by
  cases a with
  | compare c => cases h
  | predicate q =>
    obtain rfl := Atom.predicate.inj h
    rw [load]
    rfl

theorem loadAll_rename (σ : Substitution) (c : Clause) :
    loadAll level (σ.rename [] c).1.bodyGoal = loadAll level c.bodyGoal := by
  have hatom (f : Term → Option Term) (a : Atom) :
      load level (.atom (HasTerms.rewrite f a)) = load level (.atom a) := by
    cases a with
    | compare c => rw [load]; exact load.eq_2 level _
    | predicate q => rw [load]; exact load.eq_1 level _
  show loadAll level ((c.body.map (HasTerms.rewrite _)).map Literal.atom) =
    loadAll level (c.body.map Literal.atom)
  induction c.body with
  | nil => rfl
  | cons a body ih =>
    rw [List.map_cons, List.map_cons, List.map_cons, loadAll_cons, loadAll_cons, ih, hatom]

end Literal

/-- The clauses found for a call are at most so many, and the levels in the body of each stay below that
of the call. -/
structure Descends (lookup : Lookup) (level : String → Nat) (most : Nat) : Prop where
  few : ∀ p, (lookup p).length ≤ most
  lower : ∀ p, ∀ c ∈ lookup p, Literal.loadAll level c.bodyGoal < level p.name

namespace Branch

/-- A bound for the clauses that the search tries below a branch. -/
def cost (level : String → Nat) (most : Nat) : Branch → Nat
  | .goal todo _ => (most + 1) ^ Literal.loadAll level todo - 1
  | .call _ clauses todo _ =>
    (clauses.map fun c =>
      (most + 1) ^ (Literal.loadAll level c.bodyGoal + Literal.loadAll level todo)).sum

def costAll (level : String → Nat) (most : Nat) (bs : List Branch) : Nat :=
  (bs.map (cost level most)).sum

variable {level : String → Nat} {most : Nat} {p : Predicate} {c : Clause} {left : List Clause}
  {todo : List Literal} {σ τ : Substitution} {lookup : Lookup}

@[simp] theorem costAll_nil : costAll level most [] = 0 := rfl

@[simp] theorem costAll_cons {b : Branch} {bs : List Branch} :
    costAll level most (b :: bs) = b.cost level most + costAll level most bs := List.sum_cons

@[simp] theorem costAll_append {bs cs : List Branch} :
    costAll level most (bs ++ cs) = costAll level most bs + costAll level most cs := by
  simp [costAll]

/-- What follows a literal costs no more than both. -/
theorem cost_todo_le (l : Literal) :
    costAll level most [.goal todo τ] ≤ (Branch.goal (l :: todo) σ).cost level most := by
  rw [costAll_cons, costAll_nil, cost, cost, Literal.loadAll_cons]
  exact Nat.sub_le_sub_right (Nat.pow_le_pow_right (Nat.succ_pos most) (Nat.le_add_left _ _)) 1

/-- Trying a clause pays for one step. -/
theorem costAll_tried (level : String → Nat) (most : Nat) (p : Predicate) (c : Clause)
    (left : List Clause) (todo : List Literal)
    (σ : Substitution) (bs : List Branch) :
    costAll level most ((resolve? p c todo σ).toList ++ .call p left todo σ :: bs) + 1 ≤
      costAll level most (.call p (c :: left) todo σ :: bs) := by
  have hpos : 0 < (most + 1) ^ (Literal.loadAll level c.bodyGoal + Literal.loadAll level todo) :=
    Nat.pow_pos (Nat.succ_pos most)
  have hcall : (Branch.call p (c :: left) todo σ).cost level most =
      (most + 1) ^ (Literal.loadAll level c.bodyGoal + Literal.loadAll level todo) +
        (Branch.call p left todo σ).cost level most := List.sum_cons
  rw [costAll_cons, hcall]
  cases hresolve : resolve? p c todo σ with
  | none =>
    rw [Option.toList_none, List.nil_append, costAll_cons]
    omega
  | some b =>
    obtain ⟨head, τ, -, -, rfl⟩ := resolve?_eq_some_iff.1 hresolve
    have hgoal : (Branch.goal ((σ.rename [] c).1.bodyGoal ++ todo) τ).cost level most =
        (most + 1) ^ (Literal.loadAll level c.bodyGoal + Literal.loadAll level todo) - 1 := by
      rw [cost, Literal.loadAll_append, Literal.loadAll_rename]
    rw [Option.toList_some, List.singleton_append, costAll_cons, costAll_cons, hgoal]
    omega

/-- A call costs no more than the atom that it comes from. -/
theorem cost_call_le (hd : Descends lookup level most) (todo : List Literal) :
    (Branch.call p (lookup p) todo τ).cost level most ≤
      (most + 1) ^ (level p.name + Literal.loadAll level todo) - 1 := by
  cases hfound : lookup p with
  | nil => exact Nat.zero_le _
  | cons c left =>
    obtain ⟨k, hk⟩ : ∃ k, level p.name = k + 1 :=
      Nat.exists_eq_add_one.2 (Nat.lt_of_le_of_lt (Nat.zero_le _)
        (hd.lower p c (hfound ▸ List.mem_cons_self)))
    rw [← hfound, hk]
    have hsum : (Branch.call p (lookup p) todo τ).cost level most ≤
        (lookup p).length * (most + 1) ^ (k + Literal.loadAll level todo) := by
      refine (List.sum_le_card_nsmul _ ((most + 1) ^ (k + Literal.loadAll level todo))
        fun n hn => ?_).trans_eq ?_
      · obtain ⟨c, hc, rfl⟩ := List.mem_map.1 hn
        have hlower := hd.lower p c hc
        exact Nat.pow_le_pow_right (Nat.succ_pos most) (by omega)
      · rw [List.length_map, smul_eq_mul]
    have hfew := Nat.mul_le_mul_right ((most + 1) ^ (k + Literal.loadAll level todo)) (hd.few p)
    have hpos : 0 < (most + 1) ^ (k + Literal.loadAll level todo) := Nat.pow_pos (Nat.succ_pos most)
    have hpow : (most + 1) ^ (k + 1 + Literal.loadAll level todo) =
        most * (most + 1) ^ (k + Literal.loadAll level todo) +
          (most + 1) ^ (k + Literal.loadAll level todo) := by
      rw [Nat.add_right_comm, Nat.pow_succ, Nat.mul_comm, Nat.add_one_mul]
    omega

/-- A negated goal and what follows it cost no more than both together. -/
theorem cost_not_le (level : String → Nat) (most : Nat) (g : Goal) (todo : List Literal) :
    (Branch.goal g τ).cost level most + (Branch.goal todo σ).cost level most ≤
      (Branch.goal (.not g :: todo) σ).cost level most := by
  have hg : 0 < (most + 1) ^ Literal.loadAll level g := Nat.pow_pos (Nat.succ_pos most)
  have htodo : 0 < (most + 1) ^ Literal.loadAll level todo := Nat.pow_pos (Nat.succ_pos most)
  simp only [cost, Literal.loadAll_cons, Literal.load, Nat.pow_add]
  generalize (most + 1) ^ Literal.loadAll level g = a at *
  generalize (most + 1) ^ Literal.loadAll level todo = b at *
  obtain ⟨a, rfl⟩ := Nat.exists_eq_add_one.2 hg
  obtain ⟨b, rfl⟩ := Nat.exists_eq_add_one.2 htodo
  simp only [Nat.add_mul, Nat.mul_add]
  omega

end Branch

namespace Search

variable {lookup : Lookup} {level : String → Nat} {most : Nat}

/-- The search has steps for all its branches and so many more, and has not been cut. -/
def Affords (level : String → Nat) (most spare : Nat) (s : Search) : Prop :=
  s.cut = false ∧ Branch.costAll level most s.branches + spare ≤ s.steps

/-- The front branch gives way to others that cost no more. -/
theorem Affords.replace {s : Search} {spare : Nat} {b : Branch} {rest : List Branch}
    (hs : s.Affords level most spare) (h : s.branches = b :: rest) (new : List Branch)
    (hcost : Branch.costAll level most new ≤ b.cost level most) :
    (s.withBranches (new ++ rest)).Affords level most spare := by
  refine ⟨hs.1, ?_⟩
  have hsteps := hs.2
  rw [h, Branch.costAll_cons] at hsteps
  show Branch.costAll level most (new ++ rest) + spare ≤ s.steps
  rw [Branch.costAll_append]
  omega

/-- A search that affords its branches still does after its next answer. -/
theorem next_affords (hd : Descends lookup level most) (s : Search) {spare : Nat}
    (hs : s.Affords level most spare) : (s.next lookup).2.Affords level most spare := by
  fun_induction next lookup s generalizing spare with
  | case1 s h => exact hs
  | case2 s p todo σ rest h hb ih => exact ih (hs.replace h [] (Nat.zero_le _))
  | case3 s p c left todo σ rest h h0 =>
    -- a clause that is due has its step
    have htried := Branch.costAll_tried level most p c left todo σ rest
    have hsteps := hs.2
    rw [h, h0] at hsteps
    omega
  | case4 s p c left todo σ rest h h0 hb ih =>
    have htried := Branch.costAll_tried level most p c left todo σ rest
    have hsteps := hs.2
    rw [h] at hsteps
    refine ih ⟨hs.1, ?_⟩
    show Branch.costAll level most ((Branch.resolve? p c todo σ).toList ++ .call p left todo σ :: rest) +
      spare ≤ s.steps - 1
    omega
  | case5 s σ rest h => exact hs.replace h [] (Nat.zero_le _)
  | case6 s a todo σ rest h c hc hnone hb ih => exact ih (hs.replace h [] (Nat.zero_le _))
  | case7 s a todo σ rest h c hc τ hτ hb ih =>
    exact ih (hs.replace h [_] (Branch.cost_todo_le _))
  | case8 s a todo σ rest h p hp hbuilt hb ih =>
    exact ih (hs.replace h [_] (Branch.cost_todo_le _))
  | case9 s a todo σ rest h p hp hbuilt hb ih =>
    exact ih (hs.replace h [] (Nat.zero_le _))
  | case10 s a todo σ rest h p hp hbuilt hb ih =>
    refine ih (hs.replace h [_] ?_)
    rw [Branch.costAll_cons, Branch.costAll_nil, Branch.cost, Literal.loadAll_cons,
      Literal.load_apply hp]
    exact Branch.cost_call_le (τ := σ) hd todo
  | case11 s g todo σ rest h hb answer inner hinner hb' ih' ih =>
    -- what follows the negated goal is paid for out of what the search inside it leaves
    have hparts := Branch.cost_not_le level most (τ := σ) (σ := σ) g todo
    have hsteps := hs.2
    rw [h, Branch.costAll_cons] at hsteps
    have hinside : (s.inside g σ).Affords level most
        (Branch.costAll level most (.goal todo σ :: rest) + spare) := by
      refine ⟨hs.1, ?_⟩
      show Branch.costAll level most [.goal g _] + _ ≤ s.steps
      rw [Branch.costAll_cons, Branch.costAll_cons, Branch.costAll_nil]
      have hsame : (Branch.goal g (σ.addVariables g)).cost level most =
        (Branch.goal g σ).cost level most := rfl
      omega
    have hafter := ih' hinside
    rw [hinner] at hafter
    refine ih ⟨hafter.1, ?_⟩
    have hleft : Branch.costAll level most inner.branches +
        (Branch.costAll level most (.goal todo σ :: rest) + spare) ≤ inner.steps := hafter.2
    rw [Branch.costAll_cons] at hleft
    show Branch.costAll level most (if answer.isSome then rest else .goal todo σ :: rest) + spare ≤
      min s.steps inner.steps
    split
    · omega
    · rw [Branch.costAll_cons]
      omega

/-- What a search affords it finds to the end. -/
theorem rest_uncut (hd : Descends lookup level most) (s : Search) {spare : Nat}
    (hs : s.Affords level most spare) : (s.rest lookup).2.cut = false := by
  fun_induction rest lookup s with
  | case1 s t h =>
    have hnext := next_affords hd s hs
    rw [h] at hnext
    exact hnext.1
  | case2 s σ t h hb more ended hrest ih =>
    have hnext := next_affords hd s hs
    rw [h] at hnext
    rw [hrest] at ih
    exact ih hnext

theorem affords_start {g : Goal} {σ : Substitution} {steps : Nat}
    (hsteps : (most + 1) ^ Literal.loadAll level g ≤ steps + 1) :
    (start g σ steps).Affords level most 0 := by
  refine ⟨rfl, ?_⟩
  show Branch.costAll level most [.goal g _] + 0 ≤ steps
  rw [Branch.costAll_cons, Branch.costAll_nil, Branch.cost]
  omega

end Search

/-- Where calls descend, a test is not cut when the steps are enough for the level of the head. -/
theorem Clause.isDecided_of_descends {e : Clause} {lookup : Lookup} {level : String → Nat}
    {most steps : Nat} {p : Predicate} (hd : Descends lookup level most)
    (he : e.head = some (.predicate p)) (hsteps : (most + 1) ^ level p.name ≤ steps + 1) :
    e.IsDecided lookup steps := by
  intro g hg
  rw [headGoal, he] at hg
  obtain rfl : [.atom (.predicate p)] = g := Option.some.inj hg
  refine .inr (Search.next_affords hd _ (Search.affords_start ?_)).1
  rwa [Literal.loadAll_cons, Literal.loadAll_nil, Literal.load]

/-- Clauses descend in a store when the levels in the bodies stay below those of the heads. -/
theorem LayeredStore.IsFiled.descends {s : LayeredStore} (h : s.IsFiled) {level : String → Nat}
    {clauses : List Clause} (hfew : ∀ c ∈ s.clauses, c ∈ clauses)
    (hlower : ∀ c ∈ s.clauses, ∀ head, c.headPredicate = some head →
      Literal.loadAll level c.bodyGoal < level head.name) :
    Descends s.candidates level clauses.length := by
  refine ⟨s.length_candidates_le hfew, fun p c hc => ?_⟩
  obtain ⟨hstored, head, hhead, hagrees⟩ := h.mem_candidates.1 hc
  rw [Predicate.agrees, Bool.and_eq_true, beq_iff_eq] at hagrees
  rw [← hagrees.1]
  exact hlower c hstored head hhead

end Horn
