import Horn.Proofs.Domains
import Horn.Proofs.SearchBindings
import Horn.Solutions

/-!
Frames of literals and one stack of branches are the same search.

Every node that a resolution keeps, with the literals after its frame, is a branch: a goal to be
solved, or a call with the one clause that the node was queued for.  Read from the newest frame to the
oldest and from the current node to the last alternative, the nodes are the stack of the other search,
but for calls that it keeps with all their clauses.  Each move of a frame keeps this reading.  When a
clause is due and no step is left, the stack is given up at once; the frames are asked one by one, and
end one by one, since what an older frame has left starts with a clause to be tried.
-/

namespace Horn

/-! ## Branches with one clause -/

/-- A branch as branches with at most one clause. -/
def Branch.single : Branch → List Branch
  | .goal todo σ => [.goal todo σ]
  | .call p clauses todo σ => clauses.map fun c => .call p [c] todo σ

namespace Search

variable {lookup : Lookup} {s t : Search} {b : Budget} {σ : Substitution} {todo : List Literal}
  {bs : List Branch}

/-- A search with these branches, when calls are split by their clauses, and with this budget. -/
structure Splits (s : Search) (bs : List Branch) (b : Budget) : Prop where
  branches : s.branches.flatMap Branch.single = bs
  steps : s.steps = b.remaining
  cut : s.cut = b.exhausted

/-- A search that comes to these branches and this budget without an answer. -/
def ComesTo (lookup : Lookup) (s : Search) (bs : List Branch) (b : Budget) : Prop :=
  ∃ t, next lookup s = next lookup t ∧ t.Splits bs b

theorem Splits.comesTo (h : s.Splits bs b) : ComesTo lookup s bs b := ⟨s, rfl, h⟩

/-- The first branch of a split stack is first on the stack, once the calls without clauses are
gone. -/
theorem Splits.exists_first (lookup : Lookup) {first : Branch} (h : s.Splits (first :: bs) b) :
    ∃ head rest left, next lookup s = next lookup ⟨head :: rest, b.remaining, b.exhausted⟩ ∧
      head.single = first :: left ∧ left ++ rest.flatMap Branch.single = bs := by
  obtain ⟨branches, steps, cut⟩ := s
  obtain ⟨hbranches, rfl, rfl⟩ := h
  dsimp only at hbranches ⊢
  induction branches with
  | nil => cases hbranches
  | cons head rest ih =>
    rw [List.flatMap_cons] at hbranches
    cases hsingle : head.single with
    | cons x left =>
      rw [hsingle, List.cons_append] at hbranches
      obtain ⟨rfl, hrest⟩ := List.cons.inj hbranches
      exact ⟨head, rest, left, rfl, hsingle, hrest⟩
    | nil =>
      -- a call that has no clauses left is dropped
      rw [hsingle, List.nil_append] at hbranches
      obtain ⟨head', rest', left, hnext, hhead, hleft⟩ := ih hbranches
      refine ⟨head', rest', left, ?_, hhead, hleft⟩
      cases head with
      | goal todo σ => cases hsingle
      | call p clauses todo σ =>
        obtain rfl : clauses = [] := List.map_eq_nil_iff.1 hsingle
        exact next_exhausted.trans hnext

theorem Splits.next_nil (h : s.Splits [] b) :
    next lookup s = (none, ⟨[], b.remaining, b.exhausted⟩) := by
  obtain ⟨branches, steps, cut⟩ := s
  obtain ⟨hbranches, rfl, rfl⟩ := h
  dsimp only at hbranches ⊢
  induction branches with
  | nil => exact Search.next_nil
  | cons head rest ih =>
    rw [List.flatMap_cons, List.append_eq_nil_iff] at hbranches
    cases head with
    | goal todo σ => cases hbranches.1
    | call p clauses todo σ =>
      obtain rfl : clauses = [] := List.map_eq_nil_iff.1 hbranches.1
      exact next_exhausted.trans (ih hbranches.2)

/-- A goal that comes first on the split stack is first on the stack. -/
theorem ComesTo.goal (h : ComesTo lookup s (.goal todo σ :: bs) b) :
    ∃ rest, next lookup s = next lookup ⟨.goal todo σ :: rest, b.remaining, b.exhausted⟩ ∧
      rest.flatMap Branch.single = bs := by
  obtain ⟨t, hst, ht⟩ := h
  obtain ⟨head, rest, left, hnext, hhead, hleft⟩ := ht.exists_first lookup
  cases head with
  | goal todo' σ' =>
    obtain ⟨hgoal, rfl⟩ := List.cons.inj hhead
    exact ⟨rest, hgoal ▸ hst.trans hnext, hleft⟩
  | call p clauses todo' σ' => cases clauses <;> cases hhead

theorem ComesTo.call {p : Predicate} {c : Clause}
    (h : ComesTo lookup s (.call p [c] todo σ :: bs) b) :
    ∃ left rest,
      next lookup s = next lookup ⟨.call p (c :: left) todo σ :: rest, b.remaining, b.exhausted⟩ ∧
      (Branch.call p left todo σ).single ++ rest.flatMap Branch.single = bs := by
  obtain ⟨t, hst, ht⟩ := h
  obtain ⟨head, rest, left, hnext, hhead, hleft⟩ := ht.exists_first lookup
  cases head with
  | goal todo' σ' => cases hhead
  | call p' clauses todo' σ' =>
    cases clauses with
    | nil => cases hhead
    | cons c' clauses =>
      obtain ⟨hcall, rfl⟩ := List.cons.inj hhead
      obtain ⟨rfl, hclause, rfl, rfl⟩ := Branch.call.inj hcall
      obtain rfl : c' = c := List.head_eq_of_cons_eq hclause
      exact ⟨clauses, rest, hst.trans hnext, hleft⟩

/-! ## Moves -/

theorem ComesTo.nil (h : ComesTo lookup s [] b) :
    next lookup s = (none, ⟨[], b.remaining, b.exhausted⟩) := by
  obtain ⟨t, hst, ht⟩ := h
  exact hst.trans ht.next_nil

theorem ComesTo.answer (h : ComesTo lookup s (.goal [] σ :: bs) b) :
    ∃ t, next lookup s = (some σ, t) ∧ t.Splits bs b := by
  obtain ⟨rest, hnext, hrest⟩ := h.goal
  exact ⟨_, hnext.trans next_answer, hrest, rfl, rfl⟩

theorem ComesTo.compare {a : Atom} {d : Comparison} (ha : σ.apply a = .compare d)
    (h : ComesTo lookup s (.goal (.atom a :: todo) σ :: bs) b) :
    ComesTo lookup s ((d.solution? σ).toList.map (.goal todo) ++ bs) b := by
  obtain ⟨rest, hnext, rfl⟩ := h.goal
  refine ⟨_, hnext.trans (next_compare ha), ?_, rfl, rfl⟩
  cases d.solution? σ <;> rfl

section

variable {a : Atom} {p : Predicate} (ha : σ.apply a = .predicate p)

include ha

theorem ComesTo.holds (hp : builtin? p = some true)
    (h : ComesTo lookup s (.goal (.atom a :: todo) σ :: bs) b) :
    ComesTo lookup s (.goal todo σ :: bs) b := by
  obtain ⟨rest, hnext, rfl⟩ := h.goal
  exact ⟨_, hnext.trans (next_true ha hp), rfl, rfl, rfl⟩

theorem ComesTo.fails (hp : builtin? p = some false)
    (h : ComesTo lookup s (.goal (.atom a :: todo) σ :: bs) b) : ComesTo lookup s bs b := by
  obtain ⟨rest, hnext, rfl⟩ := h.goal
  exact ⟨_, hnext.trans (next_fail ha hp), rfl, rfl, rfl⟩

/-- A call turns into one branch for each candidate. -/
theorem ComesTo.candidates (hp : builtin? p = none)
    (h : ComesTo lookup s (.goal (.atom a :: todo) σ :: bs) b) :
    ComesTo lookup s ((Branch.call p (lookup p) todo σ).single ++ bs) b := by
  obtain ⟨rest, hnext, rfl⟩ := h.goal
  exact ⟨_, hnext.trans (next_call ha hp), rfl, rfl, rfl⟩

end

theorem ComesTo.tried {p : Predicate} {c : Clause} (hb : b.remaining ≠ 0)
    (h : ComesTo lookup s (.call p [c] todo σ :: bs) b) :
    ComesTo lookup s ((Branch.resolve? p c todo σ).toList ++ bs) b.spend := by
  obtain ⟨left, rest, hnext, rfl⟩ := h.call
  obtain ⟨steps, hsteps⟩ : ∃ steps, b.remaining = steps + 1 := ⟨_, (Nat.succ_pred hb).symm⟩
  rw [hsteps] at hnext
  refine ⟨_, hnext.trans next_tried, ?_, by rw [Budget.spend, hsteps]; rfl, rfl⟩
  rw [List.flatMap_append, List.flatMap_cons]
  congr 1
  cases hresolve : Branch.resolve? p c todo σ with
  | none => rfl
  | some branch =>
    obtain ⟨-, -, -, -, rfl⟩ := Branch.resolve?_eq_some_iff.1 hresolve
    rfl

theorem ComesTo.exhausted {p : Predicate} {c : Clause} (hb : b.remaining = 0)
    (h : ComesTo lookup s (.call p [c] todo σ :: bs) b) :
    next lookup s = (none, ⟨[], 0, true⟩) := by
  obtain ⟨left, rest, hnext, -⟩ := h.call
  rw [hb] at hnext
  exact hnext.trans next_giveUp

/-- A negated goal is searched on the same budget. -/
theorem ComesTo.negation {g : Goal}
    (h : ComesTo lookup s (.goal (.not g :: todo) σ :: bs) b) {answer? : Option Substitution}
    {inner : Search}
    (hinner : next lookup ⟨[.goal g (σ.addVariables g)], b.remaining, b.exhausted⟩ =
      (answer?, inner)) :
    ComesTo lookup s (if answer?.isSome then bs else .goal todo σ :: bs)
      (b.after ⟨inner.steps, inner.cut⟩) := by
  obtain ⟨rest, hnext, rfl⟩ := h.goal
  rw [next_not, hinner] at hnext
  refine ⟨_, hnext, ?_, rfl, rfl⟩
  cases answer? <;> rfl

end Search

/-! ## Nodes as branches -/

namespace Node

/-- The branch of a node in front of the literals after its frame. -/
def branch (after : List Literal) : Node → Branch
  | ⟨.predicate p :: atoms, σ, some c⟩ => .call p [c] (atoms.map .atom ++ after) σ
  | ⟨atoms, σ, _⟩ => .goal (atoms.map .atom ++ after) σ

/-- A node that was queued with an atom for a clause: the atom has its bindings already, and it is no
goal that always or never holds. -/
structure IsQueued (n : Node) : Prop where
  reachable : n.bindings.Reachable
  call : ∃ p atoms c, n = ⟨.predicate p :: atoms, n.bindings, some c⟩ ∧
    n.bindings.apply (Atom.predicate p) = .predicate p ∧ builtin? p = none

/-- A node on the branch that is explored: it was queued, or it has no clause yet. -/
structure IsOpen (n : Node) : Prop where
  reachable : n.bindings.Reachable
  queued : n.clause ≠ none → n.IsQueued

theorem IsQueued.isOpen {n : Node} (h : n.IsQueued) : n.IsOpen := ⟨h.reachable, fun _ => h⟩

theorem isOpen_fresh {atoms : List Atom} {σ : Substitution} (hσ : σ.Reachable) :
    IsOpen ⟨atoms, σ, none⟩ := ⟨hσ, fun h => (h rfl).elim⟩

theorem branch_fresh (after : List Literal) (atoms : List Atom) (σ : Substitution) :
    branch after ⟨atoms, σ, none⟩ = .goal (atoms.map .atom ++ after) σ := by
  unfold branch
  split
  · rename_i h
    cases (Node.mk.inj h).2.2
  · rename_i h
    obtain ⟨rfl, rfl, -⟩ := Node.mk.inj h
    rfl

theorem resolve?_branch (p : Predicate) (c : Clause) (atoms : List Atom) (σ : Substitution)
    (after : List Literal) :
    Branch.resolve? p c (atoms.map .atom ++ after) σ =
      (resolve? p c atoms σ).map (branch after) := by
  unfold Branch.resolve? resolve?
  dsimp only
  cases (σ.rename [] c).1.headPredicate with
  | none => rfl
  | some head =>
    dsimp only
    cases (σ.rename [] c).2.2.unifyPredicates p head with
    | error why => rfl
    | ok τ =>
      dsimp only
      rw [Option.map_some, branch_fresh, List.map_append, List.append_assoc, Clause.bodyGoal]

theorem isOpen_of_resolve? {p : Predicate} {c : Clause} {atoms : List Atom} {σ : Substitution}
    {n : Node} (hσ : σ.Reachable) (h : resolve? p c atoms σ = some n) : n.IsOpen := by
  unfold resolve? at h
  dsimp only at h
  split at h
  · cases h
  · rename_i head hhead
    split at h
    · cases h
    · rename_i τ hunify
      obtain rfl := Option.some.inj h
      exact isOpen_fresh
        (.unifyAtoms (a := .predicate p) (b := .predicate head) (.rename [] c hσ) hunify)

/-- A node whose next atom is not a call that was queued has no clause. -/
theorem IsOpen.clause_eq_none {atoms : List Atom} {σ : Substitution} {clause : Option Clause}
    (h : IsOpen ⟨atoms, σ, clause⟩)
    (hne : ∀ p rest, atoms = .predicate p :: rest → σ.apply (Atom.predicate p) = .predicate p →
      builtin? p ≠ none) : clause = none := by
  cases clause with
  | none => rfl
  | some c =>
    obtain ⟨p, rest, _, heq, happly, hp⟩ := (h.queued (Option.some_ne_none c)).call
    exact (hne p rest (Node.mk.inj heq).1 happly hp).elim

end Node

/-! ## Resolutions -/

namespace Resolution

variable {r : Resolution}

/-- The branches of a resolution in front of the literals after its frame. -/
def branches (after : List Literal) (r : Resolution) : List Branch := r.nodes.map (Node.branch after)

/-- Only the current node may be new; the alternatives were queued, and without a current node there are
none. -/
structure IsValid (r : Resolution) : Prop where
  current : ∀ n, r.current = some n → n.IsOpen
  alternatives : ∀ n ∈ r.alternatives, n.IsQueued
  ended : r.current = none → r.alternatives = []

/-- Every node was queued, so that what is left starts with a clause to be tried. -/
structure IsQueued (r : Resolution) : Prop extends r.IsValid where
  queued : ∀ n, r.current = some n → n.IsQueued

theorem IsValid.backtrack (h : r.IsValid) : r.backtrack.IsQueued := by
  obtain ⟨current, alternatives⟩ := r
  obtain ⟨-, halternatives, -⟩ := h
  cases alternatives with
  | nil => exact ⟨⟨nofun, nofun, fun _ => rfl⟩, nofun⟩
  | cons n alternatives =>
    obtain ⟨hn, halternatives⟩ := List.forall_mem_cons.1 halternatives
    exact ⟨⟨fun m hm => Option.some.inj hm ▸ hn.isOpen, halternatives, nofun⟩,
      fun m hm => Option.some.inj hm ▸ hn⟩

theorem IsValid.resume (h : r.IsValid) {n : Node} (hn : n.IsOpen) : (r.resume n).IsValid where
  current _ hm := Option.some.inj hm ▸ hn
  alternatives := h.alternatives
  ended := nofun

theorem isValid_ofAtom (a : Atom) {σ : Substitution} (hσ : σ.Reachable) :
    (ofAtom a σ).IsValid where
  current _ hn := Option.some.inj hn ▸ Node.isOpen_fresh hσ
  alternatives := nofun
  ended := nofun

theorem branches_ofAtom (a : Atom) (σ : Substitution) (after : List Literal) :
    (ofAtom a σ).branches after = [.goal (.atom a :: after) σ] :=
  congrArg (fun b => [b]) (Node.branch_fresh after [a] σ)

end Resolution

/-! ## Frames -/

namespace Frame

def branches (after : List Literal) : Frame → List Branch
  | .ready σ => σ.toList.map (.goal after)
  | .resolving r => r.branches after

def IsValid : Frame → Prop
  | .ready σ => ∀ τ, σ = some τ → τ.Reachable
  | .resolving r => r.IsValid

/-- What is left of a frame that has yielded its bindings starts with a clause to be tried. -/
def IsQueued : Frame → Prop
  | .ready σ => σ = none
  | .resolving r => r.IsQueued

theorem IsQueued.isValid {f : Frame} (h : f.IsQueued) : f.IsValid := by
  cases f with
  | ready σ => exact fun τ hτ => (Option.some_ne_none τ (hτ.symm.trans h)).elim
  | resolving r => exact h.toIsValid

/-- What a frame yields, for a search that comes to its branches and older ones.  The search comes to
the literals after the frame, or to the older branches, or it is given up. -/
inductive Simulates (lookup : Lookup) (s : Search) (after : List Literal) (older : List Branch) :
    Option Substitution × Frame × Budget → Prop where
  | answer {σ : Substitution} {f : Frame} {b : Budget} (hσ : σ.Reachable) (hf : f.IsQueued)
      (h : s.ComesTo lookup (.goal after σ :: (f.branches after ++ older)) b) :
    Simulates lookup s after older (some σ, f, b)
  | ended {f : Frame} {b : Budget} (h : s.ComesTo lookup older b) :
    Simulates lookup s after older (none, f, b)
  | exhausted {f : Frame} {b : Budget} (hb : b.remaining = 0 ∧ b.exhausted = true)
      (h : s.next lookup = (none, ⟨[], 0, true⟩)) :
    Simulates lookup s after older (none, f, b)

end Frame

namespace Resolution

variable {lookup : Lookup} {r : Resolution} {b : Budget} {s : Search} {after : List Literal}
  {older : List Branch}

theorem alternatives_queue (r : Resolution) (p : Predicate) (atoms : List Atom) (σ : Substitution)
    (clauses : List Clause) :
    (r.queue p atoms σ clauses).alternatives =
      clauses.map (fun c => ⟨.predicate p :: atoms, σ, some c⟩) ++ r.alternatives := by
  simp only [queue]
  induction clauses with
  | nil => rfl
  | cons c clauses ih => rw [List.reverse_cons, List.foldl_append, ih]; rfl

theorem branches_eq {n : Node} (h : r.current = some n) :
    r.branches after ++ older =
      n.branch after :: (r.backtrack.branches after ++ older) := by
  rw [branches, branches, nodes_eq h, nodes_backtrack]
  rfl

theorem branches_resume (n : Node) :
    (r.resume n).branches after ++ older = n.branch after :: (r.backtrack.branches after ++ older) :=
  branches_eq rfl

section

variable {a : Atom} {atoms : List Atom} {σ : Substitution} {clause : Option Clause} {p : Predicate}

/-- The goal that an open node without a clause stands for. -/
theorem comesTo_goal (hcurrent : r.current = some ⟨atoms, σ, none⟩)
    (h : s.ComesTo lookup (r.branches after ++ older) b) :
    s.ComesTo lookup
      (.goal (atoms.map .atom ++ after) σ :: (r.backtrack.branches after ++ older)) b := by
  rwa [branches_eq hcurrent, Node.branch_fresh] at h

/-- A clause is chosen for a call: the search comes to the call with this clause alone, in front of
the alternatives. -/
theorem comesTo_choose (hr : r.IsValid) (hcurrent : r.current = some ⟨a :: atoms, σ, clause⟩)
    (ha : σ.apply a = .predicate p) (hp : builtin? p = none) {c : Clause} {queued : Resolution}
    (hchoose : r.choose lookup p atoms σ clause = some (c, queued))
    (h : s.ComesTo lookup (r.branches after ++ older) b) :
    queued.IsValid ∧ s.ComesTo lookup
      (.call p [c] (atoms.map .atom ++ after) σ :: (queued.backtrack.branches after ++ older))
      b := by
  have hopen := hr.current _ hcurrent
  cases clause with
  | some c' =>
    obtain ⟨rfl, rfl⟩ := Prod.mk.inj (Option.some.inj hchoose)
    obtain ⟨p', atoms', c'', heq, happly, -⟩ := (hopen.queued (by simp)).call
    obtain ⟨hatoms, -, -⟩ := Node.mk.inj heq
    obtain ⟨rfl, rfl⟩ := List.cons.inj hatoms
    obtain rfl : p' = p := Atom.predicate.inj (happly.symm.trans ha)
    rw [branches_eq hcurrent] at h
    exact ⟨hr, h⟩
  | none =>
    have happly : σ.apply (Atom.predicate p) = .predicate p := by
      rw [← ha]
      exact hopen.reachable.isNormal.apply_apply a
    unfold choose at hchoose
    cases hlookup : lookup p with
    | nil => simp [hlookup] at hchoose
    | cons c' others =>
      rw [hlookup] at hchoose
      obtain ⟨rfl, rfl⟩ := Prod.mk.inj (Option.some.inj hchoose)
      refine ⟨⟨hr.current, ?_, fun hnone => ?_⟩, ?_⟩
      · rw [alternatives_queue]
        refine List.forall_mem_append.2 ⟨fun n hn => ?_, hr.alternatives⟩
        obtain ⟨d, -, rfl⟩ := List.mem_map.1 hn
        exact ⟨hopen.reachable, p, atoms, d, rfl, happly, hp⟩
      · exact (Option.some_ne_none _ (hcurrent.symm.trans hnone)).elim
      · have hcandidates := (comesTo_goal hcurrent h).candidates ha hp
        rw [hlookup] at hcandidates
        have hbranches : (r.queue p atoms σ others).backtrack.branches after =
            (Branch.call p others (atoms.map .atom ++ after) σ).single ++
              r.backtrack.branches after := by
          rw [branches, branches, nodes_backtrack, nodes_backtrack, alternatives_queue,
            List.map_append, List.map_map]
          rfl
        rw [hbranches, List.append_assoc]
        exact hcandidates

theorem comesTo_of_choose_none (hcurrent : r.current = some ⟨a :: atoms, σ, clause⟩)
    (ha : σ.apply a = .predicate p) (hp : builtin? p = none)
    (hchoose : r.choose lookup p atoms σ clause = none)
    (h : s.ComesTo lookup (r.branches after ++ older) b) :
    s.ComesTo lookup (r.backtrack.branches after ++ older) b := by
  cases clause with
  | some c => cases hchoose
  | none =>
    have hcandidates := (comesTo_goal hcurrent h).candidates ha hp
    unfold choose at hchoose
    cases hlookup : lookup p with
    | nil =>
      rw [hlookup] at hcandidates
      exact hcandidates
    | cons c others => simp [hlookup] at hchoose

/-- A comparison, or a goal that always or never holds, is no call that was queued. -/
theorem not_call_of_apply {c : Comparison} (ha : σ.apply a = .compare c) (p : Predicate)
    (rest : List Atom) (heq : a :: atoms = .predicate p :: rest)
    (happly : σ.apply (Atom.predicate p) = .predicate p) : builtin? p ≠ none := by
  obtain ⟨rfl, -⟩ := List.cons.inj heq
  cases happly.symm.trans ha

theorem not_call_of_builtin {q : Predicate} {holds : Bool} (ha : σ.apply a = .predicate q)
    (hq : builtin? q = some holds) (p : Predicate) (rest : List Atom)
    (heq : a :: atoms = .predicate p :: rest)
    (happly : σ.apply (Atom.predicate p) = .predicate p) : builtin? p ≠ none := by
  obtain ⟨rfl, -⟩ := List.cons.inj heq
  obtain rfl : p = q := Atom.predicate.inj (happly.symm.trans ha)
  rw [hq]
  exact Option.some_ne_none holds

end

theorem next_simulates (hr : r.IsValid) (h : s.ComesTo lookup (r.branches after ++ older) b) :
    Frame.Simulates lookup s after older
      ((r.next lookup b).1, .resolving (r.next lookup b).2.1, (r.next lookup b).2.2) := by
  fun_induction Resolution.next lookup r b with
  | case1 r b hcurrent =>
    have hbranches : r.branches after = [] := by
      simp [branches, nodes, hcurrent, hr.ended hcurrent]
    rw [hbranches] at h
    exact .ended h
  | case2 r b σ clause hcurrent =>
    have hopen := hr.current _ hcurrent
    obtain rfl := hopen.clause_eq_none fun p rest h => by cases h
    exact .answer hopen.reachable hr.backtrack (comesTo_goal hcurrent h)
  | case3 r b a atoms σ clause hcurrent c hc hnone hb ih =>
    obtain rfl := (hr.current _ hcurrent).clause_eq_none (not_call_of_apply hc)
    have hmove := (comesTo_goal hcurrent h).compare hc
    rw [hnone] at hmove
    exact ih hr.backtrack.toIsValid hmove
  | case4 r b a atoms σ clause hcurrent c hc τ hτ hb ih =>
    have hopen := hr.current _ hcurrent
    obtain rfl := hopen.clause_eq_none (not_call_of_apply hc)
    have hmove := (comesTo_goal hcurrent h).compare hc
    rw [hτ] at hmove
    refine ih (hr.resume (Node.isOpen_fresh (Comparison.reachable_of_solution? hopen.reachable hτ))) ?_
    rw [branches_resume, Node.branch_fresh]
    exact hmove
  | case5 r b a atoms σ clause hcurrent p hp hbuilt hb ih =>
    have hopen := hr.current _ hcurrent
    obtain rfl := hopen.clause_eq_none (not_call_of_builtin hp hbuilt)
    refine ih (hr.resume (Node.isOpen_fresh hopen.reachable)) ?_
    rw [branches_resume, Node.branch_fresh]
    exact (comesTo_goal hcurrent h).holds hp hbuilt
  | case6 r b a atoms σ clause hcurrent p hp hbuilt hb ih =>
    obtain rfl := (hr.current _ hcurrent).clause_eq_none (not_call_of_builtin hp hbuilt)
    exact ih hr.backtrack.toIsValid ((comesTo_goal hcurrent h).fails hp hbuilt)
  | case7 r b a atoms σ clause hcurrent p hp hbuilt hnone hb ih =>
    exact ih hr.backtrack.toIsValid (comesTo_of_choose_none hcurrent hp hbuilt hnone h)
  | case8 r b a atoms σ clause hcurrent p hp hbuilt c queued hc h0 =>
    obtain ⟨-, hcall⟩ := comesTo_choose hr hcurrent hp hbuilt hc h
    exact .exhausted ⟨h0, rfl⟩ (hcall.exhausted h0)
  | case9 r b a atoms σ clause hcurrent p hp hbuilt c queued hc h0 hnone hb ih =>
    obtain ⟨hqueued, hcall⟩ := comesTo_choose hr hcurrent hp hbuilt hc h
    have htried := hcall.tried h0
    rw [Node.resolve?_branch, hnone] at htried
    exact ih hqueued.backtrack.toIsValid htried
  | case10 r b a atoms σ clause hcurrent p hp hbuilt c queued hc h0 n hn hb ih =>
    obtain ⟨hqueued, hcall⟩ := comesTo_choose hr hcurrent hp hbuilt hc h
    have htried := hcall.tried h0
    rw [Node.resolve?_branch, hn] at htried
    refine ih (hqueued.resume (Node.isOpen_of_resolve? (hr.current _ hcurrent).reachable hn)) ?_
    rw [branches_resume]
    exact htried

/-- Once the budget is exhausted, what was queued ends. -/
theorem IsQueued.next_exhausted (lookup : Lookup) (h : r.IsQueued)
    (hb : b.remaining = 0 ∧ b.exhausted = true) :
    (r.next lookup b).1 = none ∧ (r.next lookup b).2.2 = b := by
  obtain ⟨remaining, exhausted⟩ := b
  obtain ⟨rfl, rfl⟩ := hb
  obtain ⟨current, alternatives⟩ := r
  cases current with
  | none =>
    rw [Resolution.next]
    exact ⟨rfl, rfl⟩
  | some n =>
    obtain ⟨p, atoms, c, hn, happly, hp⟩ := (h.queued n rfl).call
    rw [hn, Resolution.next]
    dsimp only
    rw [happly]
    dsimp only
    rw [hp]
    exact ⟨rfl, rfl⟩

end Resolution

namespace Frame

variable {lookup : Lookup} {f : Frame} {b : Budget} {s : Search} {after : List Literal}
  {older : List Branch}

theorem IsValid.next_simulates (hf : f.IsValid)
    (h : s.ComesTo lookup (f.branches after ++ older) b) :
    Simulates lookup s after older (f.next lookup b) := by
  cases f with
  | ready σ =>
    cases σ with
    | none => exact .ended h
    | some σ => exact .answer (hf σ rfl) rfl h
  | resolving r => exact Resolution.next_simulates hf h

theorem IsQueued.next_exhausted (lookup : Lookup) (h : f.IsQueued)
    (hb : b.remaining = 0 ∧ b.exhausted = true) :
    (f.next lookup b).1 = none ∧ (f.next lookup b).2.2 = b := by
  cases f with
  | ready σ => exact ⟨h, rfl⟩
  | resolving r => exact Resolution.IsQueued.next_exhausted lookup h hb

/-- The branches of frames before some literals. -/
def branchesAll (literals : List Literal) : List Frame → List Branch
  | [] => []
  | f :: older => f.branches (literals.drop older.length) ++ branchesAll literals older

end Frame

/-! ## Solutions -/

namespace Solutions

variable {lookup : Lookup} {s t : Solutions} {search : Search}

def branches (s : Solutions) : List Branch := Frame.branchesAll s.literals s.frames

/-- Only the newest frame may be new. -/
inductive AreValid : List Frame → Prop where
  | nil : AreValid []
  | cons {f : Frame} {older : List Frame} (hf : f.IsValid) (holder : ∀ f ∈ older, f.IsQueued) :
    AreValid (f :: older)

theorem areValid_of_queued {frames : List Frame} (h : ∀ f ∈ frames, f.IsQueued) :
    AreValid frames := by
  cases frames with
  | nil => exact .nil
  | cons f older =>
    obtain ⟨hf, holder⟩ := List.forall_mem_cons.1 h
    exact .cons hf.isValid holder

/-- A search whose branches are those of the frames, on the same budget. -/
structure ReadAs (s : Solutions) (t : Search) : Prop where
  valid : AreValid s.frames
  splits : t.Splits s.branches s.budget

theorem readAs_start (g : Goal) {σ : Substitution} (hσ : σ.Reachable) (b : Budget) :
    (start g σ b).ReadAs ⟨[.goal g (σ.addVariables g)], b.remaining, b.exhausted⟩ where
  valid := by
    refine .cons (fun τ hτ => ?_) (List.forall_mem_nil _)
    obtain rfl := Option.some.inj hτ
    exact .addVariables g hσ
  splits := ⟨rfl, rfl, rfl⟩

/-- The frames are asked one by one when the budget is exhausted, and all of them end. -/
theorem next_exhausted (hs : ∀ f ∈ s.frames, f.IsQueued)
    (hb : s.budget.remaining = 0 ∧ s.budget.exhausted = true) :
    s.next lookup = (none, s.withFrames [] s.budget) := by
  obtain ⟨literals, queryVars, frames, b⟩ := s
  dsimp only at hs hb
  induction frames with
  | nil =>
    rw [next]
    rfl
  | cons f older ih =>
    obtain ⟨hf, holder⟩ := List.forall_mem_cons.1 hs
    obtain ⟨hnone, hbudget⟩ := hf.next_exhausted lookup hb
    rw [next]
    dsimp only
    split
    · rename_i b' hnext
      rw [hnext] at hbudget
      obtain rfl : b' = b := hbudget
      exact ih holder
    · rename_i hnext
      rw [hnext] at hnone
      cases hnone

/-- When the newest frame yields bindings, the search comes to the literals after it, and all frames
have been asked. -/
theorem comesTo_of_yield {frame f : Frame} {older : List Frame} {σ : Substitution} {b : Budget}
    (hs : AreValid s.frames) (hframes : s.frames = frame :: older)
    (hnext : frame.next lookup s.budget = (some σ, f, b))
    (h : search.ComesTo lookup s.branches s.budget) :
    σ.Reachable ∧ (∀ g ∈ f :: older, g.IsQueued) ∧ search.ComesTo lookup
      (.goal (s.literals.drop older.length) σ :: Frame.branchesAll s.literals (f :: older)) b := by
  rw [branches, hframes] at h
  rw [hframes] at hs
  cases hs with
  | cons hframe holder =>
    have hyield := hframe.next_simulates h
    rw [hnext] at hyield
    cases hyield with
    | answer hσ hf h => exact ⟨hσ, List.forall_mem_cons.2 ⟨hf, holder⟩, h⟩

/-- What the next answer is, and what is left after it. -/
structure Simulates (queryVars : List Var) (result : Option Substitution × Solutions)
    (found : Option Substitution × Search) : Prop where
  answer : result.1 = found.1.map fun σ => σ.restrict queryVars
  readAs : result.2.ReadAs found.2
  queryVars : result.2.queryVars = queryVars

/-- A negated goal, when the search inside it does what its frames do. -/
theorem Simulates.comesTo {queryVars : List Var} {found : Option Substitution} {inner : Solutions}
    {g : Goal} {todo : List Literal} {σ : Substitution} {bs : List Branch} {b : Budget}
    (hinner : Simulates queryVars (found, inner)
      (Search.next lookup ⟨[.goal g (σ.addVariables g)], b.remaining, b.exhausted⟩))
    (h : search.ComesTo lookup (.goal (.not g :: todo) σ :: bs) b) :
    search.ComesTo lookup (if found.isSome then bs else .goal todo σ :: bs)
      (b.after inner.budget) := by
  obtain ⟨hanswer, ⟨-, -, hsteps, hcut⟩, -⟩ := hinner
  have hmove := h.negation rfl
  rw [hsteps, hcut] at hmove
  dsimp only at hanswer
  rw [hanswer, Option.isSome_map]
  exact hmove

theorem next_simulates (hs : AreValid s.frames)
    (h : search.ComesTo lookup s.branches s.budget) :
    Simulates s.queryVars (s.next lookup) (search.next lookup) := by
  fun_induction Solutions.next lookup s generalizing search with
  | case1 s hframes =>
    rw [branches, hframes] at h
    rw [h.nil]
    refine ⟨rfl, ⟨hs, ?_⟩, rfl⟩
    rw [branches, hframes]
    exact ⟨rfl, rfl, rfl⟩
  | case2 s frame older hframes f b hnext hb ih =>
    rw [branches, hframes] at h
    rw [hframes] at hs
    cases hs with
    | cons hframe holder =>
      have hyield := hframe.next_simulates h
      rw [hnext] at hyield
      cases hyield with
      | ended h => exact ih (areValid_of_queued holder) h
      | exhausted hb h =>
        rw [h, next_exhausted holder hb]
        obtain ⟨remaining, exhausted⟩ := b
        obtain ⟨rfl, rfl⟩ := hb
        exact ⟨rfl, ⟨.nil, rfl, rfl, rfl⟩, rfl⟩
  | case3 s frame older hframes σ f b hnext hl =>
    obtain ⟨-, hqueued, h⟩ := comesTo_of_yield hs hframes hnext h
    rw [List.drop_eq_nil_of_le (List.getElem?_eq_none_iff.1 hl)] at h
    obtain ⟨t, ht, hsplits⟩ := h.answer
    rw [ht]
    exact ⟨rfl, ⟨areValid_of_queued hqueued, hsplits⟩, rfl⟩
  | case4 s frame older hframes σ f b hnext a hl hb ih =>
    obtain ⟨hσ, hqueued, h⟩ := comesTo_of_yield hs hframes hnext h
    refine ih (.cons (Resolution.isValid_ofAtom a hσ) hqueued) ?_
    show search.ComesTo lookup
      ((Resolution.ofAtom a σ).branches (s.literals.drop (older.length + 1)) ++ _) b
    rw [Resolution.branches_ofAtom, List.singleton_append]
    rwa [drop_eq_cons hl] at h
  | case5 s frame older hframes σ f b hnext g hl hb found inner hin hfound hb' ihin ih =>
    obtain ⟨hσ, hqueued, h⟩ := comesTo_of_yield hs hframes hnext h
    rw [drop_eq_cons hl] at h
    have hinner := ihin (readAs_start g hσ b).valid (readAs_start g hσ b).splits.comesTo
    rw [hin] at hinner
    have hmove := hinner.comesTo h
    rw [if_pos hfound] at hmove
    exact ih (areValid_of_queued hqueued) hmove
  | case6 s frame older hframes σ f b hnext g hl hb found inner hin hfound hb' ihin ih =>
    obtain ⟨hσ, hqueued, h⟩ := comesTo_of_yield hs hframes hnext h
    rw [drop_eq_cons hl] at h
    have hinner := ihin (readAs_start g hσ b).valid (readAs_start g hσ b).splits.comesTo
    rw [hin] at hinner
    have hmove := hinner.comesTo h
    rw [if_neg hfound] at hmove
    refine ih (.cons (fun τ hτ => ?_) hqueued) hmove
    obtain rfl := Option.some.inj hτ
    exact hσ

/-- The next answer, for frames that are read as a search. -/
theorem ReadAs.next (lookup : Lookup) (h : s.ReadAs search) :
    Simulates s.queryVars (s.next lookup) (search.next lookup) :=
  next_simulates h.valid h.splits.comesTo

theorem frames_of_next_none (lookup : Lookup) (s : Solutions)
    (h : (s.next lookup).1 = none) : (s.next lookup).2.frames = [] := by
  fun_induction Solutions.next lookup s with
  | case1 s hframes => exact hframes
  | case2 s frame older hframes f b hnext hb ih => exact ih h
  | case3 s frame older hframes σ f b hnext hl => cases h
  | case4 s frame older hframes σ f b hnext a hl hb ih => exact ih h
  | case5 s frame older hframes σ f b hnext g hl hb found inner hin hfound hb' ihin ih => exact ih h
  | case6 s frame older hframes σ f b hnext g hl hb found inner hin hfound hb' ihin ih => exact ih h

/-- What many answers are, and what is left after them. -/
structure SimulatesAll (queryVars : List Var) (result : List Substitution × Solutions)
    (found : List Substitution × Search) : Prop where
  answers : result.1 = found.1.map fun σ => σ.restrict queryVars
  readAs : result.2.ReadAs found.2

theorem ReadAs.rest (lookup : Lookup) (h : s.ReadAs search) :
    SimulatesAll s.queryVars (s.rest lookup) (search.rest lookup) ∧
      (s.rest lookup).2.frames = [] := by
  fun_induction Solutions.rest lookup s generalizing search with
  | case1 s t hnext =>
    have hsim := h.next lookup
    have hframes := frames_of_next_none lookup s (by rw [hnext])
    rw [hnext] at hsim hframes
    obtain ⟨hanswer, hread, -⟩ := hsim
    have hnone : search.next lookup = (none, (search.next lookup).2) :=
      Prod.ext (Option.map_eq_none_iff.1 hanswer.symm) rfl
    rw [Search.rest_of_next_none hnone]
    exact ⟨⟨rfl, hread⟩, hframes⟩
  | case2 s σ t hnext hb more ended hrest ih =>
    have hsim := h.next lookup
    rw [hnext] at hsim
    obtain ⟨hanswer, hread, hvars⟩ := hsim
    obtain ⟨τ, hτ, hrestrict⟩ := Option.map_eq_some_iff.1 hanswer.symm
    have hsome : search.next lookup = (some τ, (search.next lookup).2) := Prod.ext hτ rfl
    rw [Search.rest_of_next_some hsome]
    have hmore := ih hread
    dsimp only at hvars
    rw [hrest, hvars] at hmore
    obtain ⟨⟨hanswers, hread⟩, hframes⟩ := hmore
    refine ⟨⟨?_, hread⟩, hframes⟩
    dsimp only at hanswers ⊢
    rw [hanswers, List.map_cons, hrestrict]

theorem ReadAs.take (lookup : Lookup) (h : s.ReadAs search) (n : Nat) :
    SimulatesAll s.queryVars (s.take lookup n) (search.take lookup n) := by
  induction n generalizing s search with
  | zero => exact ⟨rfl, h⟩
  | succ n ih =>
    have hsim := h.next lookup
    rw [Solutions.take, Search.take]
    cases hnext : s.next lookup with
    | mk found t =>
      rw [hnext] at hsim
      obtain ⟨hanswer, hread, hvars⟩ := hsim
      dsimp only at hanswer hread hvars
      cases hsearch : search.next lookup with
      | mk answer? t' =>
        rw [hsearch] at hanswer hread
        subst hanswer
        cases answer? with
        | none => exact ⟨rfl, hread⟩
        | some τ =>
          obtain ⟨hanswers, hread⟩ := ih hread
          refine ⟨?_, hread⟩
          show _ :: _ = _
          rw [hanswers, hvars]
          rfl

end Solutions

namespace Goal

/-- The frames give the answers of the one stack, in its order, and end with its steps and its cut flag.
When all answers are wanted, no frame is left. -/
theorem solutions_eq_answersFrom (g : Goal) (lookup : Lookup) (steps : Nat) {σ : Substitution}
    (hσ : σ.Reachable) :
    (∀ most,
      (g.solutions lookup steps σ most).1 = (g.answersFrom lookup steps σ most).1 ∧
      (g.solutions lookup steps σ most).2.budget.remaining =
        (g.answersFrom lookup steps σ most).2.steps ∧
      (g.solutions lookup steps σ most).2.budget.exhausted =
        (g.answersFrom lookup steps σ most).2.cut) ∧
    (g.solutions lookup steps σ none).2.frames = [] := by
  have hstart := Solutions.readAs_start g hσ (.ofSteps steps)
  have hall := hstart.rest lookup
  refine ⟨fun most => ?_, hall.2⟩
  cases most with
  | none =>
    obtain ⟨hanswers, -, -, hsteps, hcut⟩ := hall.1
    exact ⟨hanswers, hsteps.symm, hcut.symm⟩
  | some n =>
    obtain ⟨hanswers, -, -, hsteps, hcut⟩ := hstart.take lookup n
    exact ⟨hanswers, hsteps.symm, hcut.symm⟩

theorem succeeds_eq (g : Goal) (lookup : Lookup) (steps : Nat) :
    g.succeeds lookup steps =
      ((Search.start g Substitution.empty steps).next lookup).1.isSome := by
  have hanswer := ((Solutions.readAs_start g .empty (.ofSteps steps)).next lookup).answer
  rw [succeeds, hanswer, Option.isSome_map]
  rfl

theorem solve_eq (g : Goal) (lookup : Lookup) (steps : Nat) :
    g.solve lookup steps =
      let (answers, ended) := g.answersFrom lookup steps Substitution.empty none
      if !answers.isEmpty then .answers answers
      else if ended.cut then .resourceLimit
      else .noAnswers := by
  obtain ⟨hanswers, -, hcut⟩ := (g.solutions_eq_answersFrom lookup steps .empty).1 none
  rw [solve]
  dsimp only
  rw [hanswers, hcut]

end Goal
end Horn
