import Horn.Resolution

/-!
The answers of a goal, one at a time.  Every literal has a frame of its own, and the frames of the
literals solved so far stand on a stack: the first yields the bindings the goal is asked with, the
others yield the bindings that solve their literal.  An atom is solved by a resolution, which keeps
the atoms still to be proved on the branch it is on, and a stack of alternatives with one entry for
each clause that some atom is still to be tried with.  When a clause is due and no step is left, the
resolution ends; the frames before it are asked again and end in the same way.

`Horn.Resolution` has the same search as one stack of branches, which is easier to reason about.
-/

namespace Horn

/-- The steps still available to a query, and whether a clause was due when there was none. -/
structure Budget where
  remaining : Nat
  exhausted : Bool

namespace Budget

def ofSteps (steps : Nat) : Budget := ⟨steps, false⟩

def spend (b : Budget) : Budget := { b with remaining := b.remaining - 1 }

def exhaust (b : Budget) : Budget := { b with exhausted := true }

/-- The budget after a nested query that took its steps from it. -/
def after (b inner : Budget) : Budget := ⟨min b.remaining inner.remaining, inner.exhausted⟩

theorem remaining_after_le (b inner : Budget) : (b.after inner).remaining ≤ b.remaining :=
  Nat.min_le_left _ _

end Budget

/-! ## Resolution of an atom -/

/-- A node of a derivation: the atoms still to be proved, the next one first. -/
structure Node where
  atoms : List Atom
  bindings : Substitution
  /-- The clause for the next atom, when the atom was queued again for this clause. -/
  clause : Option Clause

namespace Node

/-- Resolves a call with one clause: the clause is renamed apart, its head unified with the call and
its body put on top of the other atoms. -/
def resolve? (p : Predicate) (c : Clause) (atoms : List Atom) (σ : Substitution) : Option Node :=
  let (renamed, _, σ) := σ.rename [] c
  match renamed.headPredicate with
  | none => none
  | some head =>
    match σ.unifyPredicates p head with
    | .error _ => none
    | .ok τ => some ⟨renamed.body ++ atoms, τ, none⟩

/-- The size of a node before literals of some weight. -/
def weight (k : Nat) (n : Node) : Nat := n.atoms.length + k + 1

def weightAll (k : Nat) : List Node → Nat
  | [] => 0
  | n :: rest => n.weight k + weightAll k rest

end Node

/-- The enumeration of the bindings that prove one atom. -/
structure Resolution where
  current : Option Node
  /-- Where to go on when the current branch ends, the next one first. -/
  alternatives : List Node

namespace Resolution

def ofAtom (a : Atom) (σ : Substitution) : Resolution := ⟨some ⟨[a], σ, none⟩, []⟩

def ended : Resolution := ⟨none, []⟩

def resume (r : Resolution) (n : Node) : Resolution := { r with current := some n }

def backtrack (r : Resolution) : Resolution := ⟨r.alternatives.head?, r.alternatives.tail⟩

/-- Queues an atom again for each of some clauses.  The last clause goes first, so that the stack has
them in their order. -/
def queue (r : Resolution) (p : Predicate) (atoms : List Atom) (σ : Substitution)
    (clauses : List Clause) : Resolution :=
  let push (stack : List Node) (c : Clause) : List Node :=
    ⟨.predicate p :: atoms, σ, some c⟩ :: stack
  { r with alternatives := clauses.reverse.foldl push r.alternatives }

/-- The clause to try for an atom: the one it was queued for, or the first candidate, when it is
queued for the others. -/
def choose (lookup : Lookup) (r : Resolution) (p : Predicate) (atoms : List Atom)
    (σ : Substitution) : Option Clause → Option (Clause × Resolution)
  | some c => some (c, r)
  | none =>
    match lookup p with
    | [] => none
    | c :: others => some (c, r.queue p atoms σ others)

/-- The branches to be explored, the current one first. -/
def nodes (r : Resolution) : List Node := r.current.toList ++ r.alternatives

def weight (k : Nat) (r : Resolution) : Nat := Node.weightAll k r.nodes

@[simp] theorem nodes_backtrack (r : Resolution) : r.backtrack.nodes = r.alternatives := by
  cases h : r.alternatives <;> simp [nodes, backtrack, h]

@[simp] theorem nodes_resume (r : Resolution) (n : Node) :
    (r.resume n).nodes = n :: r.alternatives := rfl

theorem nodes_eq {r : Resolution} {n : Node} (h : r.current = some n) :
    r.nodes = n :: r.alternatives := by
  rw [nodes, h]
  rfl

theorem weight_ofAtom (a : Atom) (σ : Substitution) (k : Nat) : (ofAtom a σ).weight k ≤ k + 2 := by
  simp [weight, nodes, ofAtom, Node.weight, Node.weightAll]
  omega

theorem weight_backtrack {r : Resolution} {n : Node} (h : r.current = some n) (k : Nat) :
    r.backtrack.weight k + n.weight k = r.weight k := by
  rw [weight, weight, nodes_backtrack, nodes_eq h, Node.weightAll, Nat.add_comm]

/-- An atom less on the current branch. -/
theorem weight_resume {r : Resolution} {a : Atom} {atoms : List Atom} {σ τ : Substitution}
    {clause : Option Clause} (h : r.current = some ⟨a :: atoms, σ, clause⟩) (k : Nat) :
    (r.resume ⟨atoms, τ, clause⟩).weight k + 1 = r.weight k := by
  rw [weight, weight, nodes_resume, nodes_eq h]
  simp only [Node.weightAll, Node.weight, List.length_cons]
  omega

/-- What is left after some work: fewer steps, or no more steps and less to explore. -/
def Before (k : Nat) (r' : Resolution) (b' : Budget) (r : Resolution) (b : Budget) : Prop :=
  b'.remaining < b.remaining ∨ b'.remaining ≤ b.remaining ∧ r'.weight k < r.weight k

theorem Before.lex {k : Nat} {r r' : Resolution} {b b' : Budget} (h : Before k r' b' r b) :
    Prod.Lex (· < ·) (· < ·) (b'.remaining, r'.weight k) (b.remaining, r.weight k) := by
  rw [Prod.lex_def]
  unfold Before at h
  simp only
  omega

theorem before_backtrack {r : Resolution} {n : Node} (h : r.current = some n) (b : Budget)
    (k : Nat) : Before k r.backtrack b r b := by
  refine .inr ⟨Nat.le_refl _, ?_⟩
  rw [← weight_backtrack h, Node.weight]
  omega

theorem before_resume {r : Resolution} {a : Atom} {atoms : List Atom} {σ : Substitution}
    {clause : Option Clause} (h : r.current = some ⟨a :: atoms, σ, clause⟩) (τ : Substitution)
    (b : Budget) (k : Nat) : Before k (r.resume ⟨atoms, τ, clause⟩) b r b := by
  refine .inr ⟨Nat.le_refl _, ?_⟩
  rw [← weight_resume h]
  exact Nat.lt_succ_self _

theorem before_spend {b : Budget} (h : b.remaining ≠ 0) (r r' : Resolution) (k : Nat) :
    Before k r' b.spend r b :=
  .inl (Nat.sub_lt (Nat.pos_of_ne_zero h) Nat.one_pos)

/-- The next bindings that prove the atom; none when every branch has ended, or when a clause was due
and no step was left. -/
def next (lookup : Lookup) (r : Resolution) (b : Budget) :
    Option Substitution × Resolution × Budget :=
  match h : r.current with
  | none => (none, r, b)
  | some ⟨[], σ, _⟩ => (some σ, r.backtrack, b)
  | some ⟨a :: atoms, σ, clause⟩ =>
    match σ.apply a with
    | .compare c =>
      match c.solution? σ with
      | none =>
        have := before_backtrack h b 0
        next lookup r.backtrack b
      | some τ =>
        have := before_resume h τ b 0
        next lookup (r.resume ⟨atoms, τ, clause⟩) b
    | .predicate p =>
      match builtin? p with
      | some true =>
        have := before_resume h σ b 0
        next lookup (r.resume ⟨atoms, σ, clause⟩) b
      | some false =>
        have := before_backtrack h b 0
        next lookup r.backtrack b
      | none =>
        match r.choose lookup p atoms σ clause with
        | none =>
          have := before_backtrack h b 0
          next lookup r.backtrack b
        | some (c, queued) =>
          if hb : b.remaining = 0 then (none, ended, b.exhaust)
          else
            match Node.resolve? p c atoms σ with
            | none =>
              have := before_spend hb r queued.backtrack 0
              next lookup queued.backtrack b.spend
            | some n =>
              have := before_spend hb r (queued.resume n) 0
              next lookup (queued.resume n) b.spend
termination_by (b.remaining, r.weight 0)
decreasing_by all_goals exact Before.lex (by assumption)

/-- A result leaves less to do: the branch that gave an answer is gone. -/
def Leaves (k : Nat) (result : Option Substitution × Resolution × Budget) (r : Resolution)
    (b : Budget) : Prop :=
  result.2.2.remaining < b.remaining ∨ result.2.2.remaining ≤ b.remaining ∧
    (result.1.isSome → result.2.1.weight k + k < r.weight k)

theorem Before.leaves {k : Nat} {r r' : Resolution} {b b' : Budget}
    {result : Option Substitution × Resolution × Budget} (hb : Before k r' b' r b)
    (h : Leaves k result r' b') : Leaves k result r b := by
  rcases hb with hb | ⟨hb, hweight⟩ <;> rcases h with h | ⟨h, hresult⟩
  · exact .inl (Nat.lt_trans h hb)
  · exact .inl (Nat.lt_of_le_of_lt h hb)
  · exact .inl (Nat.lt_of_lt_of_le h hb)
  · exact .inr ⟨Nat.le_trans h hb, fun hsome => Nat.lt_trans (hresult hsome) hweight⟩

theorem next_leaves (lookup : Lookup) (r : Resolution) (b : Budget) (k : Nat) :
    Leaves k (next lookup r b) r b := by
  fun_induction next lookup r b with
  | case1 r b h => exact .inr ⟨Nat.le_refl _, nofun⟩
  | case2 r b σ clause h =>
    refine .inr ⟨Nat.le_refl _, fun _ => ?_⟩
    have hsum := weight_backtrack h k
    simp only [Node.weight, List.length_nil] at hsum
    show r.backtrack.weight k + k < r.weight k
    omega
  | case3 r b a atoms σ clause h c hc hnone hb ih => exact (before_backtrack h b k).leaves ih
  | case4 r b a atoms σ clause h c hc τ hτ hb ih => exact (before_resume h τ b k).leaves ih
  | case5 r b a atoms σ clause h p hp hbuilt hb ih => exact (before_resume h σ b k).leaves ih
  | case6 r b a atoms σ clause h p hp hbuilt hb ih => exact (before_backtrack h b k).leaves ih
  | case7 r b a atoms σ clause h p hp hbuilt hnone hb ih => exact (before_backtrack h b k).leaves ih
  | case8 r b a atoms σ clause h p hp hbuilt c queued hc h0 => exact .inr ⟨Nat.le_refl _, nofun⟩
  | case9 r b a atoms σ clause h p hp hbuilt c queued hc h0 hnone hb ih =>
    exact (before_spend h0 r queued.backtrack k).leaves ih
  | case10 r b a atoms σ clause h p hp hbuilt c queued hc h0 n hn hb ih =>
    exact (before_spend h0 r (queued.resume n) k).leaves ih

end Resolution

/-! ## Frames -/

/-- What yields the bindings that solve the literals up to one of them. -/
inductive Frame where
  /-- Yields bindings once, unless they are gone. -/
  | ready (σ : Option Substitution)
  | resolving (r : Resolution)

namespace Frame

def next (lookup : Lookup) : Frame → Budget → Option Substitution × Frame × Budget
  | .ready σ, b => (σ, .ready none, b)
  | .resolving r, b =>
    let (σ, r, b) := r.next lookup b
    (σ, .resolving r, b)

def weight (k : Nat) : Frame → Nat
  | .ready none => 0
  | .ready (some _) => k + 1
  | .resolving r => r.weight k

/-- The frames before literals, those of later literals first. -/
def weightAll (literals : List Literal) : List Frame → Nat
  | [] => 0
  | f :: older =>
    f.weight (2 * Literal.weightAll (literals.drop older.length)) + weightAll literals older + 1

theorem next_leaves (lookup : Lookup) (f : Frame) (b : Budget) (k : Nat) :
    (f.next lookup b).2.2.remaining < b.remaining ∨
      (f.next lookup b).2.2.remaining ≤ b.remaining ∧
        ((f.next lookup b).1.isSome → (f.next lookup b).2.1.weight k + k < f.weight k) := by
  cases f with
  | ready σ =>
    refine .inr ⟨Nat.le_refl _, fun h => ?_⟩
    cases σ with
    | none => cases h
    | some σ => exact Nat.lt_succ_of_le (Nat.le_of_eq (Nat.zero_add k))
  | resolving r => exact Resolution.next_leaves lookup r b k

theorem remaining_next_le {lookup : Lookup} {f f' : Frame} {b b' : Budget}
    {found : Option Substitution} (h : f.next lookup b = (found, f', b')) :
    b'.remaining ≤ b.remaining := by
  rcases next_leaves lookup f b 0 with hlt | ⟨hle, -⟩
  · rw [h] at hlt
    exact Nat.le_of_lt hlt
  · rwa [h] at hle

end Frame

theorem drop_eq_cons {literals : List Literal} {i : Nat} {l : Literal} (h : literals[i]? = some l) :
    literals.drop i = l :: literals.drop (i + 1) := by
  obtain ⟨hi, rfl⟩ := List.getElem?_eq_some_iff.1 h
  exact List.drop_eq_getElem_cons hi

/-- The answers of a goal that are still to come. -/
structure Solutions where
  literals : List Literal
  /-- The variables that answers are restricted to. -/
  queryVars : List Var
  /-- One frame for what the goal is asked with and one for each literal solved so far, the last one
  first. -/
  frames : List Frame
  budget : Budget

namespace Solutions

def start (g : Goal) (σ : Substitution) (b : Budget) : Solutions :=
  ⟨g, «variables» g, [.ready (some (σ.addVariables g))], b⟩

/-- The same goal with other frames and another budget. -/
def withFrames (s : Solutions) (frames : List Frame) (b : Budget) : Solutions :=
  { s with frames := frames, budget := b }

def weight (s : Solutions) : Nat := Frame.weightAll s.literals s.frames

/-- Less is left to do: fewer steps, or no more steps and smaller frames. -/
def Before (t s : Solutions) : Prop :=
  t.budget.remaining < s.budget.remaining ∨
    t.budget.remaining ≤ s.budget.remaining ∧ t.weight < s.weight

theorem Before.lex {s t : Solutions} (h : Before t s) :
    Prod.Lex (· < ·) (· < ·) (t.budget.remaining, t.weight) (s.budget.remaining, s.weight) := by
  rw [Prod.lex_def]
  unfold Before at h
  simp only
  omega

theorem Before.trans {s t u : Solutions} (h : Before u t) (h' : Before t s) : Before u s := by
  unfold Before at *
  omega

theorem before_popped {s : Solutions} {frame : Frame} {older : List Frame} {b : Budget}
    (h : s.frames = frame :: older) (hb : b.remaining ≤ s.budget.remaining) :
    Before (s.withFrames older b) s := by
  refine .inr ⟨hb, ?_⟩
  rw [weight, weight, h, Frame.weightAll]
  show Frame.weightAll s.literals older < _
  omega

section

variable {lookup : Lookup} {s t : Solutions} {frame after : Frame} {older : List Frame}
  {σ : Substitution} {b : Budget}

/-- A frame that yields bindings leaves room for the literals after it. -/
theorem before_of_yield (h : s.frames = frame :: older)
    (hf : frame.next lookup s.budget = (some σ, after, b)) {k : Nat}
    (hk : 2 * Literal.weightAll (s.literals.drop older.length) = k)
    (hb : t.budget.remaining ≤ b.remaining)
    (ht : t.weight ≤ after.weight k + k + Frame.weightAll s.literals older + 1) : Before t s := by
  have hleaves := Frame.next_leaves lookup frame s.budget k
  rw [hf] at hleaves
  rcases hleaves with hlt | ⟨hle, hweight⟩
  · exact .inl (Nat.lt_of_le_of_lt hb hlt)
  · refine .inr ⟨Nat.le_trans hb hle, ?_⟩
    have hweight := hweight rfl
    refine Nat.lt_of_le_of_lt ht ?_
    rw [weight, h, Frame.weightAll, hk]
    dsimp only at hweight
    omega

theorem before_retry (h : s.frames = frame :: older)
    (hf : frame.next lookup s.budget = (some σ, after, b)) {b' : Budget}
    (hb : b'.remaining ≤ b.remaining) : Before (s.withFrames (after :: older) b') s := by
  refine before_of_yield h hf rfl hb ?_
  show Frame.weightAll s.literals (after :: older) ≤ _
  rw [Frame.weightAll]
  omega

/-- The frame of the next literal weighs less than the literal. -/
theorem before_push (h : s.frames = frame :: older)
    (hf : frame.next lookup s.budget = (some σ, after, b)) {l : Literal}
    (hl : s.literals[older.length]? = some l) (f : Frame) (hweight : ∀ k, f.weight k ≤ k + 2)
    {b' : Budget} (hb : b'.remaining ≤ b.remaining) :
    Before (s.withFrames (f :: after :: older) b') s := by
  refine before_of_yield h hf rfl hb ?_
  show Frame.weightAll s.literals (f :: after :: older) ≤ _
  have hnew := hweight (2 * Literal.weightAll (s.literals.drop (older.length + 1)))
  have hliteral : 2 ≤ l.weight := by cases l <;> simp [Literal.weight]
  rw [Frame.weightAll, Frame.weightAll, List.length_cons, drop_eq_cons hl, Literal.weightAll]
  omega

theorem before_inside (h : s.frames = frame :: older)
    (hf : frame.next lookup s.budget = (some σ, after, b)) {g : Goal}
    (hl : s.literals[older.length]? = some (.not g)) : Before (start g σ b) s := by
  refine before_of_yield h hf rfl (Nat.le_refl _) ?_
  show Frame.weightAll g [.ready (some (σ.addVariables g))] ≤ _
  rw [drop_eq_cons hl, Literal.weightAll, Literal.weight]
  simp only [Frame.weightAll, Frame.weight, List.length_nil, List.drop_zero]
  omega

end

/-- The next answer, restricted to the variables of the goal.  Frames that yield nothing more go, and
the one before is asked again. -/
def next (lookup : Lookup) (s : Solutions) : Option Substitution × Solutions :=
  match h : s.frames with
  | [] => (none, s)
  | frame :: older =>
    match hf : frame.next lookup s.budget with
    | (none, _, b) =>
      have := before_popped h (Frame.remaining_next_le hf)
      next lookup (s.withFrames older b)
    | (some σ, after, b) =>
      match hl : s.literals[older.length]? with
      | none => (some (σ.restrict s.queryVars), s.withFrames (after :: older) b)
      | some (.atom a) =>
        have := before_push h hf hl (.resolving (.ofAtom a σ)) (Resolution.weight_ofAtom a σ) (Nat.le_refl _)
        next lookup (s.withFrames (.resolving (.ofAtom a σ) :: after :: older) b)
      | some (.not g) =>
        have := before_inside h hf hl
        let (found, inner) := next lookup (start g σ b)
        if found.isSome then
          have := before_retry h hf (b.remaining_after_le inner.budget)
          next lookup (s.withFrames (after :: older) (b.after inner.budget))
        else
          have := before_push h hf hl (.ready (some σ)) (fun _ => Nat.le_succ _) (b.remaining_after_le inner.budget)
          next lookup (s.withFrames (.ready (some σ) :: after :: older) (b.after inner.budget))
termination_by (s.budget.remaining, s.weight)
decreasing_by all_goals exact Before.lex (by assumption)

/-- A result leaves less to do, except when there is no answer. -/
def Leaves (result : Option Substitution × Solutions) (s : Solutions) : Prop :=
  Before result.2 s ∨ result.1 = none ∧ result.2.budget.remaining ≤ s.budget.remaining

theorem Before.leaves {s t : Solutions} {result : Option Substitution × Solutions}
    (ht : Before t s) (h : Leaves result t) : Leaves result s := by
  have hle : t.budget.remaining ≤ s.budget.remaining := by
    unfold Before at ht
    omega
  rcases h with h | ⟨hnone, h⟩
  · exact .inl (h.trans ht)
  · exact .inr ⟨hnone, Nat.le_trans h hle⟩

theorem next_leaves (lookup : Lookup) (s : Solutions) : Leaves (next lookup s) s := by
  fun_induction next lookup s with
  | case1 s h => exact .inr ⟨rfl, Nat.le_refl _⟩
  | case2 s frame older h after b hf hb ih => exact hb.leaves ih
  | case3 s frame older h σ after b hf hl => exact .inl (before_retry h hf (Nat.le_refl _))
  | case4 s frame older h σ after b hf a hl hb ih => exact hb.leaves ih
  | case5 s frame older h σ after b hf g hl hb found inner hin hfound hb' ihin ih =>
    exact hb'.leaves ih
  | case6 s frame older h σ after b hf g hl hb found inner hin hfound hb' ihin ih =>
    exact hb'.leaves ih

/-- After an answer there is less left to do. -/
theorem before_of_next {lookup : Lookup} {s t : Solutions} {σ : Substitution}
    (h : next lookup s = (some σ, t)) : Before t s := by
  rcases next_leaves lookup s with hb | ⟨hn, _⟩
  · simpa [h] using hb
  · simp [h] at hn

/-- All further answers, and what is left when there are no more. -/
def rest (lookup : Lookup) (s : Solutions) : List Substitution × Solutions :=
  match h : next lookup s with
  | (none, t) => ([], t)
  | (some σ, t) =>
    have := before_of_next h
    let (more, ended) := rest lookup t
    (σ :: more, ended)
termination_by (s.budget.remaining, s.weight)
decreasing_by exact Before.lex this

/-- The next answers, at most the given number of them. -/
def take (lookup : Lookup) (s : Solutions) : Nat → List Substitution × Solutions
  | 0 => ([], s)
  | n + 1 =>
    match next lookup s with
    | (none, t) => ([], t)
    | (some σ, t) =>
      let (more, t) := take lookup t n
      (σ :: more, t)

end Solutions

/-- What becomes of a goal whose answers are all wanted. -/
inductive QueryResult where
  /-- The answers in the order of the search, restricted to the goal's variables. -/
  | answers (answers : List Substitution)
  /-- The goal was searched to the end. -/
  | noAnswers
  /-- There was no answer before the steps ran out. -/
  | resourceLimit

namespace Goal

/-- All answers from given bindings, or as many as wanted, and what is left after the last of them. -/
def solutions (g : Goal) (lookup : Lookup) (steps : Nat) (σ : Substitution) (most : Option Nat) :
    List Substitution × Solutions :=
  let s := Solutions.start g σ (.ofSteps steps)
  match most with
  | none => s.rest lookup
  | some n => s.take lookup n

/-- Whether a goal has an answer within so many steps. -/
def succeeds (g : Goal) (lookup : Lookup) (steps : Nat) : Bool :=
  ((Solutions.start g Substitution.empty (.ofSteps steps)).next lookup).1.isSome

/-- All answers of a goal within so many steps. -/
def solve (g : Goal) (lookup : Lookup) (steps : Nat) : QueryResult :=
  let (answers, ended) := g.solutions lookup steps Substitution.empty none
  if !answers.isEmpty then .answers answers
  else if ended.budget.exhausted then .resourceLimit
  else .noAnswers

end Goal
end Horn
