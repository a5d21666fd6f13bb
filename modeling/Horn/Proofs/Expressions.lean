import Horn.Proofs.Reading

/-!
Reading printed expressions.  The grammar has one function for each level of binding, and each of
them reads the texts of the expressions that bind at least as tightly.  The functions of the
left-associative levels are stated by how they resume: after the tokens of an expression they go on
as their loop does with that expression on its left.
-/

namespace Horn
namespace Source

/-! ## What follows an expression -/

/-- How tightly a token takes what stands before it for its left operand. -/
def binding (t : Token) : Nat :=
  if t = .leftParen then 5
  else if t = .op "**" then 4
  else if (multiplicative? t).isSome then 3
  else if (additive? t).isSome then 2
  else if (comparison? t).isSome then 1
  else 0

/-- The next token binds less tightly than the given level. -/
def Below (n : Nat) (rest : List Token) : Prop := ∀ t, rest.head? = some t → binding t < n

section

variable {n : Nat} {t : Token} {rest : List Token}

theorem Below.mono {m : Nat} (h : Below n rest) (hnm : n ≤ m) : Below m rest :=
  fun t ht => Nat.lt_of_lt_of_le (h t ht) hnm

theorem below_cons (h : binding t < n) : Below n (t :: rest) := by
  rintro u hu
  obtain rfl : t = u := Option.some.inj hu
  exact h

theorem Below.not_leftParen (h : Below 5 rest) : rest.head? ≠ some .leftParen := fun ht =>
  absurd (h _ ht) (by decide)

theorem Below.not_power (h : Below 4 rest) : rest.head? ≠ some (.op "**") := fun ht =>
  absurd (h _ ht) (by decide)

theorem Below.multiplicative? (h : Below 3 rest) (ht : rest.head? = some t) :
    multiplicative? t = none := by
  have hlt := h t ht
  unfold binding at hlt
  repeat' split at hlt
  all_goals first | omega | simpa using ‹¬(Source.multiplicative? t).isSome = true›

theorem Below.additive? (h : Below 2 rest) (ht : rest.head? = some t) : additive? t = none := by
  have hlt := h t ht
  unfold binding at hlt
  repeat' split at hlt
  all_goals first | omega | simpa using ‹¬(Source.additive? t).isSome = true›

theorem Below.comparison? (h : Below 1 rest) (ht : rest.head? = some t) :
    comparison? t = none := by
  have hlt := h t ht
  unfold binding at hlt
  repeat' split at hlt
  all_goals first | omega | simpa using ‹¬(Source.comparison? t).isSome = true›

end

theorem binding_compareOp (op : CompareOp) : binding op.token = 1 := by
  cases op <;> rfl

/-! ## One level -/

/-- The reading goes on as the loop does with this expression on its left. -/
def Resumes {n : Nat} (r : Reading Expr n) (more : Expr → (c : Cursor) → Reading Expr (c.size + 1))
    (e : Expr) (rest : List Token) : Prop :=
  ∃ c, c.Stands rest ∧ ∀ v after, Gives (more e c) v after → Gives r v after

/-- The tokens are read as the expression by the function of a level and, with less after them, by
those of the levels below.  Level four is that of operands. -/
def ReadsAt : Nat → List Token → Expr → Prop
  | 1, ts, e => ∀ (c : Cursor) (rest : List Token), c.Stands (ts ++ rest) → Below 3 rest →
    Resumes (expr c) moreSummands e rest
  | 2, ts, e => ∀ (c : Cursor) (rest : List Token), c.Stands (ts ++ rest) → Below 4 rest →
    Resumes (product c) moreFactors e rest
  | 3, ts, e => ∀ (c : Cursor) (rest : List Token), c.Stands (ts ++ rest) → Below 4 rest →
    Gives (power c) e rest
  | _, ts, e => ∀ (c : Cursor) (rest : List Token), c.Stands (ts ++ rest) → Below 5 rest →
    Gives (unary c) e rest

section

variable {ts us rest : List Token} {e l r : Expr} {t : Token} {op : BinOp} {c : Cursor}

theorem ReadsAt.power (h : ReadsAt 4 ts e) : ReadsAt 3 ts e := by
  intro c rest hc hrest
  obtain ⟨⟨v, c1, h1⟩, hread, rfl, hst⟩ := h c rest hc (hrest.mono (by decide))
  rw [Source.power, hread]
  simp only [bind, Except.bind, hst.acceptToken_none hrest.not_power]
  exact gives_ok hst

theorem ReadsAt.product (h : ReadsAt 3 ts e) : ReadsAt 2 ts e := by
  intro c rest hc hrest
  obtain ⟨⟨v, c1, h1⟩, hread, rfl, hst⟩ := h c rest hc hrest
  refine ⟨c1, hst, ?_⟩
  rintro w after ⟨⟨w, c2, h2⟩, hmore, rfl, hst2⟩
  rw [Source.product, hread]
  simp only [bind, Except.bind, hmore]
  exact gives_ok hst2

theorem ReadsAt.gives_product (h : ReadsAt 2 ts e) (hc : c.Stands (ts ++ rest))
    (hrest : Below 3 rest) : Gives (Source.product c) e rest := by
  obtain ⟨c1, hst, hresumes⟩ := h c rest hc (hrest.mono (by decide))
  refine hresumes e rest ?_
  rw [moreFactors, hst.accept_none fun t ht => hrest.multiplicative? ht]
  exact gives_ok hst

theorem ReadsAt.sum (h : ReadsAt 2 ts e) : ReadsAt 1 ts e := by
  intro c rest hc hrest
  obtain ⟨⟨v, c1, h1⟩, hread, rfl, hst⟩ := h.gives_product hc hrest
  refine ⟨c1, hst, ?_⟩
  rintro w after ⟨⟨w, c2, h2⟩, hmore, rfl, hst2⟩
  rw [expr, hread]
  simp only [bind, Except.bind, hmore]
  exact gives_ok hst2

theorem ReadsAt.gives_expr (h : ReadsAt 1 ts e) (hc : c.Stands (ts ++ rest))
    (hrest : Below 2 rest) : Gives (expr c) e rest := by
  obtain ⟨c1, hst, hresumes⟩ := h c rest hc (hrest.mono (by decide))
  refine hresumes e rest ?_
  rw [moreSummands, hst.accept_none fun t ht => hrest.additive? ht]
  exact gives_ok hst

/-- An expression that one level reads is read by the levels below. -/
theorem ReadsAt.mono {m n : Nat} (h : ReadsAt n ts e) (hm : 1 ≤ m) (hmn : m ≤ n) (hn : n ≤ 4) :
    ReadsAt m ts e := by
  induction hmn with
  | refl => exact h
  | @step n hmn ih =>
    refine ih ?_ (by omega)
    have hle : m ≤ n := hmn
    have hcases : n = 1 ∨ n = 2 ∨ n = 3 := by omega
    rcases hcases with rfl | rfl | rfl
    · exact h.sum
    · exact h.product
    · exact h.power

/-! ## Operands and operators -/

/-- Anything in parentheses is an operand. -/
theorem ReadsAt.parenthesised (h : ReadsAt 1 ts e) :
    ReadsAt 4 (.leftParen :: (ts ++ [.rightParen])) e := by
  intro c rest hc _
  have hminus : c.current ≠ .op "-" := by
    rw [hc.current]
    decide
  obtain ⟨c1, h1, hread1, hst1⟩ := hc.acceptToken
  have hst1 : c1.Stands (ts ++ .rightParen :: rest) := by simpa using hst1
  obtain ⟨⟨v, c2, h2⟩, hread2, rfl, hst2⟩ := h.gives_expr hst1 (below_cons (by decide))
  obtain ⟨c3, h3, hread3, hst3⟩ := hst2.expect
  rw [unary, if_neg hminus, primary, hread1]
  simp only [bind, Except.bind, hread2, hread3]
  exact gives_ok hst3

theorem ReadsAt.pow (hl : ReadsAt 4 ts l) (hr : ReadsAt 3 us r) :
    ReadsAt 3 (ts ++ .op "**" :: us) (.binary .pow l r) := by
  intro c rest hc hrest
  rw [List.append_assoc] at hc
  obtain ⟨⟨v, c1, h1⟩, hread1, rfl, hst1⟩ := hl c _ hc (below_cons (by decide))
  obtain ⟨c2, h2, hread2, hst2⟩ := hst1.acceptToken
  obtain ⟨⟨w, c3, h3⟩, hread3, rfl, hst3⟩ := hr c2 rest hst2 hrest
  rw [Source.power, hread1]
  simp only [bind, Except.bind, hread2, hread3]
  exact gives_ok hst3

theorem ReadsAt.mul (hl : ReadsAt 2 ts l) (hr : ReadsAt 3 us r) (ht : multiplicative? t = some op)
    (hbinding : binding t = 3) : ReadsAt 2 (ts ++ t :: us) (.binary op l r) := by
  intro c rest hc hrest
  rw [List.append_assoc] at hc
  obtain ⟨c1, hst1, hresumes⟩ := hl c _ hc (below_cons (by omega))
  obtain ⟨c2, h2, hread2, hst2⟩ := hst1.accept ht
  obtain ⟨⟨w, c3, h3⟩, hread3, rfl, hst3⟩ := hr c2 rest hst2 hrest
  refine ⟨c3, hst3, ?_⟩
  rintro w after ⟨⟨w, c4, h4⟩, hmore, rfl, hst4⟩
  refine hresumes w after ?_
  rw [moreFactors, hread2]
  simp only [bind, Except.bind, hread3, hmore]
  exact gives_ok hst4

theorem ReadsAt.add (hl : ReadsAt 1 ts l) (hr : ReadsAt 2 us r) (ht : additive? t = some op)
    (hbinding : binding t = 2) : ReadsAt 1 (ts ++ t :: us) (.binary op l r) := by
  intro c rest hc hrest
  rw [List.append_assoc] at hc
  obtain ⟨c1, hst1, hresumes⟩ := hl c _ hc (below_cons (by omega))
  obtain ⟨c2, h2, hread2, hst2⟩ := hst1.accept ht
  obtain ⟨⟨w, c3, h3⟩, hread3, rfl, hst3⟩ := hr.gives_product hst2 hrest
  refine ⟨c3, hst3, ?_⟩
  rintro w after ⟨⟨w, c4, h4⟩, hmore, rfl, hst4⟩
  refine hresumes w after ?_
  rw [moreSummands, hread2]
  simp only [bind, Except.bind, hread3, hmore]
  exact gives_ok hst4

theorem ReadsAt.neg (h : ReadsAt 1 ts e) :
    ReadsAt 4 (.op "-" :: .leftParen :: (ts ++ [.rightParen])) (.neg e) := by
  intro c rest hc hrest
  obtain ⟨c1, h1, hread1, hst1⟩ := hc.expect
  obtain ⟨⟨v, c2, h2⟩, hread2, rfl, hst2⟩ := h.parenthesised c1 rest hst1 hrest
  rw [unary, if_pos hc.current, hc.peek]
  simp only [bind, Except.bind, isNumber, Bool.false_eq_true, if_false, hread1, hread2]
  exact gives_ok hst2

theorem ReadsAt.call (h : ReadsAt 1 ts e) (f : MathFn) :
    ReadsAt 4 (callTokens f.name ts) (.call f e) := by
  intro c rest hc _
  rw [callTokens_append] at hc
  have hminus : c.current ≠ .op "-" := by
    rw [hc.current]
    nofun
  obtain ⟨c1, h1, hread1, hst1⟩ := hc.acceptCall (f := function?) (MathFn.ofName?_name f)
  obtain ⟨⟨v, c2, h2⟩, hread2, rfl, hst2⟩ := h.gives_expr hst1 (below_cons (by decide))
  obtain ⟨c3, h3, hread3, hst3⟩ := hst2.expect
  rw [unary, if_neg hminus, primary, hc.acceptToken_none (by simp)]
  simp only [bind, Except.bind, hread1, hread2, hread3]
  exact gives_ok hst3

end

/-- A minus before a number is read as part of it. -/
theorem unary_number {c : Cursor} {u : Token} {us rest : List Token} {x : Term}
    (hc : c.Stands (.op "-" :: u :: us)) (hu : isNumber u = true) (h : Gives (term c) x rest) :
    Gives (unary c) (.term x) rest := by
  obtain ⟨⟨x, c1, h1⟩, hread, rfl, hst⟩ := h
  rw [unary, if_pos hc.current, hc.peek]
  simp only [bind, Except.bind, hu, if_true, hread]
  exact gives_ok hst

/-- What starts with no sign, parenthesis or function call is read as a term. -/
theorem unary_term {c : Cursor} {u : Token} {us rest : List Token} {x : Term}
    (hc : c.Stands (u :: us)) (hminus : u ≠ .op "-") (hopen : u ≠ .leftParen)
    (hcall : us.head? = some .leftParen → function? u = none) (h : Gives (term c) x rest) :
    Gives (unary c) (.term x) rest := by
  obtain ⟨⟨x, c1, h1⟩, hread, rfl, hst⟩ := h
  have hcurrent : c.current ≠ .op "-" := by rwa [hc.current]
  have hnocall : c.acceptCall function? = .ok none := by
    refine hc.acceptCall_none fun t more htm => ?_
    cases htm
    exact hcall rfl
  rw [unary, if_neg hcurrent, primary, hc.acceptToken_none (by simpa using hopen)]
  simp only [bind, Except.bind, hnocall, hread]
  exact gives_ok hst

/-- A term that is an operand is read as a term. -/
theorem readsAt_term {t : Term} (ht : Legible t) (hop : t.isOperand = true) :
    ReadsAt 4 t.tokens (.term (readBack t)) := by
  intro c rest hc hrest
  have hread := hc.term ht hrest.not_leftParen
  cases t with
  | const k =>
    cases k with
    | int n =>
      rw [Term.tokens, Constant.tokens, intTokens] at hc
      split at hc
      · exact unary_number hc rfl hread
      · exact unary_term hc (by simp) (by simp) (fun _ => rfl) hread
    | float x =>
      rw [Term.tokens, Constant.tokens, floatTokens] at hc
      split at hc
      · exact unary_number hc rfl hread
      · exact unary_term hc (by simp) (by simp) (fun _ => rfl) hread
    | symbol s =>
      exact unary_term hc (by simp) (by simp)
        (fun h => absurd h hrest.not_leftParen) hread
  | var v => exact unary_term hc (by simp) (by simp) (fun _ => rfl) hread
  | compound f args =>
    have hf : function? (.atom f) = none := Option.isNone_iff_eq_none.1 hop
    exact unary_term hc (by simp) (by simp) (fun _ => hf) hread
  | list items tail => exact unary_term hc (by simp) (by simp) (fun _ => rfl) hread
  | placeholder p =>
    obtain ⟨g, typeName⟩ := p
    cases g with
    | output => cases hop
    | input => exact unary_term hc (by simp [Sign.text]) (by simp) (fun _ => rfl) hread
    | constant => exact unary_term hc (by simp [Sign.text]) (by simp) (fun _ => rfl) hread

/-! ## Expressions -/

/-- The level of an expression. -/
def level : Expr → Nat
  | .binary op _ _ => op.precedence
  | _ => 4

theorem level_bounds (e : Expr) : 1 ≤ level e ∧ level e ≤ 4 := by
  cases e with
  | binary op l r => cases op <;> simp [level, BinOp.precedence]
  | _ => simp [level]

/-- An operand is read at the least level it may have: it has this level, or parentheses. -/
theorem readsAt_operand {e : Expr} (h : ReadsAt (level e) e.tokens (readBack e)) {least : Nat}
    (hlow : 1 ≤ least) (hhigh : least ≤ 4) :
    ReadsAt least (Expr.enclosed (e.needsParens least) e.tokens) (readBack e) := by
  have hbounds := level_bounds e
  have hparens : e.needsParens least = decide (level e < least) := by
    cases e with
    | binary op l r => rfl
    | _ => exact (decide_eq_false (by simpa [level] using hhigh)).symm
  rw [hparens]
  by_cases hlt : level e < least
  · have hall := (h.mono (by decide) hbounds.1 hbounds.2).parenthesised
    simpa [Expr.enclosed, hlt] using hall.mono hlow hhigh (by decide)
  · simpa [Expr.enclosed, hlt] using h.mono hlow (by omega) hbounds.2

theorem readsAt_expr {e : Expr} (h : e.IsLegible) : ReadsAt (level e) e.tokens (readBack e) := by
  induction e with
  | term t => exact readsAt_term h.1 h.2
  | binary op l r ihl ihr =>
    have hleft : ∀ least, 1 ≤ least → least ≤ 4 → _ := fun least => readsAt_operand (ihl h.1)
    have hright : ∀ least, 1 ≤ least → least ≤ 4 → _ := fun least => readsAt_operand (ihr h.2)
    cases op with
    | pow => exact (hleft 4 (by decide) (by decide)).pow (hright 3 (by decide) (by decide))
    | add => exact (hleft 1 (by decide) (by decide)).add (hright 2 (by decide) (by decide)) rfl rfl
    | sub => exact (hleft 1 (by decide) (by decide)).add (hright 2 (by decide) (by decide)) rfl rfl
    | mul | div | intDiv | mod =>
      exact (hleft 2 (by decide) (by decide)).mul (hright 3 (by decide) (by decide)) rfl rfl
  | neg e ih =>
    exact ((ih h).mono (by decide) (level_bounds e).1 (level_bounds e).2).neg
  | call f e ih =>
    exact ((ih h).mono (by decide) (level_bounds e).1 (level_bounds e).2).call f

/-- Reading a printed expression before anything that does not go on with it. -/
theorem Cursor.Stands.expr {e : Expr} {c : Cursor} {rest : List Token} (he : e.IsLegible)
    (hc : c.Stands (e.tokens ++ rest)) (hrest : Below 2 rest) :
    Gives (expr c) (readBack e) rest :=
  ((readsAt_expr he).mono (by decide) (level_bounds e).1 (level_bounds e).2).gives_expr hc hrest

end Source
end Horn
