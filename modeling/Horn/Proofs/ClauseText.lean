import Horn.Proofs.Statements

/-!
Clauses whose text says all of them.  Reading back the text of a legible clause gives its variables
the names that their texts have; where these texts are the symbols of the variables and no name
stands for something else, the clause read is the clause printed.
-/

namespace Horn

open Source

/-- A name that stands for neither a negation nor an arithmetic function. -/
def IsOrdinaryName (s : String) : Prop := s ≠ "not" ∧ MathFn.ofName? s = none

instance (s : String) : Decidable (IsOrdinaryName s) :=
  inferInstanceAs (Decidable (s ≠ "not" ∧ MathFn.ofName? s = none))

/-- A term whose outermost part is read from its text as it is. -/
def Term.IsExact : Term → Prop
  | .const (.int n) => n ≠ Int64.minValue
  | .const (.float x) => x.IsFinite
  | .const (.symbol s) => '\n' ∉ s.toList
  | .var v => v.tally = 0 ∧ isVariableWord v.symbol = true ∧ v.symbol ≠ "_"
  | .compound f args => '\n' ∉ f.toList ∧ IsOrdinaryName f ∧ args ≠ []
  | .list items tail => ∀ t ∈ tail, items ≠ [] ∧ t.asList = none
  | .placeholder _ => False

instance : DecidablePred Term.IsExact
  | .const (.int n) => inferInstanceAs (Decidable (n ≠ Int64.minValue))
  | .const (.float x) => inferInstanceAs (Decidable (x.magnitude < Double.infinityMagnitude))
  | .const (.symbol s) => inferInstanceAs (Decidable ('\n' ∉ s.toList))
  | .var v => inferInstanceAs
    (Decidable (v.tally = 0 ∧ isVariableWord v.symbol = true ∧ v.symbol ≠ "_"))
  | .compound f args => inferInstanceAs (Decidable ('\n' ∉ f.toList ∧ IsOrdinaryName f ∧ args ≠ []))
  | .list items tail => inferInstanceAs (Decidable (∀ t ∈ tail, items ≠ [] ∧ t.asList = none))
  | .placeholder _ => inferInstanceAs (Decidable False)

/-- A form all of whose terms are read from its text as they are. -/
def Exact {α : Type} [HasTerms α] (x : α) : Prop := ∀ t ∈ HasTerms.subterms x, t.IsExact

instance {α : Type} [HasTerms α] (x : α) : Decidable (Exact x) :=
  inferInstanceAs (Decidable (∀ t ∈ HasTerms.subterms x, t.IsExact))

/-- A predicate whose name is read as a name. -/
def Predicate.IsOrdinary (p : Predicate) : Prop := '\n' ∉ p.name.toList ∧ IsOrdinaryName p.name

instance (p : Predicate) : Decidable p.IsOrdinary :=
  inferInstanceAs (Decidable ('\n' ∉ p.name.toList ∧ IsOrdinaryName p.name))

/-- An atom that is no predicate or an ordinary one. -/
def Atom.IsOrdinary (a : Atom) : Prop := ∀ p ∈ a.asPredicate, p.IsOrdinary

instance (a : Atom) : Decidable a.IsOrdinary :=
  inferInstanceAs (Decidable (∀ p ∈ a.asPredicate, p.IsOrdinary))

/-! ## Exact terms -/

theorem Var.text_of_tally {v : Var} (h : v.tally = 0) : v.text = v.symbol := if_pos h

theorem Term.IsExact.isLegible {t : Term} (h : t.IsExact) : t.IsLegible := by
  match t, h with
  | .const (.int _), h | .const (.float _), h | .const (.symbol _), h | .list _ _, h => exact h
  | .var v, ⟨htally, hword, hname⟩ =>
    rw [IsLegible, Var.text_of_tally htally]
    exact ⟨hword, hname⟩
  | .compound _ _, ⟨hline, _, hargs⟩ => exact ⟨hline, hargs⟩

theorem Term.IsExact.isOperand {t : Term} (h : t.IsExact) : t.isOperand = true := by
  match t, h with
  | .const _, _ | .var _, _ | .list _ _, _ => rfl
  | .compound _ _, ⟨_, hname, _⟩ => exact Option.isNone_iff_eq_none.2 hname.2

theorem Exact.legible {α : Type} [HasTerms α] {x : α} (h : Exact x) : Legible x :=
  fun t ht => (h t ht).isLegible

theorem Exact.self {t : Term} (h : Exact t) : t.IsExact := h t t.self_mem_subterms

theorem Exact.normal {α : Type} [HasTerms α] [LawfulTerms α] {x : α} (h : Exact x) : Normal x :=
  fun _ ht => Legible.isNormal fun _ hu => (h _ (LawfulTerms.subterms_subterms ht hu)).isLegible

/-- The texts of the variables of an exact form are their symbols, so reading it back changes
nothing. -/
theorem Exact.readBack_eq {α : Type} [HasTerms α] [LawfulTerms α] {x : α} (h : Exact x) :
    readBack x = x := by
  have hsame : readBack x = Valuation.identity.apply x := by
    refine instantiate_congr fun v hv => ?_
    obtain ⟨htally, -⟩ : v.tally = 0 ∧ _ := h _ hv
    obtain ⟨symbol, tally⟩ := v
    obtain rfl : tally = 0 := htally
    rfl
  rw [hsame, Valuation.apply_of_normal h.normal]

/-! ## Expressions and atoms -/

theorem Exact.isLegible_expr {e : Expr} (h : Exact e) : e.IsLegible := by
  induction e with
  | term t => exact ⟨h.legible, (Exact.self h).isOperand⟩
  | binary op l r ihl ihr =>
    exact ⟨ihl fun t ht => h t (List.mem_append_left _ ht),
      ihr fun t ht => h t (List.mem_append_right _ ht)⟩
  | neg e ih => exact ih h
  | call f e ih => exact ih h

/-- The tokens and what follows them do not open a negation. -/
def OpensNoNegation (ts : List Token) : Prop :=
  ∀ rest, rest.head? ≠ some .leftParen → opensCall "not" (ts ++ rest) = false

theorem opensNoNegation_term {t : Term} (h : t.IsExact) : OpensNoNegation t.tokens := by
  intro rest hrest
  have hword (s : String) : opensCall "not" (.atom s :: rest) = false := by
    match rest, hrest with
    | [], _ => rfl
    | u :: us, hrest => cases u <;> first | rfl | exact absurd rfl hrest
  match t, h with
  | .const (.int n), _ =>
    rw [Term.tokens, Constant.tokens, intTokens]
    split <;> rfl
  | .const (.float x), _ =>
    rw [Term.tokens, Constant.tokens, floatTokens]
    split <;> rfl
  | .const (.symbol s), _ =>
    rw [Term.tokens, Constant.tokens]
    exact hword s
  | .var v, _ => rw [Term.tokens]; rfl
  | .list items tail, _ => rw [Term.tokens]; rfl
  | .compound f args, ⟨_, hname, _⟩ =>
    rw [Term.tokens, callTokens_append]
    exact beq_eq_false_iff_ne.2 hname.1

theorem opensNoNegation_expr {e : Expr} (h : Exact e) : OpensNoNegation e.tokens := by
  induction e with
  | term t => exact opensNoNegation_term (Exact.self h)
  | binary op l r ihl ihr =>
    intro rest _
    rw [Expr.tokens, Expr.enclosed]
    split
    · rfl
    · -- an operator follows the left side
      rw [List.append_assoc]
      refine ihl (fun t ht => h t (List.mem_append_left _ ht)) _ fun hparen => ?_
      cases op <;> cases hparen
  | neg e ih => exact fun _ _ => rfl
  | call f e ih =>
    intro rest _
    rw [Expr.tokens, callTokens_append]
    cases f <;> rfl

/-- An ordinary predicate is read as a term. -/
theorem Predicate.IsOrdinary.expr_eq {p : Predicate} (h : p.IsOrdinary) :
    p.expr = .term (.app p.name p.args) := by
  rw [Predicate.expr, h.2.2]

theorem Predicate.IsOrdinary.exact_app {p : Predicate} (hp : p.IsOrdinary) (h : Exact p) :
    Exact (Term.app p.name p.args) := by
  unfold Term.app
  split
  next => exact List.forall_mem_singleton.2 hp.1
  next hne =>
    refine List.forall_mem_cons.2 ⟨⟨hp.1, hp.2, by simpa using hne⟩, fun u hu => ?_⟩
    obtain ⟨t, ht, hut⟩ := Term.mem_subtermsAll.1 hu
    exact h u (List.mem_flatMap.2 ⟨t, ht, hut⟩)

theorem Atom.IsOrdinary.isLegible {a : Atom} (ha : a.IsOrdinary) (h : Exact a) : a.IsLegible := by
  cases a with
  | predicate p =>
    have hp : p.IsOrdinary := ha p rfl
    rw [IsLegible, hp.expr_eq]
    exact Exact.isLegible_expr (hp.exact_app h)
  | compare k =>
    exact ⟨Exact.isLegible_expr fun t ht => h t (List.mem_append_left _ ht),
      Exact.isLegible_expr fun t ht => h t (List.mem_append_right _ ht)⟩

theorem Atom.IsOrdinary.not_negation {a : Atom} (ha : a.IsOrdinary) (h : Exact a) :
    opensCall "not" a.tokens = false := by
  cases a with
  | predicate p =>
    have hp : p.IsOrdinary := ha p rfl
    have hopens := opensNoNegation_term (hp.exact_app h).self [] nofun
    rwa [List.append_nil, show (Term.app p.name p.args).tokens = (Atom.predicate p).tokens by
      rw [Atom.tokens, hp.expr_eq, Expr.tokens]] at hopens
  | compare k =>
    refine opensNoNegation_expr (fun t ht => h t (List.mem_append_left _ ht)) _ fun hparen => ?_
    generalize k.op = op at hparen
    cases op <;> cases hparen

/-! ## Clauses -/

namespace Source

/-- The point that ends a text. -/
theorem lexed_append_dot {s : String} {ts : List Token} (h : Spells s ts) :
    lexed (s ++ ".").toList = (ts ++ [.dot], none) := by
  have hdot : lexed ['.'] = before [.dot] (lexed []) :=
    lexed_cons rfl (by decide) (fun hc => absurd hc (by decide)) rfl
  rw [String.toList_append, h ".".toList rfl]
  exact congrArg (before ts) (hdot.trans (by rw [lexed_nil]))

theorem Cursor.Stands.skipToken {t : Token} {c : Cursor} {rest : List Token}
    (hc : c.Stands (t :: rest)) : ∃ c1, skipToken c t = .ok c1 ∧ c1.Stands rest := by
  obtain ⟨c1, h1, hread, hst⟩ := hc.acceptToken
  exact ⟨c1, by rw [Source.skipToken, hread]; rfl, hst⟩

/-- The text of a legible rule or fact is read as the clause with the variables that the texts of its
variables name. -/
theorem parseClause_legible {k : Clause} {p : Predicate} (hhead : ∀ a ∈ k.head, a.IsLegible)
    (hbody : ∀ a ∈ k.body, a.IsLegible) (hnot : ∀ a ∈ k.body, opensCall "not" a.tokens = false)
    (hp : k.headPredicate = some p) : parseClause (k.text ++ ".") = .ok (readBack k) := by
  obtain ⟨c, hstart, hst⟩ := exists_start_of_lexed (lexed_append_dot (spells_clause hhead hbody))
  obtain ⟨⟨k', c1, h1⟩, hread1, rfl, hst1⟩ := hst.clause hhead hbody hnot hp
  obtain ⟨c2, hread2, hst2⟩ := hst1.skipToken
  have hend : c2.expectEnd = .ok () := if_pos hst2.current_nil
  rw [parseClause, reading, hstart]
  simp only [bind, Except.bind, hread1, hread2, hend]
  rfl

/-- A rule or a fact whose terms are exact and whose predicates have ordinary names is what its text
is read as. -/
theorem parseClause_text {p : Predicate} {body : List Atom}
    (hexact : Exact (Clause.rule (.predicate p) body)) (hhead : p.IsOrdinary)
    (hbody : ∀ a ∈ body, a.IsOrdinary) :
    parseClause ((Clause.rule (.predicate p) body).text ++ ".") =
      .ok (Clause.rule (.predicate p) body) := by
  have hp : (Atom.predicate p).IsOrdinary := fun q hq => Option.some.inj hq ▸ hhead
  have hpexact : Exact (Atom.predicate p) := fun t ht => hexact t (List.mem_append_left _ ht)
  have hbexact : ∀ a ∈ body, Exact a := fun a ha t ht =>
    hexact t (List.mem_append_right _ (List.mem_flatMap.2 ⟨a, ha, ht⟩))
  have hhead : ∀ a ∈ (Clause.rule (.predicate p) body).head, a.IsLegible :=
    fun a ha => Option.some.inj ha ▸ hp.isLegible hpexact
  have hlegible : ∀ a ∈ (Clause.rule (.predicate p) body).body, a.IsLegible :=
    fun a ha => (hbody a ha).isLegible (hbexact a ha)
  have hnot : ∀ a ∈ (Clause.rule (.predicate p) body).body, opensCall "not" a.tokens = false :=
    fun a ha => (hbody a ha).not_negation (hbexact a ha)
  rw [parseClause_legible hhead hlegible hnot rfl, hexact.readBack_eq]

/-- Parentheses around a difference on the right and around a power that is raised again, a negative
number, a function, a quoted name and a list that stays open. -/
theorem parseClause_text_rule :
    let a : Term := .var (.named "A")
    let b : Term := .var (.named "B")
    let power : Expr := .binary .pow (.binary .pow (.term a) (.term (.int 2))) (.neg (.term b))
    let difference : Expr := .binary .sub (.term (.int (-3)))
      (.binary .sub (.call .abs power) (.term (.const (.float ⟨0x4004000000000000⟩))))
    let p : Predicate := ⟨"large", [a, .compound "Big one" [.list [b] (some a)]]⟩
    let body : List Atom :=
      [.predicate ⟨"size", [a, b]⟩, .compare ⟨.less, difference, .term b⟩, .predicate ⟨"so", []⟩]
    (Clause.rule (.predicate p) body).text =
      "large(A,'Big one'([B|A])) :- size(A,B), -3 - (abs((A ** 2) ** -(B)) - 2.5) < B, so" ∧
    parseClause ((Clause.rule (.predicate p) body).text ++ ".") =
      .ok (Clause.rule (.predicate p) body) := by
  intro a b power difference p body
  exact ⟨by decide +kernel, parseClause_text (by decide +kernel) (by decide) (by decide)⟩

end Source
end Horn
