import Horn.Proofs.CanonicalNames
import Horn.Proofs.ClauseText
import Horn.Proofs.ParsedForms

/-!
Clauses and their texts.  The text of a clause determines its tokens, and the tokens determine the
clause up to the variables that have one text.  So clauses that were read from texts are equal just
when their own texts are, once what prints like something else is set aside: a number that
overflows, a type name that needs quotes, a function applied to terms where an expression is read,
and a variable of one clause that prints like a different one of the other.
-/

namespace Horn

open Source

/-! ## Reading back is relabelling -/

theorem readBack_eq_relabel {α : Type} [HasTerms α] [LawfulTerms α] {x : α} (hx : Normal x) :
    readBack x = relabel (fun v => Var.named v.text) x := by
  have hlabels := relabel_instantiate (fun v => Var.named v.text) Term.var x
  rw [show instantiate Term.var x = x from Valuation.apply_of_normal hx] at hlabels
  exact hlabels.symm

/-- Forms with one relabelling have the same labels in them. -/
theorem exists_label_of_relabel_eq {f : Var → Var} {c d : Clause} (h : relabel f c = relabel f d)
    {v : Var} (hv : v ∈ «variables» c) : ∃ w ∈ «variables» d, f w = f v := by
  have hlabel : Term.var (f v) ∈ HasTerms.subterms (relabel f c) := by
    rw [keepsPlaces_clause f c]
    exact List.mem_map.2 ⟨_, mem_variables_iff.1 hv, rfl⟩
  rw [h] at hlabel
  obtain ⟨w, hw, hwv⟩ := exists_of_mem_relabel hlabel
  exact ⟨w, mem_variables_iff.2 hw, hwv⟩

/-- Where the labels tell the variables of one clause from those of another, clauses with one
relabelling are equal. -/
theorem eq_of_relabel_eq {f : Var → Var} {c d : Clause} (h : relabel f c = relabel f d)
    (hcross : ∀ v ∈ «variables» c, ∀ w ∈ «variables» d, f v = f w → v = w) : c = d := by
  have hinj : Set.InjOn f { v | v ∈ «variables» c } := by
    intro v hv w hw hvw
    obtain ⟨u, hu, huv⟩ := exists_label_of_relabel_eq h hv
    rw [hcross v hv u hu huv.symm, hcross w hw u hu (hvw.symm.trans huv.symm)]
  have hback : relabel (fun w => Function.invFunOn f { v | v ∈ «variables» c } (f w)) d =
      relabel id d := by
    refine d.over_variables.relabel_congr fun w hw => ?_
    obtain ⟨v, hv, hvw⟩ := exists_label_of_relabel_eq h.symm hw
    rw [← hvw, hinj.leftInvOn_invFunOn hv]
    exact hcross v hv w hw hvw
  rw [← relabel_invFunOn hinj c.over_variables, h, relabel_relabel, hback, relabel_id]

/-! ## Tokens determine what is read -/

namespace Source

theorem exists_stands (ts : List Token) : ∃ c : Cursor, c.Stands ts :=
  ⟨⟨⟨ts.map fun t => ⟨t, []⟩, none⟩, 0⟩, by simp [Function.comp_def], rfl⟩

theorem Gives.unique {α : Type} {n : Nat} {r : Reading α n} {a b : α} {rest rest' : List Token}
    (h : Gives r a rest) (h' : Gives r b rest') : a = b ∧ rest = rest' := by
  obtain ⟨p, hp, rfl, hrest⟩ := h
  obtain ⟨q, hq, rfl, hrest'⟩ := h'
  obtain rfl := Except.ok.inj (hp.symm.trans hq)
  exact ⟨rfl, hrest.tokens.symm.trans hrest'.tokens⟩

theorem below_nil (n : Nat) : Below n [] := nofun

/-- Atoms whose tokens are the same as far as they go are read as one. -/
theorem readBack_eq_of_tokens {a b : Atom} (ha : a.IsLegible) (hb : b.IsLegible)
    {rest rest' : List Token} (hrest : Below 1 rest) (hrest' : Below 1 rest')
    (h : a.tokens ++ rest = b.tokens ++ rest') : readBack a = readBack b ∧ rest = rest' := by
  obtain ⟨c, hc⟩ := exists_stands (a.tokens ++ rest)
  exact (Cursor.Stands.atom ha hc hrest).unique (Cursor.Stands.atom hb (h ▸ hc) hrest')

/-- The tokens of atoms after a first one. -/
def moreTokens (as : List Atom) : List Token := (as.map Atom.tokens).flatMap (Token.comma :: ·)

theorem below_moreTokens (as : List Atom) : Below 1 (moreTokens as) := by
  cases as with
  | nil => exact below_nil 1
  | cons a as => exact below_cons (by decide)

theorem readBack_eq_of_moreTokens {as bs : List Atom} (has : ∀ a ∈ as, a.IsLegible)
    (hbs : ∀ b ∈ bs, b.IsLegible) (h : moreTokens as = moreTokens bs) :
    as.map readBack = bs.map readBack := by
  induction as generalizing bs with
  | nil =>
    cases bs with
    | nil => rfl
    | cons b bs => cases h
  | cons a as ih =>
    cases bs with
    | nil => cases h
    | cons b bs =>
      obtain ⟨ha, has⟩ := List.forall_mem_cons.1 has
      obtain ⟨hb, hbs⟩ := List.forall_mem_cons.1 hbs
      obtain ⟨hfirst, hmore⟩ := readBack_eq_of_tokens ha hb (below_moreTokens as)
        (below_moreTokens bs) (List.tail_eq_of_cons_eq h)
      rw [List.map_cons, List.map_cons, hfirst, ih has hbs hmore]

/-- The tokens of a clause after its head. -/
def bodyTokens (body : List Atom) : List Token :=
  if body.isEmpty then [] else .neck :: separated (body.map Atom.tokens)

theorem tokens_of_head {c : Clause} {a : Atom} (h : c.head = some a) :
    c.tokens = a.tokens ++ bodyTokens c.body := by
  rw [Clause.tokens, h, bodyTokens]
  dsimp only
  split <;> simp

theorem below_bodyTokens (body : List Atom) : Below 1 (bodyTokens body) := by
  rw [bodyTokens]
  split
  · exact below_nil 1
  · exact below_cons (by decide)

theorem readBack_eq_of_bodyTokens {as bs : List Atom} (has : ∀ a ∈ as, a.IsLegible)
    (hbs : ∀ b ∈ bs, b.IsLegible) (h : bodyTokens as = bodyTokens bs) :
    as.map readBack = bs.map readBack := by
  cases as with
  | nil =>
    cases bs with
    | nil => rfl
    | cons b bs => cases h
  | cons a as =>
    cases bs with
    | nil => cases h
    | cons b bs =>
      refine readBack_eq_of_moreTokens has hbs ?_
      exact congrArg (Token.comma :: ·) (List.tail_eq_of_cons_eq h)

theorem spells_of_isLegible {c : Clause} (h : ∀ a ∈ c.head.toList ++ c.body, a.IsLegible) :
    Spells c.text c.tokens :=
  spells_clause (fun a ha => h a (List.mem_append_left _ (by simpa using ha)))
    fun a ha => h a (List.mem_append_right _ ha)

/-- Clauses with one text are read as one. -/
theorem readBack_eq_of_text {c d : Clause} {a b : Atom} (hc : c.head = some a)
    (hd : d.head = some b) (hclegible : ∀ x ∈ c.head.toList ++ c.body, x.IsLegible)
    (hdlegible : ∀ x ∈ d.head.toList ++ d.body, x.IsLegible) (h : c.text = d.text) :
    readBack c = readBack d := by
  have htokens : c.tokens = d.tokens := by
    have hctext := (spells_of_isLegible hclegible).lexed
    rw [h, (spells_of_isLegible hdlegible).lexed] at hctext
    exact (Prod.mk.inj hctext).1.symm
  rw [tokens_of_head hc, tokens_of_head hd] at htokens
  rw [hc] at hclegible
  rw [hd] at hdlegible
  obtain ⟨ha, hcbody⟩ := List.forall_mem_cons.1 hclegible
  obtain ⟨hb, hdbody⟩ := List.forall_mem_cons.1 hdlegible
  obtain ⟨hhead, hbody⟩ := readBack_eq_of_tokens ha hb (below_bodyTokens _) (below_bodyTokens _)
    htokens
  have hmap : c.body.map readBack = d.body.map readBack :=
    readBack_eq_of_bodyTokens hcbody hdbody hbody
  show Clause.mk (c.head.map readBack) (c.body.map readBack) =
    Clause.mk (d.head.map readBack) (d.body.map readBack)
  rw [hc, hd, Option.map_some, Option.map_some, hhead, hmap]

end Source

/-! ## Clauses that were read -/

/-- A clause whose text is not the text of something else: its numbers are finite, its type names
need no quotes, and each operand is read as the term that it is, so no function applied to terms
stands for a term there. -/
structure Clause.IsUnmistakable (c : Clause) : Prop where
  terms : Unmistakable c
  operands : ∀ a ∈ c.head.toList ++ c.body, ∀ t ∈ a.operands, t.isOperand = true

instance (c : Clause) : Decidable c.IsUnmistakable :=
  decidable_of_iff (Unmistakable c ∧
      ∀ a ∈ c.head.toList ++ c.body, ∀ t ∈ a.operands, t.isOperand = true)
    ⟨fun h => ⟨h.1, h.2⟩, fun h => ⟨h.1, h.2⟩⟩

/-- What is read from a text is in list normal form. -/
theorem normal_of_parseClause {s : String} {c : Clause} (h : parseClause s = .ok c) : Normal c := by
  intro u hu
  rw [Clause.subterms_eq] at hu
  obtain ⟨a, ha, hua⟩ := List.mem_flatMap.1 hu
  exact ((isWritten_of_parseClause h).2 a ha).normal u hua

theorem isLegible_of_parseClause {s : String} {c : Clause} (h : parseClause s = .ok c)
    (hc : c.IsUnmistakable) : ∀ a ∈ c.head.toList ++ c.body, a.IsLegible := by
  intro a ha
  have hterms : Unmistakable a := fun u hu => hc.terms u <| by
    rw [Clause.subterms_eq]
    exact List.mem_flatMap.2 ⟨a, ha, hu⟩
  exact ((isWritten_of_parseClause h).2 a ha).isLegible hterms (hc.operands a ha)

/-- Clauses that were read from texts are equal just when they have one text, where their texts are
not those of something else and a variable of the one that prints like a variable of the other is
the same. -/
theorem Clause.eq_iff_text_eq {s s' : String} {c d : Clause} (hc : parseClause s = .ok c)
    (hd : parseClause s' = .ok d) (hcplain : c.IsUnmistakable) (hdplain : d.IsUnmistakable)
    (hvars : ∀ v ∈ «variables» c, ∀ w ∈ «variables» d, v.text = w.text → v = w) :
    c = d ↔ c.text = d.text := by
  refine ⟨fun h => congrArg Clause.text h, fun h => ?_⟩
  obtain ⟨p, hp⟩ := Option.isSome_iff_exists.1 (isWritten_of_parseClause hc).1
  obtain ⟨q, hq⟩ := Option.isSome_iff_exists.1 (isWritten_of_parseClause hd).1
  have hback := readBack_eq_of_text (head_of_headPredicate hp) (head_of_headPredicate hq)
    (isLegible_of_parseClause hc hcplain) (isLegible_of_parseClause hd hdplain) h
  rw [readBack_eq_relabel (normal_of_parseClause hc),
    readBack_eq_relabel (normal_of_parseClause hd)] at hback
  exact eq_of_relabel_eq hback fun v hv w hw hvw => hvars v hv w hw (congrArg Var.symbol hvw)

namespace Sample

/-- The clause that says of `X` that it is the value of an expression. -/
def equation (e : Expr) : Clause :=
  .rule (.predicate ⟨"p", [.var (.named "X")]⟩) [.compare ⟨.unify, .term (.var (.named "X")), e⟩]

def minus (l r : Expr) : Expr := .binary .sub l r

def number (n : Int64) : Expr := .term (.int n)

/-- The expression `1 - (2 - 3)`. -/
def nested : Expr := minus (number 1) (minus (number 2) (number 3))

/-- The expression `1 - 2 - 3`. -/
def chained : Expr := minus (minus (number 1) (number 2)) (number 3)

end Sample

open Sample in
/-- The parentheses tell two readings of a difference apart. -/
theorem Clause.eq_iff_text_eq_difference :
    parseClause ((equation nested).text ++ ".") = .ok (equation nested) ∧
    parseClause ((equation chained).text ++ ".") = .ok (equation chained) ∧
    (equation nested).text ≠ (equation chained).text := by
  have hnested : parseClause ((equation nested).text ++ ".") = .ok (equation nested) :=
    parseClause_legible (by decide) (by decide) (by decide) rfl
  have hchained : parseClause ((equation chained).text ++ ".") = .ok (equation chained) :=
    parseClause_legible (by decide) (by decide) (by decide) rfl
  have hiff := Clause.eq_iff_text_eq hnested hchained (by decide) (by decide) (by decide)
  exact ⟨hnested, hchained, mt hiff.2 (by decide)⟩

end Horn
