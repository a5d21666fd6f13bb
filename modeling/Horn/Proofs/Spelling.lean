import Horn.Proofs.Decimals
import Horn.Proofs.NormalForm
import Horn.Mode
import Horn.Options

/-!
The tokens of printed terms, expressions, atoms, clauses and declarations.  Each form has its tokens
in the order of its text, and its text spells them when the form is legible: its symbols stay on one
line, its numbers are ones that can be written, the names of its types need no quotes, and the texts
of its variables are variables.
-/

namespace Horn

open Source

/-! ## Terms -/

/-- A term whose outermost part can be read back from its text. -/
def Term.IsLegible : Term → Prop
  | .const (.int n) => n ≠ Int64.minValue
  | .const (.float x) => x.IsFinite
  | .const (.symbol s) => '\n' ∉ s.toList
  | .var v => isVariableWord v.text = true ∧ v.text ≠ "_"
  | .compound f args => '\n' ∉ f.toList ∧ args ≠ []
  | .list items tail => ∀ t ∈ tail, items ≠ [] ∧ t.asList = none
  | .placeholder p => isPlainSymbol p.typeName = true

instance : DecidablePred Term.IsLegible
  | .const (.int n) => inferInstanceAs (Decidable (n ≠ Int64.minValue))
  | .const (.float x) => inferInstanceAs (Decidable (x.magnitude < Double.infinityMagnitude))
  | .const (.symbol s) => inferInstanceAs (Decidable ('\n' ∉ s.toList))
  | .var v => inferInstanceAs (Decidable (isVariableWord v.text = true ∧ v.text ≠ "_"))
  | .compound f args => inferInstanceAs (Decidable ('\n' ∉ f.toList ∧ args ≠ []))
  | .list items tail => inferInstanceAs (Decidable (∀ t ∈ tail, items ≠ [] ∧ t.asList = none))
  | .placeholder p => inferInstanceAs (Decidable (isPlainSymbol p.typeName = true))

/-- A form all of whose terms can be read back from its text. -/
def Legible {α : Type} [HasTerms α] (x : α) : Prop := ∀ t ∈ HasTerms.subterms x, t.IsLegible

instance {α : Type} [HasTerms α] (x : α) : Decidable (Legible x) :=
  inferInstanceAs (Decidable (∀ t ∈ HasTerms.subterms x, t.IsLegible))

/-- Tokens with a comma between one part and the next. -/
def separated : List (List Token) → List Token
  | [] => []
  | ts :: rest => ts ++ rest.flatMap (Token.comma :: ·)

theorem separated_cons_cons (ts us : List Token) (rest : List (List Token)) :
    separated (ts :: us :: rest) = ts ++ .comma :: separated (us :: rest) := by
  simp [separated]

/-- A name with tokens in parentheses. -/
def callTokens (name : String) (ts : List Token) : List Token :=
  .atom name :: .leftParen :: (ts ++ [.rightParen])

def Constant.tokens : Constant → List Token
  | .int n => intTokens n
  | .float x => floatTokens x
  | .symbol s => [.atom s]

namespace Term

mutual
/-- The tokens of the text of a term. -/
def tokens : Term → List Token
  | .const c => c.tokens
  | .var v => [.var v.text]
  | .compound f args => callTokens f (separated (tokensAll args))
  | .list items tail =>
    .leftBracket :: (separated (tokensAll items) ++ tokensTail tail ++ [.rightBracket])
  | .placeholder p => [.op p.sign.text, .atom p.typeName]

def tokensAll : List Term → List (List Token)
  | [] => []
  | t :: rest => tokens t :: tokensAll rest

def tokensTail : Option Term → List Token
  | none => []
  | some t => .bar :: tokens t
end

theorem tokensAll_eq_map (ts : List Term) : tokensAll ts = ts.map tokens := by
  induction ts with
  | nil => rfl
  | cons t ts ih => rw [tokensAll, ih, List.map_cons]

end Term

/-- Terms that are legible as a whole. -/
theorem Legible.args {f : String} {args : List Term} (h : Legible (Term.compound f args)) :
    ∀ t ∈ args, Legible t :=
  fun _ ht _ hu => h _ (List.mem_cons_of_mem _ (Term.mem_subtermsAll.2 ⟨_, ht, hu⟩))

theorem Legible.items {items : List Term} {tail : Option Term}
    (h : Legible (Term.list items tail)) : ∀ t ∈ items, Legible t :=
  fun _ ht _ hu => h _ (List.mem_cons_of_mem _
    (List.mem_append_left _ (Term.mem_subtermsAll.2 ⟨_, ht, hu⟩)))

theorem Legible.tail {items : List Term} {t : Term}
    (h : Legible (Term.list items (some t))) : Legible t :=
  fun _ hu => h _ (List.mem_cons_of_mem _ (List.mem_append_right _ hu))

theorem Legible.self {t : Term} (h : Legible t) : t.IsLegible := h _ (Term.self_mem_subterms t)

theorem Legible.isNormal {t : Term} (h : Legible t) : t.isNormal = true := by
  induction t using Term.induct with
  | const c => rfl
  | var v => rfl
  | placeholder p => rfl
  | compound f args ih =>
    rw [Term.isNormal, Term.allNormal_iff]
    exact fun t ht => ih t ht (h.args t ht)
  | list items tail ihitems ihtail =>
    refine Term.isNormal_list.2 ⟨fun t ht => ihitems t ht (h.items t ht), ?_⟩
    rintro t rfl
    obtain ⟨hne, hlist⟩ := h.self t rfl
    exact ⟨hne, hlist, ihtail t rfl h.tail⟩

namespace Source

/-- Parts that spell their tokens do so with commas between them. -/
theorem spells_textAll {ts : List Term} (h : ∀ t ∈ ts, Spells t.text t.tokens) :
    Spells (Term.textAll ts) (separated (ts.map Term.tokens)) := by
  induction ts with
  | nil => exact marks_empty.spells
  | cons t ts ih =>
    cases ts with
    | nil => simpa [Term.textAll, separated] using h
    | cons u ts =>
      have hfirst := (h t List.mem_cons_self).append_marks (fun _ => rfl) marks_comma
      have hmore := ih fun v hv => h v (List.mem_cons_of_mem _ hv)
      rw [Term.textAll, List.map_cons, List.map_cons, separated_cons_cons]
      · simpa using hfirst.append_spells hmore
      · simp

theorem spells_call {text name args : String} {ts : List Token} (hname : Spells text [.atom name])
    (h : Spells args ts) : Marks (text ++ "(" ++ args ++ ")") (callTokens name ts) := by
  have hopen := hname.append_marks (fun _ => rfl) marks_leftParen
  simpa [callTokens] using (hopen.append_spells h).append_marks (fun _ => rfl) marks_rightParen

theorem spells_term (t : Term) (h : Legible t) : Spells t.text t.tokens := by
  induction t using Term.induct with
  | const c =>
    cases c with
    | int n => exact spells_int h.self
    | float x => exact spells_float h.self
    | symbol s => exact spells_symbol h.self
  | var v => exact spells_variable h.self.1
  | placeholder p => exact (marks_sign p.sign).append_spells (spells_plain h.self)
  | compound f args ih =>
    rw [Term.text, Term.tokens, Term.tokensAll_eq_map]
    have hargs := spells_textAll fun t ht => ih t ht (h.args t ht)
    exact (spells_call (spells_symbol h.self.1) hargs).spells
  | list items tail ihitems ihtail =>
    have hitems := spells_textAll fun t ht => ihitems t ht (h.items t ht)
    have hopen := marks_leftBracket.append_spells hitems
    rw [Term.text, Term.tokens, Term.tokensAll_eq_map]
    cases tail with
    | none =>
      have hclosed := hopen.append_marks (fun _ => rfl) marks_rightBracket
      simpa [Term.textTail, Term.tokensTail] using hclosed.spells
    | some u =>
      have hbar := hopen.append_marks (fun _ => rfl) marks_bar
      have htail := hbar.append_spells (ihtail u rfl h.tail)
      have hclosed := htail.append_marks (fun _ => rfl) marks_rightBracket
      simpa [Term.textTail, Term.tokensTail, String.append_assoc] using hclosed.spells

end Source

/-! ## Expressions -/

/-- A term that an expression reads as a term: no function call and no placeholder after a minus. -/
def Term.isOperand : Term → Bool
  | .compound f _ => (MathFn.ofName? f).isNone
  | .placeholder p => p.sign != .output
  | _ => true

namespace Expr

/-- An expression whose text is read back as an expression of the same shape. -/
def IsLegible : Expr → Prop
  | .term t => Legible t ∧ t.isOperand = true
  | .binary _ l r => l.IsLegible ∧ r.IsLegible
  | .neg e => e.IsLegible
  | .call _ e => e.IsLegible

/-- Whether an expression is legible, by its parts. -/
instance decideIsLegible : DecidablePred IsLegible
  | .term t => inferInstanceAs (Decidable (Legible t ∧ t.isOperand = true))
  | .binary _ l r =>
    have := decideIsLegible l
    have := decideIsLegible r
    inferInstanceAs (Decidable (l.IsLegible ∧ r.IsLegible))
  | .neg e => decideIsLegible e
  | .call _ e => decideIsLegible e

/-- Tokens with parentheses around them where they are needed. -/
def enclosed (needed : Bool) (ts : List Token) : List Token :=
  if needed then .leftParen :: (ts ++ [.rightParen]) else ts

/-- The tokens of the text of an expression. -/
def tokens : Expr → List Token
  | .term t => t.tokens
  | .binary op l r =>
    let least := op.operandPrecedence
    enclosed (l.needsParens least.1) l.tokens ++
      op.token :: enclosed (r.needsParens least.2) r.tokens
  | .neg e => .op "-" :: .leftParen :: (e.tokens ++ [.rightParen])
  | .call f e => callTokens f.name e.tokens

end Expr

namespace Source

theorem spells_parenthesised {s : String} {ts : List Token} (needed : Bool) (h : Spells s ts) :
    Spells (Expr.parenthesised needed s) (Expr.enclosed needed ts) := by
  cases needed with
  | false => exact h
  | true =>
    have hclosed := (marks_leftParen.append_spells h).append_marks (fun _ => rfl) marks_rightParen
    simpa [Expr.parenthesised, Expr.enclosed] using hclosed.spells

theorem isPlainSymbol_name (f : MathFn) : isPlainSymbol f.name = true := by
  cases f <;> decide

theorem spells_expr {e : Expr} (h : e.IsLegible) : Spells e.text e.tokens := by
  induction e with
  | term t => exact spells_term t h.1
  | binary op l r ihl ihr =>
    have hleft := (spells_parenthesised (l.needsParens op.operandPrecedence.1)
      (ihl h.1)).append_marks (fun _ => rfl) marks_blank
    have hop := hleft.append (marks_binOp op)
    have hright := hop.append_spells (spells_parenthesised (r.needsParens op.operandPrecedence.2)
      (ihr h.2))
    simpa [Expr.text, Expr.tokens, String.append_assoc] using hright
  | neg e ih =>
    have hclosed := ((marks_minus.append marks_leftParen).append_spells (ih h)).append_marks
      (fun _ => rfl) marks_rightParen
    exact hclosed.spells
  | call f e ih => exact (spells_call (spells_plain (isPlainSymbol_name f)) (ih h)).spells

end Source

/-! ## Atoms and clauses -/

namespace Predicate

/-- The predicate as an expression reads it: a function of one argument is a call. -/
def expr (p : Predicate) : Expr :=
  match MathFn.ofName? p.name, p.args with
  | some f, [t] => .call f (.term t)
  | _, args => .term (.app p.name args)

end Predicate

namespace Atom

/-- The expressions of an atom, with the sign between them. -/
def IsLegible : Atom → Prop
  | .predicate p => p.expr.IsLegible
  | .compare c => c.left.IsLegible ∧ c.right.IsLegible

instance : DecidablePred IsLegible
  | .predicate p => inferInstanceAs (Decidable p.expr.IsLegible)
  | .compare c => inferInstanceAs (Decidable (c.left.IsLegible ∧ c.right.IsLegible))

def tokens : Atom → List Token
  | .predicate p => p.expr.tokens
  | .compare c => c.left.tokens ++ c.op.token :: c.right.tokens

end Atom

/-- Whether the tokens start with the word and an opening parenthesis. -/
def opensCall (word : String) : List Token → Bool
  | .atom s :: .leftParen :: _ => s == word
  | _ => false

namespace Clause

/-- A clause whose text is read back as a clause: its head is not taken for a declaration and no atom
of its body for a negation. -/
structure IsLegible (c : Clause) : Prop where
  head : ∀ a ∈ c.head, a.IsLegible
  body : ∀ a ∈ c.body, a.IsLegible
  notDeclaration : ∀ a ∈ c.head, ∀ word ∈ ["modeh", "modeb", "determination", "set"],
    opensCall word a.tokens = false
  notNegation : ∀ a ∈ c.body, opensCall "not" a.tokens = false

instance : DecidablePred IsLegible := fun c =>
  decidable_of_iff ((∀ a ∈ c.head, a.IsLegible) ∧ (∀ a ∈ c.body, a.IsLegible) ∧
      (∀ a ∈ c.head, ∀ word ∈ ["modeh", "modeb", "determination", "set"],
        opensCall word a.tokens = false) ∧ ∀ a ∈ c.body, opensCall "not" a.tokens = false)
    ⟨fun ⟨head, body, notDeclaration, notNegation⟩ => ⟨head, body, notDeclaration, notNegation⟩,
      fun h => ⟨h.head, h.body, h.notDeclaration, h.notNegation⟩⟩

/-- The tokens of the text of a clause. -/
def tokens (c : Clause) : List Token :=
  let body := separated (c.body.map Atom.tokens)
  match c.head with
  | none => .neck :: body
  | some h => if c.body.isEmpty then h.tokens else h.tokens ++ .neck :: body

end Clause

namespace Source

theorem name_of_ofName? {s : String} {f : MathFn} (h : MathFn.ofName? s = some f) :
    f.name = s := by
  have hname := List.find?_some h
  exact beq_iff_eq.1 hname

theorem text_app (p : Predicate) : (Term.app p.name p.args).text = p.text := by
  unfold Term.app Predicate.text
  split <;> rfl

theorem text_predicate (p : Predicate) : p.expr.text = p.text := by
  unfold Predicate.expr
  split
  next f t hf hargs =>
    have hname : symbolText p.name = p.name := by
      rw [symbolText, ← name_of_ofName? hf, if_pos (isPlainSymbol_name f)]
    rw [Expr.text, Expr.text, Predicate.text, hargs, name_of_ofName? hf, hname]
    rfl
  next => exact text_app p

theorem spells_atom {a : Atom} (h : a.IsLegible) : Spells a.text a.tokens := by
  cases a with
  | predicate p =>
    have hexpr := spells_expr h
    rwa [text_predicate] at hexpr
  | compare c =>
    have hleft := (spells_expr h.1).append_marks (fun _ => rfl) marks_blank
    have hright := (hleft.append (marks_compareOp c.op)).append_spells (spells_expr h.2)
    simpa [Atom.text, Comparison.text, Atom.tokens, String.append_assoc] using hright

/-- Parts that spell their tokens do so with commas and blanks between them. -/
theorem spells_commaSeparated {α : Type} {text : α → String} {tokens : α → List Token}
    {xs : List α} (h : ∀ x ∈ xs, Spells (text x) (tokens x)) :
    Spells (commaSeparated (xs.map text)) (separated (xs.map tokens)) := by
  induction xs with
  | nil => exact marks_empty.spells
  | cons x xs ih =>
    cases xs with
    | nil => simpa [commaSeparated, separated] using h
    | cons y xs =>
      have hfirst := (h x List.mem_cons_self).append_marks (fun _ => rfl) marks_commaBlank
      have hall := hfirst.append_spells (ih fun z hz => h z (List.mem_cons_of_mem _ hz))
      rw [List.map_cons, List.map_cons, List.map_cons, List.map_cons, separated_cons_cons,
        commaSeparated, String.intercalate_cons_cons]
      simpa [String.append_assoc, commaSeparated] using hall

theorem spells_clause {c : Clause} (hhead : ∀ a ∈ c.head, a.IsLegible)
    (hbody : ∀ a ∈ c.body, a.IsLegible) : Spells c.text c.tokens := by
  have hbody : Spells c.bodyText (separated (c.body.map Atom.tokens)) :=
    spells_commaSeparated fun a ha => spells_atom (hbody a ha)
  have hneck : Spells (":- " ++ c.bodyText) (.neck :: separated (c.body.map Atom.tokens)) :=
    (marks_neck.append marks_blank).append_spells hbody
  unfold Clause.text Clause.tokens
  cases h : c.head with
  | none => exact hneck
  | some a =>
    have ha := spells_atom (hhead a h)
    dsimp only
    split
    next => exact ha
    next =>
      have hrule := (ha.append_marks (fun _ => rfl) marks_blank).append_spells hneck
      have hsign : " :- " = " " ++ ":- " := rfl
      rw [hsign]
      simpa only [String.append_assoc, List.append_nil] using hrule

end Source

/-! ## Declarations -/

/-- A number that can be read. -/
def IsReadable (n : Nat) : Prop := n < 2 ^ 63

instance : DecidablePred IsReadable := fun n => inferInstanceAs (Decidable (n < 2 ^ 63))

namespace Recall

def IsLegible : Recall → Prop
  | .bounded n => IsReadable n
  | .unbounded => True

instance : DecidablePred IsLegible
  | .bounded n => inferInstanceAs (Decidable (IsReadable n))
  | .unbounded => inferInstanceAs (Decidable True)

def token : Recall → Token
  | .bounded n => .int (Int64.ofNat n)
  | .unbounded => .op "*"

end Recall

namespace Signature

def IsLegible (s : Signature) : Prop := '\n' ∉ s.name.toList ∧ IsReadable s.arity

instance : DecidablePred IsLegible := fun s =>
  inferInstanceAs (Decidable ('\n' ∉ s.name.toList ∧ IsReadable s.arity))

def tokens (s : Signature) : List Token := [.atom s.name, .op "/", .int (Int64.ofNat s.arity)]

end Signature

namespace Mode

/-- A mode whose bound and whose atom can be read back. -/
def IsLegible (m : Mode) : Prop :=
  m.recall.IsLegible ∧ Legible (Term.app m.atom.name m.atom.args)

instance : DecidablePred IsLegible := fun m =>
  inferInstanceAs (Decidable (m.recall.IsLegible ∧ Legible (Term.app m.atom.name m.atom.args)))

def tokens (m : Mode) : List Token :=
  callTokens m.kind.keyword
    (m.recall.token :: .comma :: (Term.app m.atom.name m.atom.args).tokens)

end Mode

namespace Determination

def IsLegible (d : Determination) : Prop := ∀ s ∈ d.head :: d.body, s.IsLegible

instance : DecidablePred IsLegible := fun d =>
  inferInstanceAs (Decidable (∀ s ∈ d.head :: d.body, s.IsLegible))

def tokens (d : Determination) : List Token :=
  callTokens "determination" (separated ((d.head :: d.body).map Signature.tokens))

end Determination

namespace OptionValue

def IsLegible : OptionValue → Prop
  | .number n => IsReadable n
  | .flag _ => True

instance : DecidablePred IsLegible
  | .number n => inferInstanceAs (Decidable (IsReadable n))
  | .flag _ => inferInstanceAs (Decidable True)

def token : OptionValue → Token
  | .number n => .int (Int64.ofNat n)
  | .flag b => .atom (if b then "true" else "false")

end OptionValue

/-- The tokens of an option setting. -/
def settingTokens (key : String) (value : OptionValue) : List Token :=
  callTokens "set" [.atom key, .comma, value.token]

namespace Source

/-- A star before a boundary is not the start of a power. -/
theorem spells_star : Spells "*" [.op "*"] := by
  intro rest hrest
  have ht : token '*' rest = .ok (.op "*", rest) := by
    cases rest with
    | nil => rfl
    | cons c rest =>
      have hstar : c ≠ '*' := by
        rintro rfl
        exact absurd hrest (by simp [isBoundary])
      have hop : operator? ('*' :: c :: rest) = some "*" := by
        simp [operator?, operators, List.isPrefixOf, Ne.symm hstar]
      simp only [token, longToken, hop]
      rfl
  exact lexed_cons (by decide) (by decide) (fun hc => absurd hc (by decide)) ht

theorem spells_recall {r : Recall} (h : r.IsLegible) : Spells r.text [r.token] := by
  cases r with
  | bounded n => exact spells_nat h
  | unbounded => exact spells_star

theorem spells_mode {m : Mode} (h : m.IsLegible) : Spells m.text m.tokens := by
  have hatom := spells_term _ h.2
  rw [text_app] at hatom
  have hrecall := (spells_recall h.1).append_marks (fun _ => rfl) marks_commaBlank
  have hkeyword : Spells m.kind.keyword [.atom m.kind.keyword] := by
    cases m.kind <;> exact spells_plain (by decide)
  have hcall := (spells_call hkeyword (hrecall.append_spells hatom)).spells
  simp only [String.append_assoc] at hcall
  simp only [Mode.text, String.append_assoc]
  exact hcall

/-- A slash before a digit is neither a longer operator nor a comment. -/
theorem token_slash {c : Char} (hc : c ≠ '/') (rest : List Char) :
    token '/' (c :: rest) = .ok (.op "/", c :: rest) := by
  have hop : operator? ('/' :: c :: rest) = some "/" := by
    simp [operator?, operators, List.isPrefixOf, Ne.symm hc]
  simp only [token, longToken, hop]
  rfl

theorem spells_arity {n : Nat} (h : IsReadable n) :
    Spells ("/" ++ toString n) [.op "/", .int (Int64.ofNat n)] := by
  intro rest hrest
  obtain ⟨c, w, htext, -, hc⟩ := exists_digit n
  have hslash : c ≠ '/' := by
    rintro rfl
    exact absurd hc (by decide)
  have hstar : c ≠ '*' := by
    rintro rfl
    exact absurd hc (by decide)
  have hnat := spells_nat h rest hrest
  rw [htext] at hnat
  have hfirst := lexed_cons (by decide) (by decide) (fun _ => by simpa using hstar)
    (token_slash hslash (w ++ rest))
  rw [String.toList_append, htext]
  exact hfirst.trans (congrArg _ hnat)

theorem spells_signature {s : Signature} (h : s.IsLegible) : Spells s.text s.tokens := by
  have hbounds : Bounds ("/" ++ toString s.arity) := fun rest => by
    rw [String.toList_append]
    rfl
  have hname := (spells_symbol h.1).append hbounds (spells_arity h.2)
  rw [Signature.text, String.append_assoc]
  exact hname

theorem spells_determination {d : Determination} (h : d.IsLegible) :
    Spells d.text d.tokens := by
  have hargs : Spells (commaSeparated ((d.head :: d.body).map Signature.text))
      (separated ((d.head :: d.body).map Signature.tokens)) :=
    spells_commaSeparated fun s hs => spells_signature (h s hs)
  have hword : Spells "determination" [.atom "determination"] := spells_plain (by decide)
  have hopen : "determination(" = "determination" ++ "(" := by decide
  show Spells ("determination(" ++ commaSeparated ((d.head :: d.body).map Signature.text) ++ ")") _
  rw [hopen]
  exact (spells_call hword hargs).spells

theorem isPlainSymbol_optionName (k : OptionKey) : isPlainSymbol k.name = true := by
  cases k <;> decide

theorem spells_setting (k : OptionKey) {value : OptionValue} (h : value.IsLegible) :
    Spells ("set(" ++ k.name ++ ", " ++ value.text ++ ")") (settingTokens k.name value) := by
  have hvalue : Spells value.text [value.token] := by
    cases value with
    | number n => exact spells_nat h
    | flag b => cases b <;> exact spells_plain (by decide)
  have hkey := (spells_plain (isPlainSymbol_optionName k)).append_marks (fun _ => rfl)
    marks_commaBlank
  have hword : Spells "set" [.atom "set"] := spells_plain (by decide)
  have hcall := (spells_call hword (hkey.append_spells hvalue)).spells
  have hopen : "set(" = "set" ++ "(" := by decide
  simp only [String.append_assoc] at hcall
  simp only [hopen, String.append_assoc]
  exact hcall

end Source
end Horn
