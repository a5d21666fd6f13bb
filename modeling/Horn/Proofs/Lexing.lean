import Horn.Source.Token
import Horn.Term.Printed
import Mathlib.Algebra.Group.Nat.Defs

/-!
What printed text is split into.  A piece of text spells tokens when splitting it together with
what follows gives these tokens and then those of what follows.  Signs that end by themselves do
this before any text; words and numbers do it before a boundary, and printed text has a boundary
after each of them.
-/

namespace Horn
namespace Source

/-! ## One token -/

/-- The tokens of a text and the fault at which they end. -/
def lexed (cs : List Char) : List Token × Option Fault :=
  ((lexemes cs).items.map Lexeme.token, (lexemes cs).fault)

/-- Tokens before others. -/
def before (ts : List Token) (more : List Token × Option Fault) : List Token × Option Fault :=
  (ts ++ more.1, more.2)

theorem before_before (ts us : List Token) (more : List Token × Option Fault) :
    before ts (before us more) = before (ts ++ us) more := by
  rw [before, before, before, List.append_assoc]

/-- The tokens of a text are its first token and those of what is left. -/
theorem lexemes_eq (cs : List Char) : lexemes cs =
    match skipBlanks cs with
    | .error f => ⟨[], some f⟩
    | .ok [] => ⟨[], none⟩
    | .ok (c :: rest) =>
      match token c rest with
      | .error f => ⟨[], some f⟩
      | .ok (t, after) => ⟨⟨t, c :: rest⟩ :: (lexemes after).items, (lexemes after).fault⟩ := by
  rw [lexemes.eq_def]
  split
  next h => rw [h]
  next h => rw [h]
  next c rest h =>
    conv => rhs; rw [h]
    dsimp only
    split
    next ht => rw [ht]
    next ht => rw [ht]

theorem skipBlanks_of_not_blank {c : Char} {rest : List Char} (h : Text.isBlank c = false)
    (hline : c ≠ '%') (hblock : c = '/' → rest.head? ≠ some '*') :
    skipBlanks (c :: rest) = .ok (c :: rest) := by
  rw [skipBlanks.eq_def]
  split
  next hcs => cases hcs
  next hcs =>
    cases hcs
    exact absurd rfl hline
  next hcs =>
    cases hcs
    exact absurd rfl (hblock rfl)
  next hcs =>
    cases hcs
    rw [if_neg (by simp [h])]

theorem lexed_nil : lexed [] = ([], none) := by
  rw [lexed, lexemes_eq, skipBlanks.eq_def]
  rfl

theorem lexed_cons {c : Char} {rest after : List Char} {t : Token} (h : Text.isBlank c = false)
    (hline : c ≠ '%') (hblock : c = '/' → rest.head? ≠ some '*')
    (ht : token c rest = .ok (t, after)) : lexed (c :: rest) = before [t] (lexed after) := by
  rw [lexed, lexemes_eq, skipBlanks_of_not_blank h hline hblock]
  simp only [ht]
  rfl

/-- A blank before a text does not count. -/
theorem lexed_blank {c : Char} (h : Text.isBlank c = true) (hline : c ≠ '%') (hblock : c ≠ '/')
    (rest : List Char) : lexed (c :: rest) = lexed rest := by
  have hskip : skipBlanks (c :: rest) = skipBlanks rest := by
    rw [skipBlanks.eq_def]
    split
    next hcs => cases hcs
    next hcs => cases hcs; exact absurd rfl hline
    next hcs => cases hcs; exact absurd rfl hblock
    next hcs => cases hcs; rw [if_pos h]
  rw [lexed, lexemes_eq, hskip, ← lexemes_eq, lexed]

/-! ## Pieces of text -/

/-- What may come after a word or a number: the end, a separator, or the point that ends a
statement. -/
def isBoundary : List Char → Bool
  | [] => true
  | '.' :: rest => endsStatement rest
  | c :: _ => ['(', ')', ']', ',', '|', ' ', '/'].contains c

/-- The text splits into the tokens when a boundary follows it. -/
def Spells (s : String) (ts : List Token) : Prop :=
  ∀ rest, isBoundary rest = true → lexed (s.toList ++ rest) = before ts (lexed rest)

/-- The text splits into the tokens whatever follows it. -/
def Marks (s : String) (ts : List Token) : Prop :=
  ∀ rest, lexed (s.toList ++ rest) = before ts (lexed rest)

/-- The text starts with a boundary. -/
def Bounds (s : String) : Prop := ∀ rest, isBoundary (s.toList ++ rest) = true

section

variable {s t : String} {ts us : List Token}

theorem Marks.spells (h : Marks s ts) : Spells s ts := fun rest _ => h rest

theorem Marks.append (hs : Marks s ts) (ht : Marks t us) : Marks (s ++ t) (ts ++ us) := by
  intro rest
  rw [String.toList_append, List.append_assoc, hs, ht, before_before]

theorem Marks.append_spells (hs : Marks s ts) (ht : Spells t us) : Spells (s ++ t) (ts ++ us) := by
  intro rest hrest
  rw [String.toList_append, List.append_assoc, hs, ht rest hrest, before_before]

theorem Spells.append_marks (hs : Spells s ts) (hb : Bounds t) (ht : Marks t us) :
    Marks (s ++ t) (ts ++ us) := by
  intro rest
  rw [String.toList_append, List.append_assoc, hs _ (hb rest), ht, before_before]

theorem Spells.append (hs : Spells s ts) (hb : Bounds t) (ht : Spells t us) :
    Spells (s ++ t) (ts ++ us) := by
  intro rest hrest
  rw [String.toList_append, List.append_assoc, hs _ (hb rest), ht rest hrest, before_before]

/-- Splitting a whole text that spells tokens. -/
theorem Spells.lexed (h : Spells s ts) : lexed s.toList = (ts, none) := by
  have hnil := h [] rfl
  rwa [List.append_nil, lexed_nil, before, List.append_nil] at hnil

end

theorem marks_empty : Marks "" [] := fun _ => rfl

/-! ## Signs -/

theorem marks_of_token {s : String} (c : Char) {t : Token} (hs : s.toList = [c])
    (h : Text.isBlank c = false) (hline : c ≠ '%') (hblock : c ≠ '/')
    (ht : ∀ rest, token c rest = .ok (t, rest)) : Marks s [t] := by
  intro rest
  rw [hs]
  exact lexed_cons h hline (fun hc => absurd hc hblock) (ht rest)

theorem marks_leftParen : Marks "(" [.leftParen] :=
  marks_of_token '(' rfl rfl (by decide) (by decide) fun _ => rfl

theorem marks_rightParen : Marks ")" [.rightParen] :=
  marks_of_token ')' rfl rfl (by decide) (by decide) fun _ => rfl

theorem marks_leftBracket : Marks "[" [.leftBracket] :=
  marks_of_token '[' rfl rfl (by decide) (by decide) fun _ => rfl

theorem marks_rightBracket : Marks "]" [.rightBracket] :=
  marks_of_token ']' rfl rfl (by decide) (by decide) fun _ => rfl

theorem marks_comma : Marks "," [.comma] :=
  marks_of_token ',' rfl rfl (by decide) (by decide) fun _ => rfl

theorem marks_bar : Marks "|" [.bar] :=
  marks_of_token '|' rfl rfl (by decide) (by decide) fun _ => rfl

theorem marks_blank : Marks " " [] := fun rest =>
  lexed_blank (by decide) (by decide) (by decide) rest

theorem marks_commaBlank : Marks ", " [.comma] := marks_comma.append marks_blank

/-- The point and the line feed at the end of a statement. -/
theorem marks_point : Marks ".\n" [.dot] := by
  intro rest
  have hdot : token '.' ('\n' :: rest) = .ok (.dot, '\n' :: rest) := rfl
  have hfirst := lexed_cons rfl (by decide) (fun hc => absurd hc (by decide)) hdot
  exact hfirst.trans (congrArg _ (lexed_blank (by decide : Text.isBlank '\n' = true) (by decide)
    (by decide) rest))

theorem marks_neck : Marks ":-" [.neck] := fun rest =>
  lexed_cons rfl (by decide) (fun hc => absurd hc (by decide)) (rfl : token ':' ('-' :: rest) = _)

/-- A minus belongs to no longer operator. -/
theorem marks_minus : Marks "-" [.op "-"] :=
  marks_of_token '-' rfl rfl (by decide) (by decide) fun _ => rfl

theorem marks_sign (g : Sign) : Marks g.text [.op g.text] := by
  cases g with
  | input => exact marks_of_token '+' rfl rfl (by decide) (by decide) fun _ => rfl
  | output => exact marks_minus
  | constant => exact marks_of_token '#' rfl rfl (by decide) (by decide) fun _ => rfl

/-- A blank ends an operator. -/
theorem marks_operator {s : String} (c : Char) (more : List Char) (t : Token)
    (hs : s.toList = c :: more) (h : Text.isBlank c = false) (hline : c ≠ '%')
    (hblock : c = '/' → more.head? ≠ some '*')
    (ht : ∀ rest, token c (more ++ ' ' :: rest) = .ok (t, ' ' :: rest)) :
    Marks (s ++ " ") [t] := by
  intro rest
  have hnext : c = '/' → (more ++ ' ' :: rest).head? ≠ some '*' := by
    intro hc
    cases more with
    | nil => simp
    | cons d more => exact hblock hc
  have hfirst := lexed_cons h hline hnext (ht rest)
  rw [lexed_blank (by decide : Text.isBlank ' ' = true) (by decide) (by decide)] at hfirst
  rw [String.toList_append, List.append_assoc, hs]
  exact hfirst

/-! ## Words -/

theorem isDigit_iff {c : Char} : c.isDigit = true ↔ 48 ≤ c.toNat ∧ c.toNat ≤ 57 := by
  show (decide (48 ≤ c.val) && decide (c.val ≤ 57)) = true ↔ _
  simp only [Bool.and_eq_true, decide_eq_true_eq, UInt32.le_iff_toNat_le]
  rfl

theorem isUpper_iff {c : Char} : c.isUpper = true ↔ 65 ≤ c.toNat ∧ c.toNat ≤ 90 := by
  show decide (65 ≤ c.val ∧ c.val ≤ 90) = true ↔ _
  simp only [decide_eq_true_eq, UInt32.le_iff_toNat_le]
  rfl

theorem isLower_iff {c : Char} : c.isLower = true ↔ 97 ≤ c.toNat ∧ c.toNat ≤ 122 := by
  show (decide (97 ≤ c.val) && decide (c.val ≤ 122)) = true ↔ _
  simp only [Bool.and_eq_true, decide_eq_true_eq, UInt32.le_iff_toNat_le]
  rfl

theorem isWordChar_iff {c : Char} : isWordChar c = true ↔
    ((65 ≤ c.toNat ∧ c.toNat ≤ 90 ∨ 97 ≤ c.toNat ∧ c.toNat ≤ 122) ∨
      48 ≤ c.toNat ∧ c.toNat ≤ 57) ∨ c = '_' := by
  simp only [isWordChar_eq, Bool.or_eq_true, beq_iff_eq, isDigit_iff, isUpper_iff, isLower_iff]

theorem isWordChar_of_isDigit {c : Char} (h : c.isDigit = true) : isWordChar c = true := by
  simp [isWordChar_eq, h]

theorem not_isBlank_of_isWordChar {c : Char} (h : isWordChar c = true) :
    Text.isBlank c = false := by
  rcases isWordChar_iff.1 h with h | rfl
  · have hascii : 48 ≤ c.toNat ∧ c.toNat ≤ 122 := by omega
    simp [Text.isBlank]
    omega
  · decide

theorem not_isDigit_of_isLower {c : Char} (h : c.isLower = true) : c.isDigit = false := by
  rw [isLower_iff] at h
  rw [Bool.eq_false_iff, Ne, isDigit_iff]
  omega

/-- The start of a variable is no digit and no small letter. -/
theorem not_isDigit_of_isUpper {c : Char} (h : (c.isUpper || c == '_') = true) :
    c.isDigit = false ∧ c.isLower = false := by
  rcases Bool.or_eq_true_iff.1 h with h | h
  · rw [isUpper_iff] at h
    rw [Bool.eq_false_iff, Bool.eq_false_iff, Ne, Ne, isDigit_iff, isLower_iff]
    omega
  · obtain rfl : c = '_' := beq_iff_eq.1 h
    decide

theorem isWordChar_of_isBoundary {c : Char} {rest : List Char}
    (h : isBoundary (c :: rest) = true) : isWordChar c = false := by
  unfold isBoundary at h
  split at h
  next hcs => cases hcs
  next hcs => cases hcs; decide
  next hcs =>
    cases hcs
    simp only [List.contains_eq_mem, decide_eq_true_eq, List.mem_cons, List.not_mem_nil,
      or_false] at h
    rcases h with rfl | rfl | rfl | rfl | rfl | rfl | rfl <;> decide

/-- A run before a text that does not go on with it. -/
theorem takeWhile_run {p : Char → Bool} {run rest : List Char} (hrun : ∀ c ∈ run, p c = true)
    (hrest : ∀ c, rest.head? = some c → p c = false) :
    (run ++ rest).takeWhile p = run ∧ (run ++ rest).dropWhile p = rest := by
  rw [List.takeWhile_append_of_pos hrun, List.dropWhile_append_of_pos hrun]
  cases rest with
  | nil => simp
  | cons c rest => simp [hrest c rfl]

theorem spanWord_run {w rest : List Char} (hw : ∀ c ∈ w, isWordChar c = true)
    (hrest : isBoundary rest = true) : spanWord (w ++ rest) = (String.ofList w, rest) := by
  have hstop : ∀ c, rest.head? = some c → isWordChar c = false := by
    intro c hc
    obtain ⟨more, rfl⟩ := List.head?_eq_some_iff.1 hc
    exact isWordChar_of_isBoundary hrest
  obtain ⟨htake, hdrop⟩ := takeWhile_run hw hstop
  rw [spanWord, htake, hdrop]

/-- A character that no sign starts with. -/
theorem token_eq_longToken {c : Char} (h : isWordChar c = true) (rest : List Char) :
    token c rest = longToken c rest := by
  unfold token
  split <;> first | rfl | exact absurd h (by decide)

theorem spells_longToken {s : String} {c : Char} {w : List Char} {t : Token}
    (hs : s.toList = c :: w) (hc : isWordChar c = true)
    (ht : ∀ rest, isBoundary rest = true → longToken c (w ++ rest) = .ok (t, rest)) :
    Spells s [t] := by
  intro rest hrest
  rw [hs]
  refine lexed_cons (not_isBlank_of_isWordChar hc) ?_ ?_ ?_
  · rintro rfl
    exact absurd hc (by decide)
  · rintro rfl
    exact absurd hc (by decide)
  · exact (token_eq_longToken hc _).trans (ht rest hrest)

/-- A capital letter or an underscore followed by word characters. -/
def isVariableWord (s : String) : Bool :=
  match s.toList with
  | [] => false
  | c :: rest => (c.isUpper || c == '_') && rest.all isWordChar

theorem spells_plain {s : String} (h : isPlainSymbol s = true) : Spells s [.atom s] := by
  unfold isPlainSymbol at h
  split at h
  next => cases h
  next c w hs =>
    obtain ⟨hc, hw⟩ := Bool.and_eq_true_iff.1 h
    have hword : isWordChar c = true := by simp [isWordChar_eq, hc]
    refine spells_longToken hs hword fun rest hrest => ?_
    have hspan : spanWord (c :: (w ++ rest)) = (s, rest) := by
      rw [← List.cons_append, spanWord_run _ hrest, ← hs, String.ofList_toList]
      exact List.forall_mem_cons.2 ⟨hword, List.all_eq_true.1 hw⟩
    simp [longToken, not_isDigit_of_isLower hc, hc, hspan]

theorem spells_variable {s : String} (h : isVariableWord s = true) : Spells s [.var s] := by
  unfold isVariableWord at h
  split at h
  next => cases h
  next c w hs =>
    obtain ⟨hc, hw⟩ := Bool.and_eq_true_iff.1 h
    have hword : isWordChar c = true := by
      rcases Bool.or_eq_true_iff.1 hc with hc | hc
      · simp [isWordChar_eq, hc]
      · simp [isWordChar_eq, hc]
    refine spells_longToken hs hword fun rest hrest => ?_
    have hspan : spanWord (c :: (w ++ rest)) = (s, rest) := by
      rw [← List.cons_append, spanWord_run _ hrest, ← hs, String.ofList_toList]
      exact List.forall_mem_cons.2 ⟨hword, List.all_eq_true.1 hw⟩
    obtain ⟨hdigit, hlower⟩ := not_isDigit_of_isUpper hc
    simp [longToken, hdigit, hlower, hc, hspan]

/-! ## Quoted text -/

/-- The characters inside the quotes of a symbol. -/
def escaped (cs : List Char) : List Char := cs.flatMap fun c => (escapeSymbolChar c).toList

theorem quoted_escaped (cs rest : List Char) (h : '\n' ∉ cs) :
    quoted '\'' (escaped cs ++ '\'' :: rest) = .ok (cs, rest) := by
  induction cs with
  | nil => rfl
  | cons c cs ih =>
    simp only [List.mem_cons, not_or] at h
    have hline : (c == '\n') = false := by simpa using Ne.symm h.1
    have hmore := ih h.2
    rw [escaped, List.flatMap_cons, ← escaped, escapeSymbolChar]
    split
    next =>
      have hcs : ("\\" ++ c.toString).toList = ['\\', c] := by simp
      rw [hcs, List.cons_append, List.cons_append, List.cons_append, List.cons_append,
        List.nil_append, quoted, hline, hmore]
      rfl
    next hplain =>
      obtain ⟨hquote, hescape⟩ : c ≠ '\'' ∧ c ≠ '\\' := by simpa using hplain
      have hcs : c.toString.toList = [c] := by simp
      rw [hcs, List.cons_append, List.cons_append, List.nil_append, quoted, hline, hmore]
      · simp [hquote, Except.map]
      · exact fun hc _ => hescape hc
      · exact fun _ _ hc _ => hescape hc

theorem toList_foldl_escape (cs : List Char) (out : String) :
    (cs.foldl (fun out c => out ++ escapeSymbolChar c) out).toList = out.toList ++ escaped cs := by
  induction cs generalizing out with
  | nil => simp [escaped]
  | cons c cs ih => simp [escaped, ih]

theorem spells_symbol {s : String} (h : '\n' ∉ s.toList) : Spells (symbolText s) [.atom s] := by
  unfold symbolText
  split
  next hplain => exact spells_plain hplain
  next =>
    intro rest _
    have ht : token '\'' (escaped s.toList ++ '\'' :: rest) = .ok (.atom s, rest) := by
      rw [token, quoted_escaped s.toList rest h]
      simp [Except.map]
    have hfirst := lexed_cons (by decide) (by decide) (fun hc => absurd hc (by decide)) ht
    simpa [toList_foldl_escape] using hfirst

/-! ## Numbers -/

theorem isDigit_of_isBoundary {rest : List Char} (h : isBoundary rest = true) :
    ∀ c, rest.head? = some c → c.isDigit = false := by
  intro c hc
  obtain ⟨more, rfl⟩ := List.head?_eq_some_iff.1 hc
  have hword := isWordChar_of_isBoundary h
  rw [Bool.eq_false_iff, Ne, isWordChar_iff] at hword
  rw [Bool.eq_false_iff, Ne, isDigit_iff]
  omega

/-- A boundary does not go on with a number. -/
theorem fraction?_of_isBoundary {rest : List Char} (h : isBoundary rest = true) :
    fraction? rest = none := by
  unfold fraction?
  split
  next more =>
    have hdigits : (Decimal.spanDigits more).1 = [] := by
      cases more with
      | nil => rfl
      | cons c more =>
        have hc : c.isDigit = false := by
          have hends : Text.isBlank c = true ∨ c = '%' := by simpa [isBoundary, endsStatement] using h
          rcases hends with hends | rfl
          · refine Bool.eq_false_iff.2 fun hdigit => ?_
            exact absurd hends (by simp [not_isBlank_of_isWordChar (isWordChar_of_isDigit hdigit)])
          · decide
        rw [Decimal.spanDigits, List.takeWhile_cons, hc]
        rfl
    simp [hdigits]
  next => rfl

theorem exponent?_of_isBoundary {rest : List Char} (h : isBoundary rest = true) :
    exponent? rest = none := by
  unfold exponent?
  split
  next => exact absurd (isWordChar_of_isBoundary h) (by decide)
  next => exact absurd (isWordChar_of_isBoundary h) (by decide)
  next => rfl

theorem spanDigits_run {digits rest : List Char} (hdigits : ∀ c ∈ digits, c.isDigit = true)
    (hrest : ∀ c, rest.head? = some c → c.isDigit = false) :
    Decimal.spanDigits (digits ++ rest) = (digits, rest) := by
  obtain ⟨htake, hdrop⟩ := takeWhile_run hdigits hrest
  rw [Decimal.spanDigits, htake, hdrop]

theorem number_digits {digits rest : List Char} (hdigits : ∀ c ∈ digits, c.isDigit = true)
    (hrest : isBoundary rest = true) (hmax : Decimal.ofDigits digits < 2 ^ 63) :
    number (digits ++ rest) = .ok (.int (Int64.ofNat (Decimal.ofDigits digits)), rest) := by
  have hspan := spanDigits_run hdigits (isDigit_of_isBoundary hrest)
  have hfits : (Decimal.ofDigits digits : Int) ≤ Int64.maxValue.toInt := by
    have : Int64.maxValue.toInt = 2 ^ 63 - 1 := rfl
    omega
  simp only [number, hspan, fraction?_of_isBoundary hrest, Option.getD_none,
    exponent?_of_isBoundary hrest, Option.isSome_none, Bool.or_self, Bool.false_eq_true, if_false,
    if_pos hfits]
  rfl

/-- A text that starts with a digit is read as a number. -/
theorem spells_number {s : String} {digits more : List Char} {t : Token}
    (hs : s.toList = digits ++ more) (hdigits : ∀ c ∈ digits, c.isDigit = true)
    (hne : digits ≠ [])
    (ht : ∀ rest, isBoundary rest = true → number (digits ++ (more ++ rest)) = .ok (t, rest)) :
    Spells s [t] := by
  obtain ⟨c, w, rfl⟩ := List.exists_cons_of_ne_nil hne
  have hc : c.isDigit = true := hdigits c List.mem_cons_self
  refine spells_longToken hs (isWordChar_of_isDigit hc) fun rest hrest => ?_
  have hnumber := ht rest hrest
  rw [← List.append_assoc] at hnumber
  exact (if_pos hc).trans hnumber

theorem ofDigits_toDigits (n : Nat) : Decimal.ofDigits (Nat.toDigits 10 n) = n :=
  Nat.ofDigitChars_toDigits (by decide) (by decide)

theorem toList_toString (n : Nat) : (toString n).toList = Nat.toDigits 10 n := by
  simp [Nat.toString_eq_repr, Nat.repr_eq_ofList_toDigits]

theorem isDigit_of_mem_toDigits {n : Nat} : ∀ c ∈ Nat.toDigits 10 n, c.isDigit = true :=
  fun _ hc => Nat.isDigit_of_mem_toDigits (by decide) (by decide) hc

/-- The text of a number starts with a digit. -/
theorem exists_digit (n : Nat) :
    ∃ c w, (toString n).toList = c :: w ∧ Nat.toDigits 10 n = c :: w ∧ c.isDigit = true := by
  obtain ⟨c, w, hcw⟩ : ∃ c w, Nat.toDigits 10 n = c :: w :=
    List.exists_cons_of_ne_nil Nat.toDigits_ne_nil
  exact ⟨c, w, (toList_toString n).trans hcw, hcw,
    isDigit_of_mem_toDigits c (hcw ▸ List.mem_cons_self)⟩

theorem spells_nat {n : Nat} (h : n < 2 ^ 63) : Spells (toString n) [.int (Int64.ofNat n)] := by
  have htext : (toString n).toList = Nat.toDigits 10 n ++ [] := by
    rw [List.append_nil, toList_toString]
  refine spells_number htext isDigit_of_mem_toDigits Nat.toDigits_ne_nil fun rest hrest => ?_
  have hn := number_digits (isDigit_of_mem_toDigits (n := n)) hrest (by rwa [ofDigits_toDigits])
  rwa [ofDigits_toDigits] at hn

/-- The tokens of an integer: a minus is a token of its own. -/
def intTokens (n : Int64) : List Token :=
  if n.toInt < 0 then [.op "-", .int (-n)] else [.int n]

theorem spells_int {n : Int64} (h : n ≠ Int64.minValue) :
    Spells (toString n.toInt) (intTokens n) := by
  have hlow : -2 ^ 63 < n.toInt := by
    have hle := Int64.minValue_le_toInt n
    have hne : n.toInt ≠ Int64.minValue.toInt := fun hn => h (Int64.toInt_inj.1 hn)
    rw [Int64.toInt_minValue] at hle hne
    omega
  have hhigh := Int64.toInt_lt n
  have hself := Int64.ofInt_toInt n
  rw [intTokens]
  cases hn : n.toInt with
  | ofNat m =>
    rw [hn] at hhigh hself
    rw [if_neg (by simp), ← hself]
    exact spells_nat (Int.ofNat_lt.1 hhigh)
  | negSucc m =>
    rw [hn] at hlow hself
    rw [if_pos (by simp), ← hself, Int64.neg_ofInt]
    exact marks_minus.append_spells (spells_nat (n := m + 1) (by omega))

end Source

namespace CompareOp

/-- The token of a comparison sign. -/
def token : CompareOp → Token
  | .is => .atom "is"
  | op => .op op.symbol

end CompareOp

namespace BinOp

/-- The token of an operator. -/
def token : BinOp → Token
  | .mod => .atom "mod"
  | op => .op op.symbol

end BinOp

namespace Source

theorem marks_compareOp (op : CompareOp) : Marks (op.symbol ++ " ") [op.token] := by
  cases op with
  | is => exact (spells_plain (by decide)).append_marks (fun _ => rfl) marks_blank
  | _ => exact marks_operator _ _ _ rfl rfl (by decide) (by decide) fun _ => rfl

theorem marks_binOp (op : BinOp) : Marks (op.symbol ++ " ") [op.token] := by
  cases op with
  | mod => exact (spells_plain (by decide)).append_marks (fun _ => rfl) marks_blank
  | _ => exact marks_operator _ _ _ rfl rfl (by decide) (by decide) fun _ => rfl

end Source
end Horn
