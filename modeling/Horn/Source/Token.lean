import Horn.Failure
import Horn.Number.Decimal
import Horn.Text.Blank
import Horn.Text.Quoted

/-!
The tokens of program text.  A token is read from the front of the text and the rest is what
follows it; blanks and comments separate tokens.  Places are kept as what is left of the text, and
turned into lines and columns only for a message.
-/

namespace Horn

/-- A token of program text. -/
inductive Token where
  /-- A word that starts with a small letter, or quoted text. -/
  | atom (name : String)
  /-- A word that starts with a capital letter or an underscore. -/
  | var (name : String)
  | int (n : Int64)
  | float (x : Double)
  | string (s : String)
  | leftParen
  | rightParen
  | leftBracket
  | rightBracket
  | comma
  | bar
  /-- The point at the end of a statement. -/
  | dot
  /-- The sign `:-`. -/
  | neck
  /-- The sign `?-`. -/
  | query
  | colon
  | op (symbol : String)
  /-- The end of the text. -/
  | endOfText
deriving DecidableEq, Inhabited

namespace Token

/-- A token as messages show it. -/
def text : Token → String
  | .atom s => "Atom(" ++ Text.quote s ++ ")"
  | .var s => "Variable(" ++ Text.quote s ++ ")"
  | .int n => "Int(" ++ toString n.toInt ++ ")"
  | .float x => "Float(" ++ x.text ++ ")"
  | .string s => "StringLit(" ++ Text.quote s ++ ")"
  | .leftParen => "LParen"
  | .rightParen => "RParen"
  | .leftBracket => "LBracket"
  | .rightBracket => "RBracket"
  | .comma => "Comma"
  | .bar => "Bar"
  | .dot => "Dot"
  | .neck => "Neck"
  | .query => "Query"
  | .colon => "Colon"
  | .op s => "Op(" ++ Text.quote s ++ ")"
  | .endOfText => "Eof"

end Token

/-- A fault and the text that was left where it was noticed. -/
structure Fault where
  rest : List Char
  reason : String
deriving DecidableEq, Inhabited

namespace Fault

/-- The line and the column after some text, both from one. -/
def place (before : List Char) : Nat × Nat :=
  (before.count '\n' + 1, (before.reverse.takeWhile (· != '\n')).length + 1)

/-- The fault with its place in the whole text. -/
def locate (f : Fault) (source : List Char) : ParseError :=
  let (line, column) := place (source.take (source.length - f.rest.length))
  ⟨line, column, f.reason⟩

end Fault

namespace Source

/-- What follows the end of a block comment. -/
def afterComment? : List Char → Option (List Char)
  | '*' :: '/' :: rest => some rest
  | _ :: rest => afterComment? rest
  | [] => none

theorem length_afterComment? {cs rest : List Char} (h : afterComment? cs = some rest) :
    rest.length < cs.length := by
  fun_induction afterComment? cs with
  | case1 r =>
    obtain rfl : r = rest := by simpa using h
    simp only [List.length_cons]
    omega
  | case2 c r _ ih => exact Nat.lt_succ_of_lt (ih h)
  | case3 => cases h

theorem length_dropWhile_le (p : Char → Bool) (cs : List Char) :
    (cs.dropWhile p).length ≤ cs.length :=
  (List.dropWhile_sublist p).length_le

/-- Skips blanks, comments from `%` to the end of the line, and block comments. -/
def skipBlanks (cs : List Char) : Except Fault (List Char) :=
  match cs with
  | [] => .ok []
  | '%' :: rest =>
    have := length_dropWhile_le (· != '\n') rest
    skipBlanks (rest.dropWhile (· != '\n'))
  | '/' :: '*' :: rest =>
    match h : afterComment? rest with
    | none => .error ⟨cs, "unterminated block comment"⟩
    | some after =>
      have := length_afterComment? h
      skipBlanks after
  | c :: rest => if Text.isBlank c then skipBlanks rest else .ok (c :: rest)
termination_by cs.length

theorem length_skipBlanks {cs rest : List Char} (h : skipBlanks cs = .ok rest) :
    rest.length ≤ cs.length := by
  fun_induction skipBlanks cs with
  | case1 =>
    obtain rfl : [] = rest := by simpa using h
    exact Nat.le_refl _
  | case2 r hle ih =>
    have := ih h
    simp only [List.length_cons]
    omega
  | case3 => cases h
  | case4 r after _ hlt ih =>
    have := ih h
    simp only [List.length_cons]
    omega
  | case5 c r _ _ _ ih => exact Nat.le_succ_of_le (ih h)
  | case6 c r _ _ _ =>
    obtain rfl : c :: r = rest := by simpa using h
    exact Nat.le_refl _

/-- The characters of words after the first one. -/
def isWordChar (c : Char) : Bool := c.isAlphanum || c == '_'

theorem isWordChar_eq (c : Char) :
    isWordChar c = (c.isUpper || c.isLower || c.isDigit || c == '_') := rfl

/-- Splits a word off. -/
def spanWord (cs : List Char) : String × List Char :=
  (String.ofList (cs.takeWhile isWordChar), cs.dropWhile isWordChar)

/-- The digits after a decimal point, when there are any. -/
def fraction? : List Char → Option (List Char × List Char)
  | '.' :: rest =>
    let (digits, after) := Decimal.spanDigits rest
    if digits.isEmpty then none else some (digits, after)
  | _ => none

/-- Digits with an optional sign, as the integer they denote. -/
def signedDigits? (cs : List Char) : Option (Int × List Char) :=
  let (negative, unsigned) := Decimal.splitSign cs
  let (digits, after) := Decimal.spanDigits unsigned
  if digits.isEmpty then none else some (Decimal.signed negative digits, after)

/-- The power of ten of a number, when it has one. -/
def exponent? : List Char → Option (Int × List Char)
  | 'e' :: rest => signedDigits? rest
  | 'E' :: rest => signedDigits? rest
  | _ => none

/-- Reads a number.  A fraction or an exponent makes it a float; an integer has to fit. -/
def number (cs : List Char) : Except Fault (Token × List Char) :=
  let (whole, afterWhole) := Decimal.spanDigits cs
  let fraction := fraction? afterWhole
  let (decimals, afterFraction) := fraction.getD ([], afterWhole)
  let exponent := exponent? afterFraction
  let (power, rest) := exponent.getD (0, afterFraction)
  if fraction.isSome || exponent.isSome then
    .ok (.float (Decimal.ofParts whole decimals power).toDouble, rest)
  else if (Decimal.ofDigits whole : Int) ≤ Int64.maxValue.toInt then
    .ok (.int (Int64.ofInt (Decimal.ofDigits whole)), rest)
  else .error ⟨rest, "integer out of range: " ++ String.ofList whole⟩

def unterminated (rest : List Char) : Except Fault (List Char × List Char) :=
  .error ⟨rest, "unterminated quoted text"⟩

/-- Reads up to the closing quote.  A backslash keeps the next character, whatever it is; text does
not go on over the end of a line. -/
def quoted (quote : Char) : List Char → Except Fault (List Char × List Char)
  | [] => unterminated []
  | ['\\'] => unterminated []
  | '\\' :: c :: rest =>
    if c == '\n' then unterminated (c :: rest)
    else (quoted quote rest).map fun (s, after) => (c :: s, after)
  | c :: rest =>
    if c == '\n' then unterminated rest
    else if c == quote then .ok ([], rest)
    else (quoted quote rest).map fun (s, after) => (c :: s, after)

/-- The operator symbols, each before the shorter ones that it starts with. -/
def operators : List String :=
  ["=:=", "=\\=", "\\==", "@=<", "@<=", "@>=", "=<", "<=", ">=", "==", "\\=", "@<", "@>", "\\+",
    "//", "**", "=", "<", ">", "+", "-", "*", "/", "#"]

def operator? (cs : List Char) : Option String :=
  operators.find? fun s => s.toList.isPrefixOf cs

/-- Whether a point before this text ends a statement. -/
def endsStatement : List Char → Bool
  | [] => true
  | c :: _ => Text.isBlank c || c == '%'

/-- Reads a word, a number or an operator. -/
def longToken (c : Char) (rest : List Char) : Except Fault (Token × List Char) :=
  let cs := c :: rest
  if c.isDigit then number cs
  else if c.isLower then
    let (word, after) := spanWord cs
    .ok (.atom word, after)
  else if c.isUpper || c == '_' then
    let (word, after) := spanWord cs
    .ok (.var word, after)
  else
    match operator? cs with
    | some s => .ok (.op s, cs.drop s.length)
    | none => .error ⟨cs, "unexpected character: '" ++ c.toString ++ "'"⟩

/-- Reads a token that starts with the given character. -/
def token (c : Char) (rest : List Char) : Except Fault (Token × List Char) :=
  match c, rest with
  | '(', _ => .ok (.leftParen, rest)
  | ')', _ => .ok (.rightParen, rest)
  | '[', _ => .ok (.leftBracket, rest)
  | ']', _ => .ok (.rightBracket, rest)
  | ',', _ => .ok (.comma, rest)
  | '|', _ => .ok (.bar, rest)
  | ':', '-' :: after => .ok (.neck, after)
  | '?', '-' :: after => .ok (.query, after)
  | ':', _ => .ok (.colon, rest)
  | '"', _ => (quoted '"' rest).map fun (s, after) => (.string (String.ofList s), after)
  | '\'', _ => (quoted '\'' rest).map fun (s, after) => (.atom (String.ofList s), after)
  | '.', _ => if endsStatement rest then .ok (.dot, rest) else longToken c rest
  | _, _ => longToken c rest

/-! ## Reading takes text away -/

theorem length_spanDigits (cs : List Char) : (Decimal.spanDigits cs).2.length ≤ cs.length :=
  length_dropWhile_le _ _

theorem length_splitSign (cs : List Char) : (Decimal.splitSign cs).2.length ≤ cs.length := by
  unfold Decimal.splitSign
  split
  · exact Nat.le_succ _
  · exact Nat.le_succ _
  · exact Nat.le_refl _

theorem length_fraction? {cs digits rest : List Char} (h : fraction? cs = some (digits, rest)) :
    rest.length ≤ cs.length := by
  unfold fraction? at h
  split at h
  · rename_i r
    have hl := length_spanDigits r
    simp only [Option.ite_none_left_eq_some, Option.some.injEq, Prod.mk.injEq] at h
    rw [h.2.2] at hl
    exact Nat.le_succ_of_le hl
  · cases h

theorem length_signedDigits? {cs rest : List Char} {n : Int}
    (h : signedDigits? cs = some (n, rest)) : rest.length ≤ cs.length := by
  have hs := length_splitSign cs
  have hl := length_spanDigits (Decimal.splitSign cs).2
  simp only [signedDigits?, Option.ite_none_left_eq_some, Option.some.injEq, Prod.mk.injEq] at h
  rw [h.2.2] at hl
  exact Nat.le_trans hl hs

theorem length_exponent? {cs rest : List Char} {n : Int} (h : exponent? cs = some (n, rest)) :
    rest.length ≤ cs.length := by
  unfold exponent? at h
  split at h
  · exact Nat.le_succ_of_le (length_signedDigits? h)
  · exact Nat.le_succ_of_le (length_signedDigits? h)
  · cases h

theorem length_getD_fraction? (cs : List Char) :
    ((fraction? cs).getD ([], cs)).2.length ≤ cs.length := by
  cases h : fraction? cs with
  | none => exact Nat.le_refl _
  | some r => exact length_fraction? h

theorem length_getD_exponent? (cs : List Char) :
    ((exponent? cs).getD (0, cs)).2.length ≤ cs.length := by
  cases h : exponent? cs with
  | none => exact Nat.le_refl _
  | some r => exact length_exponent? h

/-- A character at which a run starts is part of it. -/
theorem length_dropWhile_lt {p : Char → Bool} {c : Char} (h : p c = true) (cs : List Char) :
    ((c :: cs).dropWhile p).length < (c :: cs).length := by
  rw [List.dropWhile_cons_of_pos h]
  exact Nat.lt_succ_of_le (length_dropWhile_le p cs)

theorem length_number {c : Char} {cs rest : List Char} {t : Token} (hc : c.isDigit = true)
    (h : number (c :: cs) = .ok (t, rest)) : rest.length < (c :: cs).length := by
  have hw : (Decimal.spanDigits (c :: cs)).2.length < (c :: cs).length :=
    length_dropWhile_lt hc cs
  have hf := length_getD_fraction? (Decimal.spanDigits (c :: cs)).2
  have he := length_getD_exponent?
    ((fraction? (Decimal.spanDigits (c :: cs)).2).getD ([], (Decimal.spanDigits (c :: cs)).2)).2
  simp only [number] at h
  split at h
  · cases h
    omega
  · split at h
    · cases h
      omega
    · cases h

theorem ok_of_map {ε α β : Type} {f : α → β} {r : Except ε α} {b : β} (h : r.map f = .ok b) :
    ∃ a, r = .ok a ∧ f a = b := by
  cases r with
  | error e => cases h
  | ok a => exact ⟨a, rfl, by simpa [Except.map] using h⟩

theorem length_quoted {quote : Char} {cs s rest : List Char} (h : quoted quote cs = .ok (s, rest)) :
    rest.length < cs.length := by
  fun_induction quoted quote cs generalizing s with
  | case1 => cases h
  | case2 => cases h
  | case3 => cases h
  | case4 c r _ ih =>
    obtain ⟨a, ha, hr⟩ := ok_of_map h
    cases hr
    exact Nat.lt_succ_of_lt (Nat.lt_succ_of_lt (ih ha))
  | case5 => cases h
  | case6 c r _ _ hq =>
    cases h
    exact Nat.lt_succ_self _
  | case7 c r _ _ _ hq ih =>
    obtain ⟨a, ha, hr⟩ := ok_of_map h
    cases hr
    exact Nat.lt_succ_of_lt (ih ha)

theorem operators_ne_empty : ∀ s ∈ operators, 0 < s.length := by decide

theorem length_longToken {c : Char} {cs rest : List Char} {t : Token}
    (h : longToken c cs = .ok (t, rest)) : rest.length < (c :: cs).length := by
  simp only [longToken] at h
  split at h
  · rename_i hc
    exact length_number hc h
  split at h
  · rename_i hc
    cases h
    have : isWordChar c = true := by simp [isWordChar_eq, hc]
    exact length_dropWhile_lt this cs
  split at h
  · rename_i hc
    cases h
    have : isWordChar c = true := by
      rcases Bool.or_eq_true_iff.1 hc with hc | hc
      · simp [isWordChar_eq, hc]
      · simp [isWordChar_eq, hc]
    exact length_dropWhile_lt this cs
  split at h
  · rename_i s hs
    cases h
    have := operators_ne_empty s (List.mem_of_find?_eq_some hs)
    simp only [List.length_drop, List.length_cons]
    omega
  · cases h

/-- Every token takes at least one character away. -/
theorem length_token {c : Char} {cs rest : List Char} {t : Token}
    (h : token c cs = .ok (t, rest)) : rest.length < (c :: cs).length := by
  have text {quote : Char} {f : List Char × List Char → Token × List Char}
      (hf : ∀ p, (f p).2 = p.2) (h : (quoted quote cs).map f = .ok (t, rest)) :
      rest.length < (c :: cs).length := by
    obtain ⟨a, ha, hr⟩ := ok_of_map h
    have hl : a.2.length < cs.length := length_quoted ha
    have : a.2 = rest := by rw [← hf a, hr]
    rw [← this]
    exact Nat.lt_succ_of_lt hl
  unfold token at h
  split at h
  case h_10 => exact text (fun _ => rfl) h
  case h_11 => exact text (fun _ => rfl) h
  case h_12 =>
    split at h
    · cases h
      exact Nat.lt_succ_self _
    · exact length_longToken h
  case h_13 => exact length_longToken h
  all_goals
    cases h
    simp only [List.length_cons]
    omega

/-! ## The tokens of a text -/

/-- A token with the text from its first character on. -/
structure Lexeme where
  token : Token
  text : List Char

/-- The tokens of a text up to its end or up to the first fault. -/
structure Lexemes where
  items : List Lexeme
  fault : Option Fault

/-- Splits a text into tokens. -/
def lexemes (cs : List Char) : Lexemes :=
  match h : skipBlanks cs with
  | .error f => ⟨[], some f⟩
  | .ok [] => ⟨[], none⟩
  | .ok (c :: rest) =>
    match ht : token c rest with
    | .error f => ⟨[], some f⟩
    | .ok (t, after) =>
      have := length_skipBlanks h
      have := length_token ht
      let more := lexemes after
      ⟨⟨t, c :: rest⟩ :: more.items, more.fault⟩
termination_by cs.length

end Source
end Horn
