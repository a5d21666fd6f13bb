import Horn.Proofs.BytePositions
import Horn.Proofs.Lexing
import Mathlib.Data.List.TakeWhile

/-!
Tokens by byte positions.  A scan keeps a byte position, the line and the column there and those of the
last token, and takes slices of the text at positions that it computes.  Slices outside of the text or
inside a character, and loops that go on for longer than the text, would stop it.  Neither happens: a
scan from what is left of a text does what reading from there does, here for blanks, words and numbers.
-/

namespace Horn

open String (utf8Len)

namespace Source

/-- Why a scan stops. -/
inductive Halt where
  /-- A slice was asked for whose ends are not both between characters of the text. -/
  | outside
  /-- A loop went on for more rounds than it was given. -/
  | endless
  /-- The text is at fault, in the given line and column. -/
  | fault (reason : String) (place : Nat × Nat)

/-- The line and the column at which the given rest of a text starts. -/
def placeBefore (text rest : List Char) : Nat × Nat :=
  Fault.place (text.take (text.length - rest.length))

theorem placeBefore_append (front rest : List Char) :
    placeBefore (front ++ rest) rest = Fault.place front := by
  rw [placeBefore, List.length_append, Nat.add_sub_cancel, List.take_left]

/-- A fault of a text as a reason to stop. -/
def haltOf (text : List Char) (f : Fault) : Halt := .fault f.reason (placeBefore text f.rest)

/-- Where a scan stands in a text: the byte position, the line and the column there, and the line and
the column where the last token starts. -/
structure Scan where
  position : Nat
  place : Nat × Nat
  start : Nat × Nat

namespace Scan

def begin : Scan := ⟨0, (1, 1), (1, 1)⟩

def orOutside {α : Type} : Option α → Except Halt α
  | some a => .ok a
  | none => .error .outside

def fail {α : Type} (s : Scan) (reason : String) : Except Halt α := .error (.fault reason s.place)

section

variable (text : List Char)

/-- What is left of the text. -/
def left (s : Scan) : Except Halt (List Char) := orOutside (Text.dropBytes? s.position text)

/-- Moves on by a number of bytes. -/
def advance (s : Scan) (bytes : Nat) : Except Halt Scan := do
  let consumed ← orOutside (Text.slice? text s.position (s.position + bytes))
  return { s with
    position := s.position + bytes
    place := consumed.foldl Fault.stepPlace s.place }

/-- Moves on past blanks and comments. -/
def skip : Nat → Scan → Except Halt Scan
  | 0, _ => .error .endless
  | rounds + 1, s => do
    match ← s.left text with
    | [] => return s
    | c :: cs =>
      if Text.isBlank c then skip rounds (← s.advance text c.utf8Size)
      else if c = '%' then
        skip rounds
          (← s.advance text ((Text.find? ['\n'] (c :: cs)).getD (utf8Len (c :: cs))))
      else if ['/', '*'].isPrefixOf (c :: cs) then
        match Text.find? ['*', '/'] (← orOutside (Text.dropBytes? 2 (c :: cs))) with
        | some n => skip rounds (← s.advance text (n + 4))
        | none => s.fail "unterminated block comment"
      else return s

/-- Moves on as long as the characters satisfy a test, by so many bytes for each. -/
def skipWhile (p : Char → Bool) (width : Char → Nat) : Nat → Scan → Except Halt Scan
  | 0, _ => .error .endless
  | rounds + 1, s => do
    match ← s.left text with
    | [] => return s
    | c :: _ =>
      if p c then skipWhile p width rounds (← s.advance text (width c)) else return s

def word (rounds : Nat) (s : Scan) : Except Halt (String × Scan) := do
  let after ← skipWhile text isWordChar Char.utf8Size rounds s
  return (String.ofList (← orOutside (Text.slice? text s.position after.position)), after)

def digits (rounds : Nat) (s : Scan) : Except Halt Scan :=
  skipWhile text Char.isDigit (fun _ => 1) rounds s

/-- Moves on past a decimal point and digits, if there are any. -/
def fraction (rounds : Nat) (s : Scan) : Except Halt (Bool × Scan) := do
  match ← s.left text with
  | '.' :: c :: _ =>
    if c.isDigit then return (true, ← digits text rounds (← s.advance text 1))
    else return (false, s)
  | _ => return (false, s)

/-- The bytes of a sign before a number. -/
def signWidth (cs : List Char) : Nat :=
  if cs.head?.any fun c => c == '+' || c == '-' then 1 else 0

/-- Moves on past a power of ten, if there is one. -/
def power (rounds : Nat) (s : Scan) : Except Halt (Bool × Scan) := do
  let cs ← s.left text
  if cs.head?.any fun c => c == 'e' || c == 'E' then
    let after ← orOutside (Text.dropBytes? 1 cs)
    let unsigned ← orOutside (Text.dropBytes? (signWidth after) after)
    if unsigned.head?.any Char.isDigit then
      return (true, ← digits text rounds (← s.advance text (1 + signWidth after)))
    else return (false, s)
  else return (false, s)

def number (rounds : Nat) (s : Scan) : Except Halt (Token × Scan) := do
  let (hasFraction, s1) ← fraction text rounds (← digits text rounds s)
  let (hasPower, s2) ← power text rounds s1
  let written ← orOutside (Text.slice? text s.position s2.position)
  if hasFraction || hasPower then
    match Decimal.ofText? written with
    | some d => return (.float d.toDouble, s2)
    | none => s2.fail ("invalid number: " ++ String.ofList written)
  else if (Decimal.ofDigits written : Int) ≤ Int64.maxValue.toInt then
    return (.int (Int64.ofInt (Decimal.ofDigits written)), s2)
  else s2.fail ("integer out of range: " ++ String.ofList written)

/-- Moves on to the closing quote and collects the text before it. -/
def quotedFrom (quote : Char) : Nat → List Char → Scan → Except Halt (List Char × Scan)
  | 0, _, _ => .error .endless
  | rounds + 1, content, s => do
    match ← s.left text with
    | [] => s.fail "unterminated quoted text"
    | c :: _ =>
      let s1 ← s.advance text c.utf8Size
      if c = '\\' then
        match ← s1.left text with
        | [] => s1.fail "unterminated quoted text"
        | d :: _ =>
          if d = '\n' then s1.fail "unterminated quoted text"
          else quotedFrom quote rounds (content ++ [d]) (← s1.advance text d.utf8Size)
      else if c = '\n' then s1.fail "unterminated quoted text"
      else if c = quote then return (content, s1)
      else quotedFrom quote rounds (content ++ [c]) s1

def quoted (quote : Char) (rounds : Nat) (s : Scan) : Except Halt (String × Scan) := do
  let (content, after) ← quotedFrom text quote rounds [] (← s.advance text 1)
  return (String.ofList content, after)

/-- The signs of one character that no other sign starts with. -/
def single? : Char → Option Token
  | '(' => some .leftParen
  | ')' => some .rightParen
  | '[' => some .leftBracket
  | ']' => some .rightBracket
  | ',' => some .comma
  | '|' => some .bar
  | _ => none

/-- Reads quoted text, a number, a word or an operator that starts with the given character. -/
def longToken (rounds : Nat) (c : Char) (cs : List Char) (s : Scan) : Except Halt (Token × Scan) := do
  if c = '"' then
    let (content, after) ← quoted text '"' rounds s
    return (.string content, after)
  else if c = '\'' then
    let (content, after) ← quoted text '\'' rounds s
    return (.atom content, after)
  else if c.isDigit then number text rounds s
  else if c.isLower then
    let (name, after) ← word text rounds s
    return (.atom name, after)
  else if c.isUpper || c == '_' then
    let (name, after) ← word text rounds s
    return (.var name, after)
  else
    match operator? (c :: cs) with
    | some symbol => return (.op symbol, ← s.advance text symbol.utf8ByteSize)
    | none => s.fail ("unexpected character: '" ++ c.toString ++ "'")

/-- Reads a token that starts with the given character. -/
def token (rounds : Nat) (c : Char) (cs : List Char) (s : Scan) : Except Halt (Token × Scan) := do
  match single? c with
  | some t => return (t, ← s.advance text 1)
  | none =>
    if [':', '-'].isPrefixOf (c :: cs) then return (.neck, ← s.advance text 2)
    else if ['?', '-'].isPrefixOf (c :: cs) then return (.query, ← s.advance text 2)
    else if c = ':' then return (.colon, ← s.advance text 1)
    else if c = '.' then
      if endsStatement (← orOutside (Text.dropBytes? 1 (c :: cs))) then
        return (.dot, ← s.advance text 1)
      else longToken text rounds c cs s
    else longToken text rounds c cs s

/-- Reads the next token. -/
def next (rounds : Nat) (s : Scan) : Except Halt (Token × Scan) := do
  let skipped ← skip text rounds s
  let s1 := { skipped with start := skipped.place }
  match ← s1.left text with
  | [] => return (.endOfText, s1)
  | c :: cs => token text rounds c cs s1

end

/-! ## Standing before what is left -/

/-- The scan that stands before the given rest of a text. -/
def before (text rest : List Char) (start : Nat × Nat) : Scan :=
  ⟨utf8Len (text.take (text.length - rest.length)), placeBefore text rest, start⟩

/-- What a scan comes to when what is left of the text is read. -/
def ofReading {α : Type} (text : List Char) (start : Nat × Nat) :
    Except Fault (α × List Char) → Except Halt (α × Scan)
  | .ok (a, after) => .ok (a, before text after start)
  | .error f => .error (haltOf text f)

variable {text rest : List Char} {start : Nat × Nat}

theorem before_append (front rest : List Char) (start : Nat × Nat) :
    before (front ++ rest) rest start = ⟨utf8Len front, Fault.place front, start⟩ := by
  rw [before, placeBefore_append, List.length_append, Nat.add_sub_cancel, List.take_left]

theorem before_piece (front piece rest : List Char) (start : Nat × Nat) :
    before (front ++ (piece ++ rest)) rest start =
      ⟨utf8Len (front ++ piece), Fault.place (front ++ piece), start⟩ := by
  rw [← List.append_assoc, before_append]

theorem left_before (h : rest <:+ text) : (before text rest start).left text = .ok rest := by
  obtain ⟨front, rfl⟩ := h
  rw [before_append, left, Text.dropBytes?_append]
  rfl

/-- Moving on past a piece of the text leaves what follows it. -/
theorem advance_before (piece rest : List Char) (h : piece ++ rest <:+ text) {bytes : Nat}
    (hbytes : bytes = utf8Len piece) :
    (before text (piece ++ rest) start).advance text bytes = .ok (before text rest start) := by
  obtain ⟨front, rfl⟩ := h
  rw [before_append, advance, hbytes, Text.slice?_append, before_piece, String.utf8Len_append,
    ← Fault.foldl_stepPlace]
  rfl

theorem slice?_before (piece rest : List Char) (start : Nat × Nat) (h : piece ++ rest <:+ text) :
    Text.slice? text (before text (piece ++ rest) start).position (before text rest start).position =
      some piece := by
  obtain ⟨front, rfl⟩ := h
  rw [before_piece, before_append, String.utf8Len_append]
  exact Text.slice?_append front piece rest

theorem advance_char {c : Char} (h : c :: rest <:+ text) :
    (before text (c :: rest) start).advance text c.utf8Size = .ok (before text rest start) :=
  advance_before [c] rest h (by simp)

/-- Moving on past a sign of one byte. -/
theorem advance_sign {c : Char} (hc : c.utf8Size = 1) (h : c :: rest <:+ text) :
    (before text (c :: rest) start).advance text 1 = .ok (before text rest start) :=
  hc ▸ advance_char h

/-! ## Blanks -/

/-- What a sign of two characters stands before. -/
theorem of_isPrefixOf_pair {a b c : Char} {cs : List Char}
    (h : [a, b].isPrefixOf (c :: cs) = true) : ∃ more, c = a ∧ cs = b :: more := by
  obtain ⟨more, hmore⟩ := List.isPrefixOf_iff_prefix.1 h
  obtain ⟨rfl, rfl⟩ := List.cons.inj hmore
  exact ⟨more, rfl, rfl⟩

/-- A comment to the end of the line is as long as the search for the line feed tells. -/
theorem advance_line {cs : List Char} (h : '%' :: cs <:+ text) :
    (before text ('%' :: cs) start).advance text
      ((Text.find? ['\n'] ('%' :: cs)).getD (utf8Len ('%' :: cs))) =
    .ok (before text (cs.dropWhile (· != '\n')) start) := by
  have hpiece : ('%' :: cs.takeWhile (· != '\n')) ++ cs.dropWhile (· != '\n') = '%' :: cs :=
    congrArg ('%' :: ·) List.takeWhile_append_dropWhile
  have hlen : (Text.find? ['\n'] ('%' :: cs)).getD (utf8Len ('%' :: cs)) =
      utf8Len ('%' :: cs.takeWhile (· != '\n')) :=
    Text.find?_char '\n' ('%' :: cs)
  rw [hlen, ← hpiece]
  exact advance_before _ _ (hpiece ▸ h) rfl

/-- A block comment has two signs at each end, of a byte for each character. -/
theorem advance_block {inside after : List Char}
    (h : '/' :: '*' :: (inside ++ '*' :: '/' :: after) <:+ text) :
    (before text ('/' :: '*' :: (inside ++ '*' :: '/' :: after)) start).advance text
      (utf8Len inside + 4) = .ok (before text after start) := by
  have hpiece : ('/' :: '*' :: (inside ++ ['*', '/'])) ++ after =
      '/' :: '*' :: (inside ++ '*' :: '/' :: after) := by simp
  rw [← hpiece]
  refine advance_before _ _ (hpiece ▸ h) ?_
  have hsign : Char.utf8Size '/' = 1 ∧ Char.utf8Size '*' = 1 := ⟨rfl, rfl⟩
  simp only [String.utf8Len_cons, String.utf8Len_append, String.utf8Len_nil, hsign]

section

variable {cs : List Char} (rounds : Nat)

theorem skip_blank {c : Char} (hc : Text.isBlank c = true) (h : c :: cs <:+ text) :
    (before text (c :: cs) start).skip text (rounds + 1) =
      (before text cs start).skip text rounds := by
  rw [skip, left_before h]
  dsimp only [bind, Except.bind]
  rw [if_pos hc, advance_char h]

theorem skip_line (h : '%' :: cs <:+ text) :
    (before text ('%' :: cs) start).skip text (rounds + 1) =
      (before text (cs.dropWhile (· != '\n')) start).skip text rounds := by
  have hblank : ¬ Text.isBlank '%' = true := by decide
  rw [skip, left_before h]
  dsimp only [bind, Except.bind]
  rw [if_neg hblank, if_pos rfl, advance_line h]

theorem skip_block (h : '/' :: '*' :: cs <:+ text) :
    (before text ('/' :: '*' :: cs) start).skip text (rounds + 1) =
      match afterComment? cs with
      | none => (before text ('/' :: '*' :: cs) start).fail "unterminated block comment"
      | some after => (before text after start).skip text rounds := by
  have hblank : ¬ Text.isBlank '/' = true := by decide
  have hline : ¬ '/' = '%' := by decide
  have hopens : ['/', '*'].isPrefixOf ('/' :: '*' :: cs) = true := rfl
  have hdrop : Text.dropBytes? 2 ('/' :: '*' :: cs) = some cs :=
    Text.dropBytes?_append ['/', '*'] cs
  have hfind := Text.find?_afterComment cs
  rw [skip, left_before h]
  dsimp only [bind, Except.bind]
  rw [if_neg hblank, if_neg hline, if_pos hopens, hdrop]
  dsimp only [orOutside]
  cases hn : Text.find? ['*', '/'] cs with
  | none =>
    rw [hn] at hfind
    rw [hfind]
  | some n =>
    rw [hn] at hfind
    obtain ⟨inside, after, rfl, rfl, hafter⟩ := hfind
    dsimp only
    rw [advance_block h, hafter]

theorem skip_done {c : Char} (hblank : ¬ Text.isBlank c = true) (hline : c ≠ '%')
    (hblock : ∀ more, c = '/' → cs = '*' :: more → False) (h : c :: cs <:+ text) :
    (before text (c :: cs) start).skip text (rounds + 1) = .ok (before text (c :: cs) start) := by
  have hno : ¬ ['/', '*'].isPrefixOf (c :: cs) = true := by
    intro hstarts
    obtain ⟨more, hc, hcs⟩ := of_isPrefixOf_pair hstarts
    exact hblock more hc hcs
  rw [skip, left_before h]
  dsimp only [bind, Except.bind]
  rw [if_neg hblank, if_neg hline, if_neg hno]
  rfl

end

/-- What reading comes to when nothing but the rest of the text is read. -/
def ofRest (text : List Char) (start : Nat × Nat) : Except Fault (List Char) → Except Halt Scan
  | .ok after => .ok (before text after start)
  | .error f => .error (haltOf text f)

theorem skip_before (h : rest <:+ text) {rounds : Nat} (hrounds : rest.length < rounds) :
    (before text rest start).skip text rounds = ofRest text start (skipBlanks rest) := by
  induction rounds generalizing rest with
  | zero => omega
  | succ rounds ih =>
    fun_cases skipBlanks rest with
    | case1 =>
      rw [skip, left_before h]
      rfl
    | case2 cs hle =>
      have hrest : cs.dropWhile (· != '\n') <:+ text :=
        (List.dropWhile_suffix _).trans ((List.suffix_cons _ _).trans h)
      rw [skip_line rounds h]
      exact ih hrest (Nat.lt_of_le_of_lt hle (Nat.lt_of_succ_lt_succ hrounds))
    | case3 cs hafter =>
      rw [skip_block rounds h, hafter]
      rfl
    | case4 cs after hafter hlt =>
      have hrest : after <:+ '/' :: '*' :: cs :=
        (suffix_afterComment? hafter).trans ((List.suffix_cons _ _).trans (List.suffix_cons _ _))
      rw [skip_block rounds h, hafter]
      exact ih (hrest.trans h) (Nat.lt_trans hlt (Nat.lt_of_succ_lt (Nat.lt_of_succ_lt_succ hrounds)))
    | case5 c cs _ _ hc =>
      rw [skip_blank rounds hc h]
      exact ih ((List.suffix_cons c cs).trans h) (Nat.lt_of_succ_lt_succ hrounds)
    | case6 c cs hline hblock hc => exact skip_done rounds hc hline hblock h

theorem skipWhile_before {p : Char → Bool} {width : Char → Nat}
    (hwidth : ∀ c, p c = true → width c = c.utf8Size) (h : rest <:+ text) {rounds : Nat}
    (hrounds : rest.length < rounds) :
    (before text rest start).skipWhile text p width rounds =
      .ok (before text (rest.dropWhile p) start) := by
  induction rounds generalizing rest with
  | zero => omega
  | succ rounds ih =>
    rw [skipWhile, left_before h]
    cases rest with
    | nil => rfl
    | cons c cs =>
      show (if p c then _ else _) = _
      by_cases hc : p c = true
      · rw [if_pos hc, hwidth c hc, advance_char h, List.dropWhile_cons_of_pos hc]
        exact ih ((List.suffix_cons c cs).trans h) (by simpa using hrounds)
      · rw [if_neg hc, List.dropWhile_cons_of_neg hc]
        rfl

/-- A run of the text as it is sliced out of it. -/
theorem word_before (h : rest <:+ text) {rounds : Nat} (hrounds : rest.length < rounds) :
    (before text rest start).word text rounds = ofReading text start (.ok (spanWord rest)) := by
  have hsplit : rest.takeWhile isWordChar ++ rest.dropWhile isWordChar = rest :=
    List.takeWhile_append_dropWhile
  have hslice := slice?_before _ _ start (hsplit.symm ▸ h)
  rw [hsplit] at hslice
  rw [word, skipWhile_before (fun _ _ => rfl) h hrounds]
  show orOutside _ >>= _ = _
  rw [hslice]
  rfl

/-! ## Numbers -/

theorem utf8Size_of_isDigit {c : Char} (h : c.isDigit = true) : c.utf8Size = 1 := by
  have hle : c.toNat ≤ 57 := (isDigit_iff.1 h).2
  exact Char.utf8Size_eq_one_iff.2 (UInt32.le_iff_toNat_le.2 (Nat.le_trans hle (by decide)))

/-- The digits after a point, with the point, or nothing. -/
def IsFraction (written decimals : List Char) : Prop :=
  written = [] ∧ decimals = [] ∨ written = '.' :: decimals ∧ ∀ c ∈ decimals, c.isDigit = true

/-- A power of ten with its sign, or nothing. -/
def IsPower (written : List Char) (n : Int) : Prop :=
  written = [] ∧ n = 0 ∨
    ∃ e body, written = e :: body ∧ (e == 'e' || e == 'E') = true ∧ Decimal.exponent? body = some n

theorem isDigit_of_mem_spanDigits (cs : List Char) :
    ∀ c ∈ (Decimal.spanDigits cs).1, c.isDigit = true :=
  fun _ hc => List.mem_takeWhile_imp hc

theorem spanDigits_append (cs : List Char) :
    (Decimal.spanDigits cs).1 ++ (Decimal.spanDigits cs).2 = cs :=
  List.takeWhile_append_dropWhile

/-- A run of digits is empty where no digit comes first. -/
theorem spanDigits_isEmpty (cs : List Char) :
    (Decimal.spanDigits cs).1.isEmpty = !(cs.head?.any Char.isDigit) := by
  cases cs with
  | nil => rfl
  | cons c cs =>
    rw [Decimal.spanDigits, List.takeWhile_cons]
    cases hc : c.isDigit <;> simp [hc]

theorem fraction?_point (cs : List Char) : fraction? ('.' :: cs) =
    if cs.head?.any Char.isDigit then some (Decimal.spanDigits cs) else none := by
  show (if (Decimal.spanDigits cs).1.isEmpty then none else _) = _
  rw [spanDigits_isEmpty]
  cases cs.head?.any Char.isDigit <;> rfl

theorem signedDigits?_eq (cs : List Char) : signedDigits? cs =
    if (Decimal.splitSign cs).2.head?.any Char.isDigit then
      some (Decimal.signed (Decimal.splitSign cs).1 (Decimal.spanDigits (Decimal.splitSign cs).2).1,
        (Decimal.spanDigits (Decimal.splitSign cs).2).2)
    else none := by
  simp only [signedDigits?]
  rw [spanDigits_isEmpty]
  cases (Decimal.splitSign cs).2.head?.any Char.isDigit <;> rfl

theorem exists_isFraction (cs : List Char) : ∃ written,
    written ++ ((fraction? cs).getD ([], cs)).2 = cs ∧
      IsFraction written ((fraction? cs).getD ([], cs)).1 := by
  cases h : fraction? cs with
  | none => exact ⟨[], rfl, .inl ⟨rfl, rfl⟩⟩
  | some r =>
    unfold fraction? at h
    split at h
    next more =>
      rw [← fraction?, fraction?_point, Option.ite_none_right_eq_some] at h
      obtain rfl := Option.some.inj h.2
      exact ⟨'.' :: (Decimal.spanDigits more).1, congrArg ('.' :: ·) (spanDigits_append more),
        .inr ⟨rfl, isDigit_of_mem_spanDigits more⟩⟩
    next => cases h

/-- A sign takes a byte, and is a sign before any digits. -/
theorem exists_sign (cs : List Char) : ∃ sign, sign ++ (Decimal.splitSign cs).2 = cs ∧
    utf8Len sign = signWidth cs ∧
    ∀ digits : List Char, (∀ c ∈ digits, c.isDigit = true) →
      Decimal.splitSign (sign ++ digits) = ((Decimal.splitSign cs).1, digits) := by
  unfold Decimal.splitSign
  split
  next more => exact ⟨['-'], rfl, rfl, fun _ _ => rfl⟩
  next more => exact ⟨['+'], rfl, rfl, fun _ _ => rfl⟩
  next hminus hplus =>
    refine ⟨[], rfl, ?_, fun digits hdigits => ?_⟩
    · cases cs with
      | nil => rfl
      | cons c cs =>
        have hneg : (c == '+' || c == '-') = false := by
          simpa using ⟨fun hc => hplus cs (hc ▸ rfl), fun hc => hminus cs (hc ▸ rfl)⟩
        simp [signWidth, hneg]
    · rw [List.nil_append]
      split
      next => exact absurd (hdigits '-' List.mem_cons_self) (by decide)
      next => exact absurd (hdigits '+' List.mem_cons_self) (by decide)
      next => rfl

theorem exponent?_cons {e : Char} (h : (e == 'e' || e == 'E') = true) (cs : List Char) :
    exponent? (e :: cs) = signedDigits? cs := by
  rcases Bool.or_eq_true_iff.1 h with he | he
  · obtain rfl : e = 'e' := beq_iff_eq.1 he
    rfl
  · obtain rfl : e = 'E' := beq_iff_eq.1 he
    rfl

theorem exists_isPower (cs : List Char) : ∃ written,
    written ++ ((exponent? cs).getD (0, cs)).2 = cs ∧
      IsPower written ((exponent? cs).getD (0, cs)).1 := by
  cases h : exponent? cs with
  | none => exact ⟨[], rfl, .inl ⟨rfl, rfl⟩⟩
  | some r =>
    obtain ⟨e, more, rfl, he⟩ : ∃ e more, cs = e :: more ∧ (e == 'e' || e == 'E') = true := by
      unfold exponent? at h
      split at h
      next more => exact ⟨'e', more, rfl, rfl⟩
      next more => exact ⟨'E', more, rfl, rfl⟩
      next => cases h
    rw [exponent?_cons he, signedDigits?_eq, Option.ite_none_right_eq_some] at h
    obtain ⟨hdigit, hr⟩ := h
    obtain rfl := Option.some.inj hr
    obtain ⟨sign, hsign, -, hsplit⟩ := exists_sign more
    have hempty := spanDigits_isEmpty (Decimal.splitSign more).2
    rw [hdigit] at hempty
    have hall : (Decimal.spanDigits (Decimal.splitSign more).2).1.all Char.isDigit = true :=
      List.all_eq_true.2 (isDigit_of_mem_spanDigits _)
    refine ⟨e :: (sign ++ (Decimal.spanDigits (Decimal.splitSign more).2).1), ?_,
      .inr ⟨e, _, rfl, he, ?_⟩⟩
    · rw [Option.getD_some, List.cons_append, List.append_assoc, spanDigits_append, hsign]
    · rw [Decimal.exponent?, hsplit _ (isDigit_of_mem_spanDigits _)]
      dsimp only
      rw [hempty, hall]
      rfl

theorem suffix_spanDigits (cs : List Char) : (Decimal.spanDigits cs).2 <:+ cs :=
  List.dropWhile_suffix _

theorem suffix_fraction? (cs : List Char) : ((fraction? cs).getD ([], cs)).2 <:+ cs :=
  let ⟨written, h, _⟩ := exists_isFraction cs
  ⟨written, h⟩

theorem suffix_exponent? (cs : List Char) : ((exponent? cs).getD (0, cs)).2 <:+ cs :=
  let ⟨written, h, _⟩ := exists_isPower cs
  ⟨written, h⟩

theorem digits_before (h : rest <:+ text) {rounds : Nat} (hrounds : rest.length < rounds) :
    (before text rest start).digits text rounds =
      .ok (before text (Decimal.spanDigits rest).2 start) :=
  skipWhile_before (fun _ hc => (utf8Size_of_isDigit hc).symm) h hrounds

theorem fraction_before (h : rest <:+ text) {rounds : Nat} (hrounds : rest.length < rounds) :
    (before text rest start).fraction text rounds =
      .ok ((fraction? rest).isSome, before text ((fraction? rest).getD ([], rest)).2 start) := by
  rw [fraction, left_before h]
  dsimp only [bind, Except.bind]
  split
  next c cs =>
    have hcs : c :: cs <:+ text := (List.suffix_cons _ _).trans h
    rw [fraction?_point]
    by_cases hc : c.isDigit = true
    · have hfirst : (c :: cs).head?.any Char.isDigit = true := hc
      rw [if_pos hc, if_pos hfirst, advance_sign rfl h]
      dsimp only
      rw [digits_before hcs (Nat.lt_of_succ_lt hrounds)]
      rfl
    · have hfirst : ¬ (c :: cs).head?.any Char.isDigit = true := hc
      rw [if_neg hc, if_neg hfirst]
      rfl
  next hne =>
    have hnone : fraction? rest = none := by
      unfold fraction?
      split
      next more =>
        cases more with
        | nil => rfl
        | cons c cs => exact absurd rfl (hne c cs)
      next => rfl
    rw [hnone]
    rfl

theorem exponent?_of_not_marker {e : Char} (h : ¬ (e == 'e' || e == 'E') = true) (cs : List Char) :
    exponent? (e :: cs) = none := by
  unfold exponent?
  split
  next hcs =>
    cases hcs
    exact absurd rfl h
  next hcs =>
    cases hcs
    exact absurd rfl h
  next => rfl

theorem utf8Size_marker {e : Char} (h : (e == 'e' || e == 'E') = true) : e.utf8Size = 1 := by
  rcases Bool.or_eq_true_iff.1 h with h | h
  · exact (beq_iff_eq.1 h : e = 'e') ▸ rfl
  · exact (beq_iff_eq.1 h : e = 'E') ▸ rfl

theorem dropBytes?_sign (cs : List Char) :
    Text.dropBytes? (signWidth cs) cs = some (Decimal.splitSign cs).2 := by
  obtain ⟨sign, hsign, hlen, -⟩ := exists_sign cs
  conv => lhs; arg 2; rw [← hsign]
  rw [← hlen]
  exact Text.dropBytes?_append _ _

/-- The sign of a power stands before its digits. -/
theorem advance_marker {e : Char} {cs : List Char} (he : (e == 'e' || e == 'E') = true)
    (h : e :: cs <:+ text) : (before text (e :: cs) start).advance text (1 + signWidth cs) =
      .ok (before text (Decimal.splitSign cs).2 start) := by
  obtain ⟨sign, hsign, hlen, -⟩ := exists_sign cs
  have hpiece : (e :: sign) ++ (Decimal.splitSign cs).2 = e :: cs := congrArg (e :: ·) hsign
  rw [← hlen, ← hpiece]
  refine advance_before _ _ (hpiece ▸ h) ?_
  rw [String.utf8Len_cons, utf8Size_marker he, Nat.add_comm]

theorem power_before (h : rest <:+ text) {rounds : Nat} (hrounds : rest.length < rounds) :
    (before text rest start).power text rounds =
      .ok ((exponent? rest).isSome, before text ((exponent? rest).getD (0, rest)).2 start) := by
  rw [power, left_before h]
  dsimp only [bind, Except.bind]
  cases rest with
  | nil => rfl
  | cons e cs =>
    by_cases he : (e == 'e' || e == 'E') = true
    · have hfirst : (e :: cs).head?.any (fun c => c == 'e' || c == 'E') = true := he
      have hdrop : Text.dropBytes? 1 (e :: cs) = some cs := by
        rw [← Text.dropBytes?_append [e] cs]
        simp [utf8Size_marker he]
      obtain ⟨sign, hsign, -⟩ := exists_sign cs
      have hafter : (Decimal.splitSign cs).2 <:+ e :: cs := ⟨e :: sign, congrArg (e :: ·) hsign⟩
      rw [if_pos hfirst, hdrop, exponent?_cons he, signedDigits?_eq]
      dsimp only [orOutside]
      rw [dropBytes?_sign]
      dsimp only
      split
      next hdigit =>
        rw [advance_marker he h]
        dsimp only
        rw [digits_before (hafter.trans h) (Nat.lt_of_le_of_lt hafter.length_le hrounds)]
        rfl
      next => rfl
    · have hfirst : ¬ (e :: cs).head?.any (fun c => c == 'e' || c == 'E') = true := he
      rw [if_neg hfirst, exponent?_of_not_marker he]
      rfl

theorem IsPower.eq_nil_or_cons {power : List Char} {n : Int} (h : IsPower power n) :
    power = [] ∧ n = 0 ∨ ∃ e body, power = e :: body ∧ e.isDigit = false ∧ e ≠ '.' ∧
      (e == 'e' || e == 'E') = true ∧ Decimal.exponent? body = some n := by
  refine h.imp_right ?_
  rintro ⟨e, body, rfl, he, hbody⟩
  refine ⟨e, body, rfl, ?_, ?_, he, hbody⟩
  all_goals
    rcases Bool.or_eq_true_iff.1 he with he | he
    · obtain rfl : e = 'e' := beq_iff_eq.1 he
      decide
    · obtain rfl : e = 'E' := beq_iff_eq.1 he
      decide

/-- The number that is read is the number that is written. -/
theorem ofText?_written {whole fraction decimals power : List Char} {n : Int}
    (hwhole : ∀ c ∈ whole, c.isDigit = true) (hne : whole ≠ [])
    (hfraction : IsFraction fraction decimals) (hpower : IsPower power n) :
    Decimal.ofText? (whole ++ (fraction ++ power)) = some (Decimal.ofParts whole decimals n) := by
  have hempty : whole.isEmpty = false := by simpa using hne
  have hstop : ∀ c, power.head? = some c → c.isDigit = false := by
    intro c hc
    obtain ⟨rfl, -⟩ | ⟨e, body, rfl, he, -⟩ := hpower.eq_nil_or_cons
    · cases hc
    · exact Option.some.inj hc ▸ he
  rcases hfraction with ⟨rfl, rfl⟩ | ⟨rfl, hdecimals⟩
  · rw [List.nil_append, Decimal.ofText?, spanDigits_run hwhole hstop]
    obtain ⟨rfl, rfl⟩ | ⟨e, body, rfl, -, hpoint, he, hbody⟩ := hpower.eq_nil_or_cons
    · simp [hempty]
    · simp [hempty, hpoint, he, hbody]
  · have hpoint : ∀ c, ('.' :: decimals ++ power).head? = some c → c.isDigit = false := by
      rintro c hc
      exact Option.some.inj hc ▸ (by decide)
    rw [Decimal.ofText?, spanDigits_run hwhole hpoint, List.cons_append]
    have hrun := spanDigits_run hdecimals hstop
    obtain ⟨rfl, rfl⟩ | ⟨e, body, rfl, -, -, he, hbody⟩ := hpower.eq_nil_or_cons
    · rw [List.append_nil] at hrun
      simp [hempty, hrun]
    · simp [hempty, hrun, he, hbody]

/-- What is read as a number is a piece of the text: digits, point, power and all. -/
theorem exists_written {cs whole afterWhole : List Char}
    (hspan : Decimal.spanDigits cs = (whole, afterWhole)) (hne : whole ≠ []) :
    let fraction := (fraction? afterWhole).getD ([], afterWhole)
    let power := (exponent? fraction.2).getD (0, fraction.2)
    ∃ written, written ++ power.2 = cs ∧
      Decimal.ofText? written = some (Decimal.ofParts whole fraction.1 power.1) ∧
      (fraction? afterWhole = none → exponent? fraction.2 = none → written = whole) := by
  obtain ⟨fraction, hfraction, hisFraction⟩ := exists_isFraction afterWhole
  obtain ⟨power, hpower, hisPower⟩ := exists_isPower ((fraction? afterWhole).getD ([], afterWhole)).2
  have hdigits := isDigit_of_mem_spanDigits cs
  have hwhole := spanDigits_append cs
  rw [hspan] at hdigits hwhole
  refine ⟨whole ++ (fraction ++ power), ?_, ofText?_written hdigits hne hisFraction hisPower, ?_⟩
  · rw [List.append_assoc, List.append_assoc, hpower, hfraction, hwhole]
  · intro hnoFraction hnoPower
    rw [hnoFraction] at hfraction
    rw [hnoPower] at hpower
    rw [List.append_left_eq_self.1 hfraction, List.append_left_eq_self.1 hpower, List.append_nil,
      List.append_nil]

theorem number_before {c : Char} (hc : c.isDigit = true) (h : c :: rest <:+ text) {rounds : Nat}
    (hrounds : (c :: rest).length < rounds) :
    (before text (c :: rest) start).number text rounds =
      ofReading text start (Source.number (c :: rest)) := by
  have hshort {after : List Char} (ha : after <:+ c :: rest) : after.length < rounds :=
    Nat.lt_of_le_of_lt ha.length_le hrounds
  have hrun : (before text (c :: rest) start).digits text rounds = _ := digits_before h hrounds
  obtain ⟨whole, afterWhole, hspan, hne⟩ : ∃ whole afterWhole,
      Decimal.spanDigits (c :: rest) = (whole, afterWhole) ∧ whole ≠ [] := by
    refine ⟨_, _, rfl, ?_⟩
    rw [List.takeWhile_cons_of_pos hc]
    exact List.cons_ne_nil _ _
  have hsuffix : afterWhole <:+ c :: rest := by
    have hdigits := suffix_spanDigits (c :: rest)
    rwa [hspan] at hdigits
  have hafter := (suffix_fraction? afterWhole).trans hsuffix
  obtain ⟨written, hwritten, hread, hinteger⟩ := exists_written hspan hne
  have hslice := slice?_before _ _ start (hwritten.symm ▸ h)
  rw [hwritten] at hslice
  rw [Scan.number, Source.number, hrun, hspan]
  dsimp only [bind, Except.bind]
  rw [fraction_before (hsuffix.trans h) (hshort hsuffix)]
  dsimp only
  rw [power_before (hafter.trans h) (hshort hafter)]
  dsimp only
  rw [hslice]
  dsimp only [orOutside]
  split
  next =>
    rw [hread]
    rfl
  next hint =>
    obtain ⟨hnoFraction, hnoPower⟩ : fraction? afterWhole = none ∧
        exponent? ((fraction? afterWhole).getD ([], afterWhole)).2 = none := by
      simpa using hint
    rw [hinteger hnoFraction hnoPower]
    split <;> rfl

end Scan

end Source
end Horn
