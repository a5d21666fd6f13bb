import Horn.Json

/-!
Reading JSON.  Every part is read from the front of the text with a proof that less text is left.
The nesting of containers is limited by the caller.  When a key is repeated its last value counts.
-/

namespace Horn
namespace Json

/-- A value read from a text of the given length. -/
structure Partial (α : Type) (n : Nat) where
  value : α
  rest : List Char
  fewer : rest.length < n

namespace Partial

/-- Counts from a longer text. -/
def since {α : Type} {m n : Nat} (p : Partial α m) (h : m ≤ n) : Partial α n :=
  ⟨p.value, p.rest, Nat.lt_of_lt_of_le p.fewer h⟩

def map {α β : Type} {n : Nat} (f : α → β) (p : Partial α n) : Partial β n :=
  ⟨f p.value, p.rest, p.fewer⟩

end Partial

def isBlank (c : Char) : Bool := c == ' ' || c == '\n' || c == '\t' || c == '\r'

def skipBlanks (cs : List Char) : List Char := cs.dropWhile isBlank

theorem length_skipBlanks (cs : List Char) : (skipBlanks cs).length ≤ cs.length :=
  (List.dropWhile_sublist _).length_le

/-! ## Strings -/

def hexDigit? (c : Char) : Option Nat :=
  if c.isDigit then some (c.toNat - '0'.toNat)
  else if 'a' ≤ c ∧ c ≤ 'f' then some (c.toNat - 'a'.toNat + 10)
  else if 'A' ≤ c ∧ c ≤ 'F' then some (c.toNat - 'A'.toNat + 10)
  else none

/-- The number that four hexadecimal digits denote. -/
def hexNumber? (a b c d : Char) : Option Nat := do
  return ((← hexDigit? a) * 16 + (← hexDigit? b)) * 256 + (← hexDigit? c) * 16 + (← hexDigit? d)

/-- The character of a single code unit. -/
def ofUnit? (n : Nat) : Option Char :=
  if h : n.isValidChar then some (Char.ofNatAux n h) else none

/-- The character of a pair of surrogate code units. -/
def ofPair? (high low : Nat) : Option Char :=
  if 0xd800 ≤ high ∧ high < 0xdc00 ∧ 0xdc00 ≤ low ∧ low < 0xe000 then
    ofUnit? (0x10000 + (high - 0xd800) * 0x400 + (low - 0xdc00))
  else none

def shortEscape? : Char → Option Char
  | '"' => some '"'
  | '\\' => some '\\'
  | '/' => some '/'
  | 'b' => some '\x08'
  | 'f' => some '\x0c'
  | 'n' => some '\n'
  | 'r' => some '\r'
  | 't' => some '\t'
  | _ => none

theorem length_lt_append (c : Char) (front rest : List Char) :
    rest.length < (c :: front ++ rest).length := by
  simp only [List.cons_append, List.length_cons, List.length_append]
  omega

/-- Reads one character of a string, escaped or not. -/
def character? (cs : List Char) : Option (Partial Char cs.length) :=
  match cs with
  | '\\' :: 'u' :: a :: b :: c :: d :: '\\' :: 'u' :: e :: f :: g :: h :: rest => do
    let high ← hexNumber? a b c d
    match ofUnit? high with
    | some k => some ⟨k, '\\' :: 'u' :: e :: f :: g :: h :: rest, length_lt_append _ ['u', a, b, c, d] _⟩
    | none =>
      let k ← ofPair? high (← hexNumber? e f g h)
      some ⟨k, rest, length_lt_append _ ['u', a, b, c, d, '\\', 'u', e, f, g, h] _⟩
  | '\\' :: 'u' :: a :: b :: c :: d :: rest => do
    let k ← ofUnit? (← hexNumber? a b c d)
    some ⟨k, rest, length_lt_append _ ['u', a, b, c, d] _⟩
  | '\\' :: c :: rest => do
    let k ← shortEscape? c
    some ⟨k, rest, length_lt_append _ [c] _⟩
  | c :: rest => if c.toNat < 32 then none else some ⟨c, rest, Nat.lt_succ_self _⟩
  | [] => none

/-- Reads the characters of a string up to its closing quote. -/
def characters? (cs : List Char) (before : List Char) : Option (Partial String cs.length) :=
  match cs with
  | '"' :: rest => some ⟨String.ofList before.reverse, rest, Nat.lt_succ_self _⟩
  | c :: rest => do
    let ⟨k, more, h⟩ ← character? (c :: rest)
    return (← characters? more (k :: before)).since (Nat.le_of_lt h)
  | [] => none
termination_by cs.length
decreasing_by exact h

/-! ## Numbers -/

def isNumberChar (c : Char) : Bool :=
  c.isDigit || c == '-' || c == '+' || c == '.' || c == 'e' || c == 'E'

/-- Whether a text is empty or a power of ten. -/
def isExponent : List Char → Bool
  | [] => true
  | c :: rest =>
    let digits := match rest with
      | '-' :: r => r
      | '+' :: r => r
      | r => r
    (c == 'e' || c == 'E') && !digits.isEmpty && digits.all Char.isDigit

/-- Whether a text is a number: no leading zeros, digits after a point and in an exponent. -/
def isNumber (cs : List Char) : Bool :=
  let unsigned := match cs with
    | '-' :: r => r
    | r => r
  let whole := unsigned.takeWhile Char.isDigit
  let afterWhole := unsigned.dropWhile Char.isDigit
  let leadingZero := whole.head? == some '0' && whole.length != 1
  !whole.isEmpty && !leadingZero && match afterWhole with
    | '.' :: r => !(r.takeWhile Char.isDigit).isEmpty && isExponent (r.dropWhile Char.isDigit)
    | r => isExponent r

/-- Reads a number as its text. -/
def number? (cs : List Char) : Option (Partial String cs.length) :=
  match cs with
  | [] => none
  | c :: rest =>
    let text := c :: rest.takeWhile isNumberChar
    if isNumber text then
      some ⟨String.ofList text, rest.dropWhile isNumberChar,
        Nat.lt_succ_of_le (List.dropWhile_sublist _).length_le⟩
    else none

/-! ## Values -/

/-- Reads a fixed word. -/
def word? (w : List Char) (j : Json) (cs : List Char) : Option (Partial Json cs.length) :=
  if h : w.isPrefixOf cs ∧ 0 < w.length then
    some ⟨j, cs.drop w.length, by
      have := (List.isPrefixOf_iff_prefix.1 h.1).length_le
      have := h.2
      simp only [List.length_drop]
      omega⟩
  else none

/-- Skips blanks and reads the given character. -/
def punctuation? (wanted : Char) (cs : List Char) : Option (Partial Unit cs.length) :=
  match h : skipBlanks cs with
  | c :: rest =>
    if c = wanted then
      some ⟨(), rest, by
        have := length_skipBlanks cs
        simp only [h, List.length_cons] at this
        omega⟩
    else none
  | [] => none

/-- Reads a string with its quotes, after blanks. -/
def string? (cs : List Char) : Option (Partial String cs.length) := do
  let ⟨_, rest, h⟩ ← punctuation? '"' cs
  return (← characters? rest []).since (Nat.le_of_lt h)

/-- Reads a value without parts. -/
def scalar? (cs : List Char) : Option (Partial Json cs.length) :=
  match cs.head? with
  | some '"' => (string? cs).map (Partial.map .string)
  | some 'n' => word? "null".toList .null cs
  | some 't' => word? "true".toList (.bool true) cs
  | some 'f' => word? "false".toList (.bool false) cs
  | _ => (number? cs).map (Partial.map .number)

/-- Keeps the last field of every key. -/
def lastOfEachKey : List (String × Json) → List (String × Json)
  | [] => []
  | f :: rest =>
    if rest.any fun g => g.1 == f.1 then lastOfEachKey rest else f :: lastOfEachKey rest

mutual
/-- Reads a value after blanks, its containers nested at most so deep. -/
def value? (depth : Nat) (cs : List Char) : Option (Partial Json cs.length) := do
  match punctuation? '[' cs with
  | some ⟨_, rest, h⟩ =>
    match depth with
    | 0 => none
    | d + 1 => return ((← items? d rest).map .array).since (Nat.le_of_lt h)
  | none =>
    match punctuation? '\x7b' cs with
    | some ⟨_, rest, h⟩ =>
      match depth with
      | 0 => none
      | d + 1 => return ((← fields? d rest).map fun fs => .object (lastOfEachKey fs)).since (Nat.le_of_lt h)
    | none => return (← scalar? (skipBlanks cs)).since (length_skipBlanks cs)
termination_by (cs.length, 0)

/-- Reads the items of an array after its bracket. -/
def items? (depth : Nat) (cs : List Char) : Option (Partial (List Json) cs.length) :=
  match punctuation? ']' cs with
  | some p => some (p.map fun _ => [])
  | none => do
    let ⟨j, rest, h⟩ ← value? depth cs
    return ((← moreItems? depth rest).map (j :: ·)).since (Nat.le_of_lt h)
termination_by (cs.length, 1)

def moreItems? (depth : Nat) (cs : List Char) : Option (Partial (List Json) cs.length) := do
  match punctuation? ']' cs with
  | some p => return p.map fun _ => []
  | none =>
    let ⟨_, afterComma, hc⟩ ← punctuation? ',' cs
    let ⟨j, rest, h⟩ ← value? depth afterComma
    return ((← moreItems? depth rest).map (j :: ·)).since (by omega)
termination_by (cs.length, 0)

/-- Reads the fields of an object after its brace. -/
def fields? (depth : Nat) (cs : List Char) : Option (Partial (List (String × Json)) cs.length) :=
  match punctuation? '\x7d' cs with
  | some p => some (p.map fun _ => [])
  | none => do
    let ⟨f, rest, h⟩ ← keyed? depth cs
    return ((← moreFields? depth rest).map (f :: ·)).since (Nat.le_of_lt h)
termination_by (cs.length, 2)

def moreFields? (depth : Nat) (cs : List Char) :
    Option (Partial (List (String × Json)) cs.length) := do
  match punctuation? '\x7d' cs with
  | some p => return p.map fun _ => []
  | none =>
    let ⟨_, afterComma, hc⟩ ← punctuation? ',' cs
    let ⟨f, rest, h⟩ ← keyed? depth afterComma
    return ((← moreFields? depth rest).map (f :: ·)).since (by omega)
termination_by (cs.length, 0)

def keyed? (depth : Nat) (cs : List Char) : Option (Partial (String × Json) cs.length) := do
  let ⟨key, afterKey, hk⟩ ← string? cs
  let ⟨_, afterColon, hc⟩ ← punctuation? ':' afterKey
  return ((← value? depth afterColon).map fun j => (key, j)).since (by omega)
termination_by (cs.length, 1)
end

/-- Reads a whole text whose containers are nested at most so deep. -/
def ofText? (depth : Nat) (s : String) : Option Json := do
  let ⟨j, rest, _⟩ ← value? depth s.toList
  if (skipBlanks rest).isEmpty then some j else none

end Json
end Horn
