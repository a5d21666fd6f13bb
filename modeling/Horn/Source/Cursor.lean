import Horn.Source.Token

/-!
Reading tokens one after the other.  A cursor stands on the first token not read yet.  Whatever is
read comes with the cursor after it and a proof that fewer tokens are left, which is what lets the
grammar recurse.  A fault in the text is raised when the cursor moves onto it or looks ahead to it.
-/

namespace Horn
namespace Source

/-- The tokens left to read and how many anonymous variables have been read. -/
structure Cursor where
  left : Lexemes
  anonymous : Nat

/-- How many tokens are left. -/
def Cursor.size (c : Cursor) : Nat := c.left.items.length

/-- What was read from a cursor with so many tokens left. -/
structure Parsed (α : Type) (n : Nat) where
  value : α
  rest : Cursor
  fewer : rest.size < n

/-- The outcome of reading from a cursor with so many tokens left. -/
abbrev Reading (α : Type) (n : Nat) := Except Fault (Parsed α n)

namespace Cursor

/-- The current token. -/
def current (c : Cursor) : Token :=
  match c.left.items with
  | [] => .endOfText
  | l :: _ => l.token

/-- The text from the current token on. -/
def text (c : Cursor) : List Char :=
  match c.left.items with
  | [] => []
  | l :: _ => l.text

/-- Refuses the current token. -/
def fail {α : Type} (c : Cursor) (reason : String) : Except Fault α := .error ⟨c.text, reason⟩

/-- Says what should be here and what is. -/
def unexpected {α : Type} (c : Cursor) (wanted : String) : Except Fault α :=
  c.fail ("expected " ++ wanted ++ ", found " ++ c.current.text)

/-- Checks that a cursor does not stand on a fault. -/
def settle (c : Cursor) : Except Fault Cursor :=
  match c.left.items, c.left.fault with
  | [], some f => .error f
  | _, _ => .ok c

/-- The cursor at the start of a text. -/
def start (source : String) : Except Fault Cursor := settle ⟨lexemes source.toList, 0⟩

/-- The cursor with the given tokens left. -/
def withItems (c : Cursor) (items : List Lexeme) : Cursor :=
  { c with left := { c.left with items := items } }

/-- The token after the current one. -/
def peek (c : Cursor) : Except Fault Token :=
  return (← (c.withItems c.left.items.tail).settle).current

/-- Moves past a number of tokens. -/
def moveTo {α : Type} (c : Cursor) (value : α) (more : List Lexeme)
    (fewer : more.length < c.size) : Reading α c.size :=
  match more, c.left.fault with
  | [], some f => .error f
  | more, _ => .ok ⟨value, c.withItems more, fewer⟩

/-- Reads the current token if it is of the wanted kind. -/
def accept {α : Type} (c : Cursor) (kind : Token → Option α) :
    Except Fault (Option (Parsed α c.size)) :=
  match h : c.left.items with
  | [] => .ok none
  | l :: more =>
    match kind l.token with
    | none => .ok none
    | some a => (c.moveTo a more (by simp [size, h])).map some

/-- Reads a token of the wanted kind and an opening parenthesis right after it. -/
def acceptCall {α : Type} (c : Cursor) (kind : Token → Option α) :
    Except Fault (Option (Parsed α c.size)) := do
  match ← c.accept kind with
  | none => return none
  | some ⟨a, c1, h1⟩ =>
    match ← c1.accept fun t => if t = .leftParen then some () else none with
    | none => return none
    | some ⟨_, c2, h2⟩ => return some ⟨a, c2, Nat.lt_trans h2 h1⟩

/-- Reads the current token if it is the given one. -/
def acceptToken (c : Cursor) (t : Token) : Except Fault (Option (Parsed Unit c.size)) :=
  c.accept fun u => if u = t then some () else none

/-- Reads the given token. -/
def expect (c : Cursor) (t : Token) : Reading Unit c.size := do
  match ← c.acceptToken t with
  | some p => return p
  | none => c.unexpected t.text

/-- Reads a token of the wanted kind or says what was wanted. -/
def require {α : Type} (c : Cursor) (kind : Token → Option α) (wanted : String) :
    Reading α c.size := do
  match ← c.accept kind with
  | some p => return p
  | none => c.unexpected wanted

/-- Checks that the text is at its end. -/
def expectEnd (c : Cursor) : Except Fault Unit :=
  if c.current = .endOfText then .ok ()
  else c.fail ("unexpected " ++ c.current.text ++ " after end of input")

/-- A variable for an underscore; each underscore of a text stands for another one. -/
def nextAnonymous (c : Cursor) : Var × Cursor :=
  (⟨"_", c.anonymous + 1⟩, { c with anonymous := c.anonymous + 1 })

theorem size_nextAnonymous (c : Cursor) : c.nextAnonymous.2.size = c.size := rfl

end Cursor

namespace Parsed

/-- Counts tokens from an earlier cursor. -/
def since {α : Type} {m n : Nat} (p : Parsed α m) (h : m ≤ n) : Parsed α n :=
  ⟨p.value, p.rest, Nat.lt_of_lt_of_le p.fewer h⟩

end Parsed

end Source
end Horn
