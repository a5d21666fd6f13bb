/-!
White space, trimming and lines.  Program text may be written in any script, so white space is
the Unicode property of that name and not the ASCII class.
-/

namespace Horn
namespace Text

/-- The Unicode property White_Space. -/
def isBlank (c : Char) : Bool :=
  let n := c.toNat
  (9 ≤ n && n ≤ 13) || n == 32 || n == 0x85 || n == 0xa0 || n == 0x1680 ||
    (0x2000 ≤ n && n ≤ 0x200a) || n == 0x2028 || n == 0x2029 || n == 0x202f || n == 0x205f ||
    n == 0x3000

theorem isBlank_of_isWhitespace {c : Char} (h : c.isWhitespace = true) : isBlank c = true := by
  simp only [Char.isWhitespace, Bool.or_eq_true, decide_eq_true_eq] at h
  rcases h with ((rfl | rfl) | rfl) | rfl <;> decide

/-- Drops white space at the end. -/
def trimRight (s : String) : String :=
  String.ofList (s.toList.reverse.dropWhile isBlank).reverse

/-- Drops white space at both ends. -/
def trim (s : String) : String :=
  trimRight (String.ofList (s.toList.dropWhile isBlank))

/-- The pieces of a text between its line feeds, a piece after the last one included when it is
not empty.  A carriage return before a line feed belongs to the line end; one at the end of an
unfinished line stays. -/
def linesFrom : List Char → List Char → List (List Char)
  | [], [] => []
  | [], pending => [pending.reverse]
  | '\n' :: rest, '\r' :: pending => pending.reverse :: linesFrom rest []
  | '\n' :: rest, pending => pending.reverse :: linesFrom rest []
  | c :: rest, pending => linesFrom rest (c :: pending)

/-- The lines of a text, without their line ends. -/
def lines (s : String) : List String :=
  (linesFrom s.toList []).map String.ofList

end Text
end Horn
