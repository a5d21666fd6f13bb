import Horn.Text.Invisible

/-!
Double-quoted text in diagnostics.  Quotes, backslashes and the common controls have short
escapes, other invisible characters are given by code point, and everything else stands for
itself.
-/

namespace Horn
namespace Text

/-- A code point in lower-case hexadecimal without leading zeros. -/
def hexadecimal (n : Nat) : String :=
  String.ofList (Nat.toDigits 16 n)

/-- One character inside double quotes. -/
def quoteChar (c : Char) : String :=
  match c with
  | '"' => "\\\""
  | '\\' => "\\\\"
  | '\t' => "\\t"
  | '\n' => "\\n"
  | '\r' => "\\r"
  | '\x00' => "\\0"
  | _ => if isInvisible c then "\\u\x7b" ++ hexadecimal c.toNat ++ "\x7d" else c.toString

/-- A text in double quotes, every character readable. -/
def quote (s : String) : String :=
  "\"" ++ s.toList.foldl (fun out c => out ++ quoteChar c) "" ++ "\""

end Text
end Horn
