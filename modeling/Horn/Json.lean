import Horn.Text.Quoted

/-!
JSON values and their two written forms, on one line and indented.  Numbers keep the text they were
written with, so none loses digits.
-/

namespace Horn

/-- A JSON value. -/
inductive Json where
  | null
  | bool (b : Bool)
  | number (text : String)
  | string (s : String)
  | array (items : List Json)
  | object (fields : List (String × Json))
deriving Inhabited

namespace Json

def nat (n : Nat) : Json := .number (toString n)

def field? (j : Json) (key : String) : Option Json :=
  match j with
  | .object fields => fields.lookup key
  | _ => none

/-- One character inside a string.  Only quotes, backslashes and control characters are escaped. -/
def escapeChar (c : Char) : String :=
  match c with
  | '"' => "\\\""
  | '\\' => "\\\\"
  | '\n' => "\\n"
  | '\r' => "\\r"
  | '\t' => "\\t"
  | '\x08' => "\\b"
  | '\x0c' => "\\f"
  | c =>
    if c.toNat < 32 then
      (if c.toNat < 16 then "\\u000" else "\\u00") ++ Text.hexadecimal c.toNat
    else c.toString

def quote (s : String) : String :=
  "\"" ++ s.toList.foldl (fun out c => out ++ escapeChar c) "" ++ "\""

mutual
/-- A value on one line. -/
def compact : Json → String
  | .null => "null"
  | .bool b => if b then "true" else "false"
  | .number s => s
  | .string s => quote s
  | .array items => "[" ++ compactAll items ++ "]"
  | .object fields => "\x7b" ++ compactFields fields ++ "\x7d"

def compactAll : List Json → String
  | [] => ""
  | [j] => compact j
  | j :: rest => compact j ++ "," ++ compactAll rest

def compactFields : List (String × Json) → String
  | [] => ""
  | [(key, j)] => quote key ++ ":" ++ compact j
  | (key, j) :: rest => quote key ++ ":" ++ compact j ++ "," ++ compactFields rest
end

/-- A new line with two blanks per level. -/
def newLine (level : Nat) : String := "\n" ++ String.ofList (List.replicate (2 * level) ' ')

mutual
/-- A value with every item and field on a line of its own; empty containers stay closed. -/
def indented (level : Nat) : Json → String
  | .array [] => "[]"
  | .array items => "[" ++ indentedAll (level + 1) items ++ newLine level ++ "]"
  | .object [] => "\x7b\x7d"
  | .object fields => "\x7b" ++ indentedFields (level + 1) fields ++ newLine level ++ "\x7d"
  | .null => "null"
  | .bool b => if b then "true" else "false"
  | .number s => s
  | .string s => quote s

def indentedAll (level : Nat) : List Json → String
  | [] => ""
  | [j] => newLine level ++ indented level j
  | j :: rest => newLine level ++ indented level j ++ "," ++ indentedAll level rest

def indentedFields (level : Nat) : List (String × Json) → String
  | [] => ""
  | [(key, j)] => newLine level ++ quote key ++ ": " ++ indented level j
  | (key, j) :: rest =>
    newLine level ++ quote key ++ ": " ++ indented level j ++ "," ++ indentedFields level rest
end

def pretty (j : Json) : String := indented 0 j

end Json
end Horn
