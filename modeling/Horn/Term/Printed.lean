import Horn.Term
import Horn.Number.Written

/-!
The text of terms in program notation, and the variable symbols that terms suggest.
-/

namespace Horn

/-- Whether a symbol can be written without quotes: a lower-case ASCII letter followed by ASCII
letters, digits and underscores. -/
def isPlainSymbol (s : String) : Bool :=
  match s.toList with
  | [] => false
  | c :: rest => c.isLower && rest.all fun d => d.isAlphanum || d == '_'

/-- A character inside single quotes; only the quote and the backslash are escaped. -/
def escapeSymbolChar (c : Char) : String :=
  if c == '\'' || c == '\\' then "\\" ++ c.toString else c.toString

/-- A symbol in program text, quoted unless it is plain. -/
def symbolText (s : String) : String :=
  if isPlainSymbol s then s
  else "'" ++ s.toList.foldl (fun out c => out ++ escapeSymbolChar c) "" ++ "'"

/-- The first character in upper case when it is an ASCII letter, otherwise a `V` in front;
characters other than ASCII letters and digits become underscores. -/
def symbolAsVariable (s : String) : String :=
  let cleaned := s.toList.map fun c => if c.isAlphanum then c else '_'
  match cleaned with
  | c :: rest => if c.isAlpha then String.ofList (c.toUpper :: rest) else "V" ++ String.ofList cleaned
  | [] => "V"

namespace Constant

def text : Constant → String
  | .int n => toString n.toInt
  | .float x => x.text
  | .symbol s => symbolText s

/-- A variable symbol for a lifted constant: `ann` gives `Ann` and `2.5` gives `V2_5`. -/
def variableSymbol : Constant → String
  | .symbol s => symbolAsVariable s
  | .int n => "V" ++ String.ofList ((toString n.toInt).toList.map fun c => if c == '-' then 'm' else c)
  | .float x =>
    "V" ++ String.ofList (x.text.toList.map fun c => if c == '.' || c == '-' then '_' else c)

end Constant

namespace Var

/-- The tally is shown only when it is not zero, so two variables can have one text. -/
def text (v : Var) : String :=
  if v.tally = 0 then v.symbol else v.symbol ++ toString v.tally

end Var

namespace Sign

def text : Sign → String
  | .input => "+"
  | .output => "-"
  | .constant => "#"

end Sign

namespace Placeholder

def text (p : Placeholder) : String := p.sign.text ++ p.typeName

end Placeholder

namespace Term

mutual
def text : Term → String
  | .const c => c.text
  | .var v => v.text
  | .compound f args => symbolText f ++ "(" ++ textAll args ++ ")"
  | .list items tail => "[" ++ textAll items ++ textTail tail ++ "]"
  | .placeholder p => p.text

/-- Terms separated by commas. -/
def textAll : List Term → String
  | [] => ""
  | [t] => text t
  | t :: rest => text t ++ "," ++ textAll rest

def textTail : Option Term → String
  | none => ""
  | some t => "|" ++ text t
end

/-- The symbol of the variable that replaces this term in a lifted clause. -/
def variableSymbol : Term → String
  | .const c => c.variableSymbol
  | .var v => v.symbol
  | .compound f _ => symbolAsVariable f
  | .list _ _ => "L"
  | .placeholder p => symbolAsVariable p.typeName

end Term
end Horn
