import Horn.Mode

/-!
The statements of program text: clauses, goals, declarations, section marks and the directives of
an interactive session.
-/

namespace Horn

/-- The part of a program a clause belongs to. -/
inductive Section where
  | background
  | positive
  | negative
deriving DecidableEq, Inhabited

namespace Section

def all : List Section := [.background, .positive, .negative]

def beginMark : Section → String
  | .background => "begin_bg"
  | .positive => "begin_in_pos"
  | .negative => "begin_in_neg"

def endMark : Section → String
  | .background => "end_bg"
  | .positive => "end_in_pos"
  | .negative => "end_in_neg"

/-- The section that a mark opens. -/
def ofBeginMark? (s : String) : Option Section := all.find? fun b => b.beginMark == s

/-- The section that a mark closes. -/
def ofEndMark? (s : String) : Option Section := all.find? fun b => b.endMark == s

end Section

/-- A command to an interactive session. -/
inductive Directive where
  | load (path : String)
  | save (path : String)
  | set (key value : String)
  | induce
  | pos (c : Clause)
  | neg (c : Clause)
  | verify (c : Clause)
  /-- Shows the program. -/
  | display
  /-- Shows the events of the last induction. -/
  | log
  /-- Shows the next answer of the last goal. -/
  | next
  | quit
deriving Inhabited

/-- One statement of program text. -/
inductive Statement where
  | clause (c : Clause)
  | query (g : Goal)
  | mode (m : Mode)
  | determination (d : Determination)
  | set (key value : String)
  | enter (b : Section)
  | leave (b : Section)
  | directive (d : Directive)

instance : Inhabited Statement := ⟨.leave .background⟩

end Horn
