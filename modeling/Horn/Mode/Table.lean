import Horn.Failure

/-!
The modes and determinations of a program, in the order in which they were declared.  A
determination is accepted only when every predicate it names has a mode, and determinations for one
head are merged.
-/

namespace Horn

/-- Declared modes and determinations. -/
structure ModeTable where
  modes : List Mode
  determinations : List Determination
deriving DecidableEq

namespace ModeTable

def empty : ModeTable := ⟨[], []⟩

instance : Inhabited ModeTable := ⟨empty⟩

def isEmpty (t : ModeTable) : Bool := t.modes.isEmpty && t.determinations.isEmpty

def ofKind (t : ModeTable) (kind : ModeKind) : List Mode := t.modes.filter fun m => m.kind == kind

def headModes (t : ModeTable) : List Mode := t.ofKind .head

def bodyModes (t : ModeTable) : List Mode := t.ofKind .body

/-- Adds a mode unless the same one is there.  The answer tells whether it was new. -/
def addMode (t : ModeTable) (m : Mode) : Bool × ModeTable :=
  if t.modes.contains m then (false, t) else (true, { t with modes := t.modes ++ [m] })

/-- Removes a mode.  The answer tells whether it was there. -/
def removeMode (t : ModeTable) (m : Mode) : Bool × ModeTable :=
  (t.modes.contains m, { t with modes := t.modes.filter (· != m) })

/-- Checks that a predicate has a mode. -/
def requireMode (t : ModeTable) (kind : ModeKind) (s : Signature) : Except Failure Unit :=
  if (t.ofKind kind).any fun m => m.signature == s then .ok () else .error (.unknownMode kind s)

/-- A list with one more element, unless it is there already. -/
def withMember (xs : List Signature) (s : Signature) : List Signature :=
  if xs.contains s then xs else xs ++ [s]

/-- The determination with the body predicates of another one added. -/
def merged (d new : Determination) : Determination :=
  { d with body := new.body.foldl withMember d.body }

/-- Changes the first element that fits, if there is one. -/
def mapFirst? {α : Type} (fits : α → Bool) (f : α → α) : List α → Option (List α)
  | [] => none
  | a :: rest => if fits a then some (f a :: rest) else (mapFirst? fits f rest).map (a :: ·)

/-- Adds a determination, to the one with the same head if there is one. -/
def addDetermination (t : ModeTable) (d : Determination) : Except Failure ModeTable := do
  t.requireMode .head d.head
  d.body.forM (t.requireMode .body)
  let found := mapFirst? (fun e => e.head == d.head) (fun e => merged e d) t.determinations
  return { t with determinations := found.getD (t.determinations ++ [d]) }

/-- Removes body predicates from the determination of a head; one left without any goes.  The answer
tells whether anything was removed. -/
def removeDetermination (t : ModeTable) (d : Determination) : Bool × ModeTable :=
  match t.determinations.find? fun e => e.head == d.head with
  | none => (false, t)
  | some old =>
    let left := old.body.filter fun s => !d.body.contains s
    let determinations :=
      if left.isEmpty then t.determinations.eraseP fun e => e.head == d.head
      else (mapFirst? (fun e => e.head == d.head) (fun e => { e with body := left })
        t.determinations).getD t.determinations
    (left.length != old.body.length, { t with determinations := determinations })

/-- The first head mode of a predicate. -/
def headMode (t : ModeTable) (s : Signature) : Except Failure Mode :=
  match t.headModes.find? fun m => m.signature == s with
  | some m => .ok m
  | none => .error (.unknownMode .head s)

/-- The body modes allowed under a head mode: those of its determination, in its order, or all of
them when it has none. -/
def bodyModesFor (t : ModeTable) (m : Mode) : List Mode :=
  match t.determinations.find? fun d => d.head == m.signature with
  | none => t.bodyModes
  | some d => d.body.flatMap fun s => t.bodyModes.filter fun b => b.signature == s

end ModeTable
end Horn
