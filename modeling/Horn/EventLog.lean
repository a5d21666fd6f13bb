import Horn.Json.Reader
import Horn.Text.Blank

/-!
Event logs.  The log of an induction is a tree of named sections with named entries, built by
opening and closing sections, and shown as indented text or as JSON.  A disabled log records
nothing.
-/

namespace Horn

/-- An item of a log. -/
inductive Event where
  | entry (name value : String)
  | group (name : String) (events : List Event)
deriving Inhabited

/-- A named group of events in the order of recording. -/
structure EventGroup where
  name : String
  events : List Event
deriving Inhabited

namespace Event

def name : Event → String
  | .entry name _ => name
  | .group name _ => name

def asGroup : Event → Option EventGroup
  | .group name events => some ⟨name, events⟩
  | .entry .. => none

mutual
/-- Structural equality of events. -/
def same : Event → Event → Bool
  | .entry n v, .entry m w => n == m && v == w
  | .group n es, .group m fs => n == m && sameAll es fs
  | _, _ => false

def sameAll : List Event → List Event → Bool
  | [], [] => true
  | e :: es, f :: fs => same e f && sameAll es fs
  | _, _ => false
end

/-- Blanks before a line, two per level. -/
def margin (level : Nat) : String := String.ofList (List.replicate (2 * level) ' ')

/-- The lines of an entry: the first one after its name, the others further in. -/
def entryText (level : Nat) (name value : String) : String :=
  match Text.lines value with
  | [] => margin level ++ name ++ ": \n"
  | first :: rest =>
    margin level ++ name ++ ": " ++ first ++ "\n" ++
      String.join (rest.map fun l => margin (level + 1) ++ l ++ "\n")

mutual
/-- The text of an event, one level further in for every group around it. -/
def text (level : Nat) : Event → String
  | .entry name value => entryText level name value
  | .group name events => margin level ++ name ++ "\n" ++ textAll (level + 1) events

def textAll (level : Nat) : List Event → String
  | [] => ""
  | e :: rest => text level e ++ textAll level rest
end

mutual
def json : Event → Json
  | .entry name value =>
    .object [("type", .string "entry"), ("name", .string name), ("value", .string value)]
  | .group name events =>
    .object [("type", .string "section"), ("name", .string name), ("events", .array (jsonAll events))]

def jsonAll : List Event → List Json
  | [] => []
  | e :: rest => json e :: jsonAll rest
end

end Event

namespace EventGroup

def empty (name : String) : EventGroup := ⟨name, []⟩

def isEmpty (g : EventGroup) : Bool := g.events.isEmpty

/-- The names of the events, groups included. -/
def names (g : EventGroup) : List String := g.events.map Event.name

def children (g : EventGroup) : List EventGroup := g.events.filterMap Event.asGroup

/-- The first group of a name. -/
def child? (g : EventGroup) (name : String) : Option EventGroup :=
  g.children.find? fun c => c.name == name

/-- The group reached by a path of names. -/
def descendant? (g : EventGroup) (path : List String) : Option EventGroup := path.foldlM child? g

/-- The values of the entries of a name. -/
def entries (g : EventGroup) (name : String) : List String :=
  g.events.filterMap fun
    | .entry n v => if n == name then some v else none
    | .group .. => none

def same (a b : EventGroup) : Bool := a.name == b.name && Event.sameAll a.events b.events

def text (g : EventGroup) : String := (Event.group g.name g.events).text 0

def toJson (g : EventGroup) : Json :=
  .object [("name", .string g.name), ("events", .array (Event.jsonAll g.events))]

def jsonText (g : EventGroup) : String := g.toJson.pretty

end EventGroup

/-! ## Reading a log back -/

namespace Event

def stringOf? : Json → Option String
  | .string s => some s
  | _ => none

mutual
/-- Reads an event. -/
def ofJson? : Json → Option Event
  | .object fields => do
    let name ← (fields.lookup "name").bind stringOf?
    match ← (fields.lookup "type").bind stringOf? with
    | "entry" => return .entry name (← (fields.lookup "value").bind stringOf?)
    | "section" => return .group name (← eventsOf? fields)
    | _ => none
  | _ => none

/-- Reads the events of a group from its fields. -/
def eventsOf? : List (String × Json) → Option (List Event)
  | [] => none
  | ("events", .array items) :: _ => allOfJson? items
  | _ :: rest => eventsOf? rest

def allOfJson? : List Json → Option (List Event)
  | [] => some []
  | j :: rest => do return (← ofJson? j) :: (← allOfJson? rest)
end

end Event

namespace EventGroup

/-- How deep containers may be nested in a log that is read. -/
def readingDepth : Nat := 127

/-- Reads a log from its JSON text. -/
def ofJsonText? (s : String) : Option EventGroup := do
  match ← Json.ofText? readingDepth s with
  | .object fields =>
    return ⟨← (fields.lookup "name").bind Event.stringOf?, ← Event.eventsOf? fields⟩
  | _ => none

end EventGroup

/-- A log under construction: the open groups from the inside out, the root apart.  The events of
open groups are kept in reverse. -/
structure EventLog where
  enabled : Bool
  root : EventGroup
  inner : List EventGroup

namespace EventLog

/-- A new log.  A disabled one has no name. -/
def start (name : String) (enabled : Bool) : EventLog :=
  ⟨enabled, EventGroup.empty (if enabled then name else ""), []⟩

/-- How many groups are open inside the root. -/
def depth (l : EventLog) : Nat := l.inner.length

/-- Adds an event to the innermost open group. -/
def push (l : EventLog) (e : Event) : EventLog :=
  match l.inner with
  | [] => { l with root := { l.root with events := e :: l.root.events } }
  | g :: rest => { l with inner := { g with events := e :: g.events } :: rest }

def record (l : EventLog) (name value : String) : EventLog :=
  if l.enabled then l.push (.entry name value) else l

/-- Records an entry whose value is worked out only when it is kept. -/
def recordWith (l : EventLog) (name : String) (value : Unit → String) : EventLog :=
  if l.enabled then l.push (.entry name (value ())) else l

/-- Opens a group. -/
def enter (l : EventLog) (name : String) : EventLog :=
  if l.enabled then { l with inner := EventGroup.empty name :: l.inner } else l

/-- Closes the innermost group; the root stays open. -/
def leave (l : EventLog) : EventLog :=
  match l.inner with
  | [] => l
  | g :: rest => ({ l with inner := rest } : EventLog).push (.group g.name g.events.reverse)

/-- Closes every group and gives the root. -/
def finish (l : EventLog) : EventGroup :=
  let closed := l.inner.foldl (fun l _ => l.leave) l
  { closed.root with events := closed.root.events.reverse }

end EventLog
end Horn
