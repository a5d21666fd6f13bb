import Horn.FileAccess

/-!
A directory in memory.  It holds text files and no directories of its own, and nothing but other
directories is known outside it.  Paths are walked part by part, and a path that leaves the
directory reaches no file.
-/

namespace Horn

/-- Text files by their names. -/
structure Directory where
  files : List (String × String)

namespace Directory

def empty : Directory := ⟨[]⟩

def get? (d : Directory) (name : String) : Option String := d.files.lookup name

def put (d : Directory) (name text : String) : Directory :=
  ⟨(name, text) :: d.files.filter fun f => f.1 != name⟩

theorem get?_put (d : Directory) (name text : String) : (d.put name text).get? name = some text := by
  simp [put, get?]

/-- Where a path leads.  A slash after the last name asks for a directory of that name. -/
inductive Place where
  | directory
  | file (name : String) (slash : Bool)
  /-- A name that no file has. -/
  | absent (name : String) (slash : Bool)

/-- The longest name and the longest path, in bytes. -/
def maxName : Nat := 255

def maxPath : Nat := 4095

/-- Walks the parts of a path below a directory: this one, or one outside of which no file is
known. -/
def walk (d : Directory) (inside : Bool) : List String → Except AccessError Place
  | [] => .ok .directory
  | part :: rest =>
    if part = "" ∨ part = "." then walk d inside rest
    else if part = ".." then walk d false rest
    else if maxName < part.utf8ByteSize then .error .nameTooLong
    else if inside && (d.get? part).isSome then
      if rest.all String.isEmpty then .ok (.file part (!rest.isEmpty)) else .error .notDirectory
    else if rest.all String.isEmpty && (inside || !rest.isEmpty) then
      .ok (.absent part (!rest.isEmpty))
    else .error .notFound

/-- Finds where a path leads. -/
def find (d : Directory) (path : String) : Except AccessError Place :=
  if path.contains '\x00' then .error .invalidName
  else if path.isEmpty then .error .notFound
  else if maxPath < path.utf8ByteSize then .error .nameTooLong
  else d.walk (!path.startsWith "/") (path.splitOn "/")

def read (d : Directory) (path : String) : Except AccessError String := do
  match ← d.find path with
  | .directory => .error .isDirectory
  | .absent .. => .error .notFound
  | .file _ true => .error .notDirectory
  | .file name false =>
    match d.get? name with
    | some text => .ok text
    | none => .error .notFound

def write (d : Directory) (path text : String) : Except AccessError Directory := do
  match ← d.find path with
  | .directory => .error .isDirectory
  | .absent _ true | .file _ true => .error .isDirectory
  | .absent name false | .file name false => .ok (d.put name text)

end Directory

instance : FileAccess (StateM Directory) where
  read path := return (← get).read path
  write path text := do
    match (← get).write path text with
    | .error why => return .error why
    | .ok d =>
      set d
      return .ok ()

end Horn
