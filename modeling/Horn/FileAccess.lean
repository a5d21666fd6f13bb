import Horn.Program

/-!
Programs in files.  The files are those of the monad that a session runs in: the machine's own ones
for a user, and a directory in memory where nothing outside may be touched.
-/

namespace Horn

/-- A monad with text files. -/
class FileAccess (m : Type → Type) where
  read : String → m (Except AccessError String)
  write : String → String → m (Except AccessError Unit)

namespace Program

variable {m : Type → Type} [Monad m] [FileAccess m]

/-- Makes the declarations of a file. -/
def loadFile (p : Program) (path : String) : m (Except Failure Unit × Program) := do
  match ← FileAccess.read path with
  | .error why => return (.error (.access path why), p)
  | .ok source => return p.load source

/-- The program of a file. -/
def ofFile (path : String) : m (Except Failure Program) := do
  match ← empty.loadFile path with
  | (.ok (), p) => return .ok p
  | (.error e, _) => return .error e

/-- Writes the program's text to a file. -/
def save (p : Program) (path : String) : m (Except Failure Unit) := do
  match ← FileAccess.write path p.source with
  | .error why => return .error (.access path why)
  | .ok () => return .ok ()

end Program
end Horn
