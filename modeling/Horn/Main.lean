import Horn.CommandLine

/-!
The program at the command line: files and streams of the machine.
-/

namespace Horn

/-- The cause behind a fault of the machine. -/
def accessErrorOf : IO.Error → AccessError
  | .noFileOrDirectory .. => .notFound
  | .permissionDenied .. => .permissionDenied
  | .inappropriateType _ code _ => if code = 20 then .notDirectory else .isDirectory
  | e => .other (toString e)

instance : FileAccess IO where
  read path := do
    try
      let bytes ← IO.FS.readBinFile path
      match String.fromUTF8? bytes with
      | some text => return .ok text
      | none => return .error .invalidText
    catch e => return .error (accessErrorOf e)
  write path text := do
    try
      IO.FS.writeFile path text
      return .ok ()
    catch e => return .error (accessErrorOf e)

/-- Answers lines until the user leaves or the input ends. -/
partial def converse (input output : IO.FS.Stream) (c : Console) : IO Unit := do
  unless c.finished do
    output.putStr Console.prompt
    output.flush
    let line ← input.getLine
    unless line.isEmpty do
      let (result, c) ← c.process line
      output.putStr (Console.shown result)
      converse input output c

end Horn

def main (arguments : List String) : IO UInt32 := do
  let output ← IO.getStdout
  match ← (Horn.CommandLine.ofArguments arguments).start with
  | .ended r =>
    output.putStr r.out
    (← IO.getStderr).putStr r.err
    return r.code.toUInt32
  | .opened greeting c =>
    output.putStr greeting
    Horn.converse (← IO.getStdin) output c
    return 0
