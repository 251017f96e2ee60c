/-
The program: reads what the command line asks for, runs it, and prints the outcome.
-/
import ReversePolish.CommandLine

namespace ReversePolish.CommandLine

/-- the content of a file -/
def readContent (path : String) : IO Content := do
  try
    return Content.ofBytes (← IO.FS.readBinFile path)
  catch
    | .noFileOrDirectory _ _ _ => return .error .missing
    | error => return .error (.failed error.toString)

/-- all bytes of a stream -/
partial def readAll (stream : IO.FS.Stream) (bytes : ByteArray) : IO ByteArray := do
  let more ← stream.read 65536
  if more.isEmpty then return bytes else readAll stream (bytes ++ more)

/-- the files that a command names -/
def Command.paths : Command → List String
  | .help => []
  | .run (.file path) settings => path :: settings.toList
  | .run _ settings => settings.toList

def Command.readsInput : Command → Bool
  | .run .input _ => true
  | _ => false

/-- reads what a command needs -/
def gather (command : Command) : IO Surroundings := do
  let contents ← command.paths.mapM fun path => do return (path, ← readContent path)
  let input ← if command.readsInput then readAll (← IO.getStdin) .empty else pure .empty
  return ⟨fun path => (contents.lookup path).getD (.error .missing), input.data.toList⟩

end ReversePolish.CommandLine

open ReversePolish.CommandLine in
def main (args : List String) : IO UInt32 := do
  let command := parse args
  let around ← match command with
    | .ok command => gather command
    | .error _ => pure ⟨fun _ => .error .missing, []⟩
  let outcome := execute around command
  outcome.output.forM fun line => IO.println line
  outcome.errors.forM fun line => IO.eprintln line
  return if outcome.success then 0 else 1
