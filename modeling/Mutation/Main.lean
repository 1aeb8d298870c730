import Mutation.CommandLine

/-!
# The program

Reads the command line, carries out the command on the files of the system, and prints one JSON
object. The exit code is zero, or the code of the fault.
-/

namespace Mutation.Program

/-- Reads a text file, or says why it cannot be read. -/
def readTree (path : String) : IO (Except String String) := do
  try
    return .ok (← IO.FS.readFile path)
  catch e => return .error e.toString

/-- Carries out a change to a file, or says why it cannot be made. -/
def perform (effect : Effect) : IO (Except String Unit) := do
  try
    match effect with
    | .append path text => IO.FS.withFile path .append fun h => h.putStr text
    | .write path text => IO.FS.writeFile path text
    return .ok ()
  catch e => return .error e.toString

/-- Prints the response to a command that failed. -/
def fail (fault : Fault) : IO UInt32 := do
  IO.println (Response.failed fault).pretty
  return UInt32.ofNat fault.code

/-- Carries out a command. -/
def execute (command : Command) : IO UInt32 := do
  match command.plan (← readTree command.tree) with
  | .error fault => fail fault
  | .ok plan =>
    if let some effect := plan.effect then
      if let .error reason ← perform effect then
        return ← fail (effect.fault reason)
    IO.println plan.response.pretty
    return 0

/-- The usage of the program. -/
def usage : String :=
  "Usage: vermut [--log-level LEVEL] scan --tree FILE [--out FILE] [--only CODE]...\n" ++
  "       vermut [--log-level LEVEL] mutate --tree FILE --at PLACE --op CODE [--arg TEXT]" ++
  " [--out FILE] [--max-cascade-depth N]"

end Mutation.Program

open Mutation in
/-- Runs the program on the words of its command line. -/
def main (words : List String) : IO UInt32 := do
  match Invocation.read words with
  | .run command => Program.execute command
  | .version => IO.println versionText; return 0
  | .help => IO.println Program.usage; return 0
  | .refused => IO.eprintln Program.usage; return 2
