import ModalBounds.CommandLine.Run
import ModalBounds.Double

/-!
# The program

Reads the file that the command names, if it names one, and prints what the command says.
-/

namespace ModalBounds

/-- The file that a command reads. -/
def Command.inputFile? : Command → Option String
  | check _ _ file _ _ _ => file
  | _ => none

def readFile? (name : String) : IO (Option String) := do
  try return some (← IO.FS.readFile name) catch _ => return none

def runProgram (args : List String) : IO UInt32 := do
  let content ← match (Command.ofArguments? args).bind Command.inputFile? with
    | some name => readFile? name
    | none => pure none
  let outcome := Command.run Float (fun _ => content) args
  IO.print outcome.stdout
  match outcome.diagnostic with
  | some (.headline text) => IO.eprintln text
  | some (.plain text) => IO.eprintln text
  | none => pure ()
  return UInt32.ofNat outcome.code

end ModalBounds

def main (args : List String) : IO UInt32 := ModalBounds.runProgram args
