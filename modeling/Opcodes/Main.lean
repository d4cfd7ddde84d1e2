import Opcodes.Command.Arguments

/-!
# The program

Reads the files that a command line names, runs the command and writes its answer.
-/
set_option autoImplicit false

namespace Opcodes.Command

/-- The bytes of a file, if it can be read. -/
def readFile (path : String) : IO File := do
  try
    return some (← IO.FS.readBinFile path)
  catch _ =>
    return none

/-- Writes the answer of a command, or how it should have been called. -/
def writeAnswer (output? : Option String) (answer? : Option Answer) : IO UInt32 := do
  match answer? with
  | none =>
    IO.eprintln "usage: opcodes check|words|range [OPTIONS] [ARGUMENTS]"
    return 2
  | some a =>
    IO.print a.stdout
    IO.eprint a.stderr
    match output?, a.written? with
    | some path, some contents => IO.FS.writeFile path contents
    | _, _ => pure ()
    return a.exit.toUInt32

end Opcodes.Command

open Opcodes Command

def main (args : List String) : IO UInt32 := do
  match Invocation.parse? args with
  | none => writeAnswer none none
  | some (.check c tables o) =>
    writeAnswer none (check c (← tables.mapM readFile) o)
  | some (.words c tables texts) =>
    writeAnswer none (words? c (← tables.mapM readFile) texts)
  | some (.range c tables o input start stop output?) =>
    writeAnswer output? (range c (← tables.mapM readFile) o (← readFile input) start stop)
