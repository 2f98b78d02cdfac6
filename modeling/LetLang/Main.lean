import LetLang.CommandLine

/-! # The program

Reads the file that the arguments name, and leaves the rest to `CommandLine`. -/

namespace LetLang.CommandLine

/-- The bytes of a file, or `none` if it cannot be read. -/
def readContents (path : String) : IO (Option ByteArray) := do
  try
    return some (← IO.FS.readBinFile path)
  catch _ =>
    return none

/-- Run with more and more rounds until the program has an end. -/
partial def performFully (mode : Mode) (contents : Option ByteArray) (rounds : Nat) :
    IO Exit := do
  match perform mode rounds contents with
  | some exit => return exit
  | none => performFully mode contents (rounds * rounds)

/-- Write what a run wrote, and give its exit code. -/
def report (exit : Exit) : IO UInt32 := do
  let stdout ← IO.getStdout
  stdout.write exit.stdout
  stdout.flush
  let stderr ← IO.getStderr
  stderr.putStr exit.stderr
  return exit.code.toUInt32

/-- Do what the arguments ask for. -/
def start (arguments : List String) : IO UInt32 := do
  match read arguments with
  | .error refusal => report (refuse refusal)
  | .ok command =>
    let contents ← readContents command.path
    let exit ← performFully command.mode contents 4294967296
    report exit

end LetLang.CommandLine

def main (arguments : List String) : IO UInt32 := LetLang.CommandLine.start arguments
