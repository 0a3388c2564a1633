import Lindenmayer.CommandLine

/-!
# The program

Reads the arguments and the source text, and carries out what the command line asks for.
-/

namespace Lindenmayer

def Action.perform : Action → IO Bool
  | .print text => do
    (← IO.getStdout).putStr text
    return true
  | .complain text => do
    (← IO.getStderr).putStr text
    return true
  | .write path text =>
    try
      IO.FS.writeFile path text
      return true
    catch _ => return false
  | .fail => return false

/-- Carries out actions up to the first that fails, and answers the exit status. -/
def CommandLine.performAll : List Action → IO UInt32
  | [] => return 0
  | action :: more => do
    if ← action.perform then performAll more else return 1

def CommandLine.readInput : IO String := do
  let bytes ← (← IO.getStdin).readBinToEnd
  match String.fromUTF8? bytes with
  | some text => return text
  | none => throw (IO.userError "stream did not contain valid UTF-8")

def Options.readSource (o : Options) : IO String :=
  match o.source with
  | some path => IO.FS.readFile path
  | none => CommandLine.readInput

end Lindenmayer

def main (arguments : List String) : IO UInt32 := do
  match Lindenmayer.Options.unset.read arguments with
  | none =>
    (← IO.getStderr).putStr
      "usage: lindenmayer [--seed N] [--resolve] [--print-ast] [--graph FILE] [SOURCE]\n"
    return 1
  | some options =>
    try
      let source ← options.readSource
      let entropy ← IO.rand 0 (UInt64.size - 1)
      Lindenmayer.CommandLine.performAll
        (Lindenmayer.CommandLine.actions options (UInt64.ofNat entropy) source)
    catch _ => return 1
