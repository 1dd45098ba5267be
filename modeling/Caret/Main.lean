import Caret.CommandLine
/-!
# The program

Reads the file that is asked for, prints the outcome and ends with its exit code.
-/
namespace Caret

open CommandLine

/-- The number of a failure; it may be given as a negative number of 32 bits. -/
def failureNumber (code : UInt32) : Nat := min code.toNat (4294967296 - code.toNat)

/-- What a failure says about the file. -/
def stateOfError : IO.Error → FileState
  | .noFileOrDirectory _ code details | .invalidArgument _ code details
  | .permissionDenied _ code details | .resourceExhausted _ code details
  | .inappropriateType _ code details | .noSuchThing _ code details
  | .otherError code details => .ofFailure (failureNumber code) details
  | e => .found 0 (.error (toString e))

/-- Look at a file. -/
def inspect (file : String) : IO FileState := do
  match ← (IO.FS.readBinFile file).toBaseIO with
  | .ok bytes => pure (.found bytes.size (.ok bytes))
  | .error e => pure (stateOfError e)

/-- Do what the arguments ask for; the result is the exit code. -/
def execute (args : List String) : IO UInt32 := do
  let state ← match (Request.ofArguments args).toOption.bind Request.file? with
    | some file => inspect file
    | none => pure (.inaccessible "")
  let outcome := respond (fun _ => state) args
  IO.print outcome.stdout
  IO.eprint outcome.stderr
  pure outcome.exitCode.toUInt32

end Caret

def main (args : List String) : IO UInt32 := Caret.execute args
