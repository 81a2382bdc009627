import Whence.Command.Basic

/-!
# Entry point
-/

namespace Whence

/-- The refusal that an error number of the host stands for, which comes with either sign. -/
def Refusal.ofCode? (code : UInt32) : Option Refusal :=
  match code.toInt32.toInt.natAbs with
  | 2 => some .missing
  | 20 => some .notDirectory
  | 21 => some .directory
  | 36 => some .nameTooLong
  | _ => none

def Refusal.ofError (error : IO.Error) : Refusal :=
  let known? :=
    match error with
    | .noFileOrDirectory _ code _ => ofCode? code
    | .inappropriateType _ code _ => ofCode? code
    | .invalidArgument _ code _ => ofCode? code
    | _ => none
  known?.getD (.other (toString error))

/-- The files of the host. -/
def hostDisk : IO (Disk IO) := do
  return {
    directory := (← IO.currentDir).toString
    read := fun path ↦ do
      try return .ok (← IO.FS.readFile path)
      catch error => return .error (.ofError error) }

end Whence

def main (words : List String) : IO UInt32 := do
  let report ← Whence.Command.execute (← Whence.hostDisk) words
  IO.print report.output
  IO.eprint report.diagnostics
  return report.exitCode.toUInt32
