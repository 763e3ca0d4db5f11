import BranchTrim.Command.Program

/-!
The command line.
-/

set_option autoImplicit false

namespace BranchTrim

def DiskError.ofCode? (code : UInt32) : Option DiskError :=
  [(20, notFolder), (21, isFolder), (28, noSpace), (36, nameTooLong)].lookup code

/-- The cause of an error of the system, whose code is negated when it comes from looking
at a path. -/
def DiskError.ofSystem (e : IO.Error) : DiskError :=
  match e with
  | .noFileOrDirectory .. => .notFound
  | .inappropriateType _ code _ | .resourceExhausted _ code _ | .invalidArgument _ code _ =>
    ((ofCode? code).or (ofCode? (-code))).getD (.other (toString e))
  | e => .other (toString e)

def systemDisk : Disk IO where
  read path := do
    match ← (IO.FS.readBinFile path).toBaseIO with
    | .error e => return .error (.ofSystem e)
    | .ok bytes =>
      match String.fromUTF8? bytes with
      | some text => return .ok text
      | none => return .error .notText
  write path text := do
    let written := IO.FS.withFile path .write fun file => do
      file.putStr text
      file.flush
    match ← written.toBaseIO with
    | .error e => return .error (.ofSystem e)
    | .ok () => return .ok ()

end BranchTrim

open BranchTrim in
def main (words : List String) : IO UInt32 := do
  let report ← Program.run systemDisk (← IO.getEnv "RANGEPRUNE_LOG") words
  IO.eprint report.log
  IO.print report.output
  return report.exitCode.toUInt32
