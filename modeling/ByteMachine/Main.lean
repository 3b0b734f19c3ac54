/-
The program: reads the object file named on the command line, runs it and prints.
-/
import ByteMachine.CommandLine

namespace ByteMachine.Main

open CommandLine (Item Progress Report)
open ObjectFile (ReadFault)

/-- The number of a system error; some calls report it negated. -/
def errorNumber (code : UInt32) : UInt32 := if code < 0x80000000 then code else 0 - code

/-- The read fault that a failed system call is. -/
def readFault (error : IO.Error) : ReadFault :=
  match error with
  | .noFileOrDirectory .. => .notFound
  | .inappropriateType _ code _ | .invalidArgument _ code _ =>
    match errorNumber code with
    | 20 => .notADirectory
    | 21 => .isADirectory
    | 36 => .nameTooLong
    | _ => .system .other (toString error)
  | .permissionDenied .. => .system .permissionDenied "Permission denied (os error 13)"
  | error => .system .other (toString error)

def readFile (path : String) : IO (Except ReadFault ByteArray) := do
  match ← (IO.FS.readBinFile path).toBaseIO with
  | .ok contents => return .ok contents
  | .error error => return .error (readFault error)

/-- The chain of error messages, numbered from the outermost on. -/
def errorLines (errors : List String) : List String :=
  "Error: " :: (errors.zipIdx.map fun (message, i) => "   " ++ toString i ++ ": " ++ message)

/-- Prints pieces of output, a line for each. -/
def put (output : Array Item) : IO Unit := do
  for item in output do
    IO.println item.line

/-- Prints what a command puts out, cycle by cycle, until it is finished. -/
partial def follow : Progress → IO Report
  | .finished report => do
    put report.output
    return report
  | .running output job => do
    put output
    follow (job.resume 1 #[])

end ByteMachine.Main

open ByteMachine in
def main (args : List String) : IO UInt32 := do
  let setting ← IO.getEnv "LS8_LOG"
  let report ← Main.follow (← CommandLine.start args setting Main.readFile)
  unless report.errors.isEmpty do
    for line in Main.errorLines report.errors do
      IO.eprintln line
  return report.code
