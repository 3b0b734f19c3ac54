/-
The command: load an object file and run it.

The command takes the path of one object file.  It prints the values that the
program prints and, among them, the records that the threshold admits; it ends
with a code and, if anything went wrong, with a chain of messages.

* `threshold` — which records a setting admits;
* `start` — the command up to the first cycle, given a way to read files;
* `Job.resume` — some cycles more;
* `run` — the whole command, whose report tells all that is put out.
-/
import ByteMachine.Log
import ByteMachine.ObjectFile.Loader

namespace ByteMachine.CommandLine

open ObjectFile

/-- A piece of output: a printed value or a record. -/
inductive Item where
  | value (v : Byte)
  | record (r : Record)
deriving DecidableEq

def Item.line : Item → String
  | value v => v.decimal
  | record r => r.line

/-- Whether a threshold lets a piece of output pass.  Values always pass. -/
def Item.passes (t : Threshold) : Item → Bool
  | value _ => true
  | record r => t.admits r.level

/-- What the command leaves behind: its exit code, its output and the chain of
error messages, outermost first. -/
structure Report where
  code : UInt32
  output : Array Item
  errors : List String

def Report.success (output : Array Item) : Report := ⟨0, output, []⟩

def Report.failure (output : Array Item) (errors : List String) : Report := ⟨1, output, errors⟩

/-- The threshold that a setting names.  Without a name of a threshold, warnings
and errors are shown. -/
def threshold (setting : Option String) : Threshold :=
  (setting.bind Threshold.ofName?).getD (.upTo .warn)

/-- What is put out for a record: the value that was printed, if one was, and the
record itself. -/
def itemsOf : Record → List Item
  | .done effect => effect.printed?.toList.map .value ++ [.record (.done effect)]
  | r => [.record r]

def items (t : Turn) : List Item := t.records.flatMap itemsOf

def append (t : Threshold) (output : Array Item) (new : List Item) : Array Item :=
  output ++ new.filter (Item.passes t)

/-- A program that runs, where it comes from and which records are shown. -/
structure Job where
  threshold : Threshold
  path : String
  machine : Machine

/-- How far a command has come.  The output of a running program is what was put
out since it was last looked at. -/
inductive Progress where
  | finished (report : Report)
  | running (output : Array Item) (job : Job)

/-- Runs a program for a number of cycles at most, after what was put out before. -/
def Job.resume (job : Job) (limit : Nat) (output : Array Item) : Progress :=
  let see out turn := append job.threshold out (items turn)
  let run := job.machine.runToHalt see limit (#[] : Array Byte) output
  let output := append job.threshold run.seen (run.closing.map .record)
  match run.ending with
  | .stopped => .finished (.success output)
  | .failed fault =>
    .finished (.failure output ["`" ++ job.path ++ "` stopped with an error", fault.message])
  | .unfinished => .running output { job with machine := run.machine }

/-- Loads what was read from a path.  The program loaded has not run yet. -/
def startFile (t : Threshold) (path : String) (contents : Except ReadFault ByteArray) :
    Progress :=
  let loaded := load contents
  let output := append t #[] ((loadRecords loaded).map .record)
  match loaded with
  | .error error =>
    .finished (.failure output (("failed to load `" ++ path ++ "`") :: error.chain))
  | .ok program =>
    .running (append t output (program.memory.records.map .record))
      ⟨t, path, .new program.memory⟩

/-- Starts the command: its arguments, the setting for the threshold and a way to
read a file. -/
def start {μ : Type → Type} [Monad μ] (args : List String) (setting : Option String)
    (read : String → μ (Except ReadFault ByteArray)) : μ Progress :=
  match args with
  | [path] => return startFile (threshold setting) path (← read path)
  | _ => return .finished (.failure #[] ["usage: ls8 <object-file>"])

/-- The report at the end.  There is none if the program runs for more cycles than a
machine that halts can need. -/
def Progress.finish : Progress → Option Report
  | finished report => some report
  | running output job =>
    match job.resume Machine.configurations output with
    | finished report => some report
    | running .. => none

/-- The whole command.  There is no report of a program that never ends. -/
def run {μ : Type → Type} [Monad μ] (args : List String) (setting : Option String)
    (read : String → μ (Except ReadFault ByteArray)) : μ (Option Report) :=
  return (← start args setting read).finish

end ByteMachine.CommandLine
