/-
The account that the machine gives of its work.

Each record has a level, an origin and a message.  A threshold admits the records
of a level and of the more severe ones, or none at all.

* `Threshold.admits_trace` — at the level `trace` every record is admitted;
* `Threshold.ofName?` — thresholds by name, in any case;
* `Threshold.select`, `keep`, `Run.close` — what is kept of the records of a run at a threshold.
-/
import ByteMachine.Machine.Run
import ByteMachine.Memory
import ByteMachine.ObjectFile.Loader

namespace ByteMachine

/-- How important a record is, from the most severe level on. -/
inductive Level where
  | error | warn | info | debug | trace
deriving DecidableEq

namespace Level

def rank : Level → Nat
  | error => 1
  | warn => 2
  | info => 3
  | debug => 4
  | trace => 5

def name : Level → String
  | error => "ERROR"
  | warn => "WARN"
  | info => "INFO"
  | debug => "DEBUG"
  | trace => "TRACE"

end Level

/-- Which records are shown. -/
inductive Threshold where
  | off
  /-- The records of this level and of the more severe ones. -/
  | upTo (level : Level)
deriving DecidableEq

namespace Threshold

/-- Whether records of a level are shown. -/
def admits (t : Threshold) (level : Level) : Bool :=
  match t with
  | off => false
  | upTo least => level.rank ≤ least.rank

def all : List Threshold :=
  [off, upTo .error, upTo .warn, upTo .info, upTo .debug, upTo .trace]

def name : Threshold → String
  | off => "OFF"
  | upTo level => level.name

/-- The threshold with a name, in capitals or not. -/
def ofName? (name : String) : Option Threshold :=
  all.find? fun t => t.name.toList == name.toList.map Char.toUpper

theorem admits_trace (level : Level) : (upTo .trace).admits level = true := by
  cases level <;> rfl

@[simp] theorem ofName?_name (t : Threshold) : ofName? t.name = some t := by
  rcases t with _ | ⟨_ | _ | _ | _ | _⟩ <;> decide

end Threshold

/-- Something that is put on record. -/
inductive Record where
  /-- A program of this many bytes was loaded. -/
  | loaded (size : Nat)
  /-- An object file has this many faulty lines. -/
  | rejected (lines : Nat)
  | row (row : Memory.Row)
  | began (before : Snapshot)
  | done (effect : Effect)
  /-- A run ended with the machine halted; the address is that of the instruction
  fetched last. -/
  | halted (address : Address)
deriving DecidableEq

namespace Record

def level : Record → Level
  | loaded _ | rejected _ | row _ | done _ => .debug
  | began _ => .trace
  | halted _ => .info

/-- The part of the program that a record comes from. -/
def origin : Record → String
  | loaded _ | rejected _ => "ls8::memory::parse"
  | row _ => "ls8::memory"
  | began _ | halted _ => "ls8::processor"
  | done effect =>
    if isArithmetic effect.opcode.byte then "ls8::processor::alu" else "ls8::processor"

def message : Record → String
  | loaded size => "Loaded " ++ Nat.repr size ++ " bytes"
  | rejected lines => Nat.repr lines ++ " invalid line(s)"
  | row r => r.message
  | began before => before.message
  | done effect => effect.message
  | halted address => "Program halted at 0x" ++ address.hex

/-- A record as its level and its text. -/
def brief (r : Record) : String := r.level.name ++ " " ++ r.message

/-- A record as a line of the log: its level in five columns, origin and text. -/
def line (r : Record) : String :=
  String.ofList (r.level.name.toList.rightpad 5 ' ') ++ " [" ++ r.origin ++ "] " ++ r.message

end Record

def Threshold.select (t : Threshold) (records : List Record) : List Record :=
  records.filter fun r => t.admits r.level

/-- What loading a text puts on record. -/
def ObjectFile.recordOf : Except (List LineError) Program → Record
  | .ok program => .loaded program.size
  | .error errors => .rejected errors.length

/-- What loading a file puts on record: nothing if it could not be read as text. -/
def ObjectFile.loadRecords : Except LoadError Program → List Record
  | .ok program => [recordOf (.ok program)]
  | .error (.invalid errors) => [recordOf (.error errors)]
  | .error (.unreadable _) => []

/-- What a dump of the memory puts on record. -/
def Memory.records (m : Memory) : List Record := m.dump.map .row

/-- What an instruction puts on record: its effect, unless it failed. -/
def outcomeRecords : Except Fault Effect → List Record
  | .ok effect => [.done effect]
  | .error _ => []

/-- What a cycle puts on record. -/
def Turn.records (t : Turn) : List Record := .began t.before :: outcomeRecords t.outcome

/-- What the end of a run to the halt puts on record. -/
def Run.closing {σ α : Type} (r : Run σ α) : List Record :=
  match r.ending with
  | .stopped => [.halted r.machine.fetched]
  | .failed _ | .unfinished => []

/-- The onlooker that keeps the records which a threshold admits. -/
def keep (t : Threshold) (log : List Record) (turn : Turn) : List Record :=
  log ++ t.select turn.records

/-- A run with the record of its end behind those of its cycles. -/
def Run.close {σ : Type} (t : Threshold) (r : Run σ (List Record)) : Run σ (List Record) :=
  { r with seen := r.seen ++ t.select r.closing }

end ByteMachine
