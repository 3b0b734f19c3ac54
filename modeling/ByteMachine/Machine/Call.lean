/-
Calls of the units without a fetch.

A call is an opcode with two operand bytes, of which the opcode may use fewer.  A list of calls is
worked off up to the first that fails.

* `Call.read` — the instruction that a call stands for;
* `Machine.call` — one call, by the unit that its opcode belongs to;
* `Machine.callAll` — one call after the other.
-/
import ByteMachine.Machine.Cycle

namespace ByteMachine

/-- An opcode and the two bytes that are handed to its unit. -/
structure Call where
  opcode : Opcode
  first : Byte
  second : Byte
deriving DecidableEq

/-- The instruction that a call stands for, if its unit can read it. -/
def Call.read (c : Call) : Except Cause Instruction :=
  if isArithmetic c.opcode.byte then Instruction.ofArithmetic c.opcode c.first c.second
  else Instruction.ofControl c.opcode c.first c.second

/-- What a list of calls leaves behind, and the outcomes of those that were made. -/
structure Calls (σ : Type) where
  machine : Machine
  sink : σ
  outcomes : List (Except Fault Effect)

variable {σ : Type}

/-- The same calls, made after others. -/
def Calls.after (r : Calls σ) (outcomes : List (Except Fault Effect)) : Calls σ :=
  { r with outcomes := outcomes ++ r.outcomes }

namespace Machine

variable [Sink σ]

/-- Gives a call to the unit that its opcode belongs to. -/
def call (m : Machine) (sink : σ) (c : Call) : Step σ :=
  if isArithmetic c.opcode.byte then m.calculate sink c.opcode c.first c.second
  else m.control sink c.opcode c.first c.second

/-- Makes the calls of a list up to the first that fails. -/
def callAll (m : Machine) (sink : σ) : List Call → Calls σ
  | [] => ⟨m, sink, []⟩
  | c :: cs =>
    let step := m.call sink c
    match step.outcome with
    | .error f => ⟨step.machine, step.sink, [.error f]⟩
    | .ok e => (callAll step.machine step.sink cs).after [.ok e]

end Machine

end ByteMachine
