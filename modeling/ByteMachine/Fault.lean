/-
Faults: what stops the machine.

A fault is a cause together with the address of the instruction that was fetched
last.  There are four causes, and each has its own message.
-/
import ByteMachine.Byte
import ByteMachine.IoError

namespace ByteMachine

/-- Why an instruction could not be carried out. -/
inductive Cause where
  | divisionByZero
  /-- The opcode is unknown, or belongs to the other unit. -/
  | unsupportedOperation (opcode : Byte)
  /-- An operand names a register that does not exist. -/
  | invalidRegister (index : Byte)
  /-- The sink did not take a printed value. -/
  | output (error : IoError)
deriving DecidableEq

/-- A cause, and the address of the last instruction fetched. -/
structure Fault where
  cause : Cause
  address : Address
deriving DecidableEq

def Fault.message (f : Fault) : String :=
  let place := "at 0x" ++ f.address.hex
  match f.cause with
  | .divisionByZero => "division by zero " ++ place
  | .unsupportedOperation opcode => "unsupported operation `0b" ++ opcode.binary ++ "` " ++ place
  | .invalidRegister index => "register R" ++ index.decimal ++ " does not exist (" ++ place ++ ")"
  | .output error => "failed to print " ++ place ++ ": " ++ error.name

end ByteMachine
