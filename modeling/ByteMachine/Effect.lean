/-
What a completed instruction did.

An effect names the instruction and the values that it met: an onlooker learns
from it what was read, computed and stored, without looking at the machine.

* `Effect.message` — the effect in one line;
* `Effect.printed?` — the value that was printed, if one was.
-/
import ByteMachine.Instruction

namespace ByteMachine

/-- An instruction that was carried out, with the values it met. -/
inductive Effect where
  | halted
  | loaded (target : Register) (value : Byte)
  | printed (source : Register) (value : Byte)
  /-- The value is at the address `top` now. -/
  | pushed (source : Register) (value : Byte) (top : Address)
  /-- The value was at the address `top`. -/
  | popped (target : Register) (value : Byte) (top : Address)
  | jumped (condition : Condition) (register : Register) (target : Address) (taken : Bool)
  | computed (operation : Arith) (left right : Register) (x y result : Byte)
  | compared (left right : Register) (flags : Flags)
deriving DecidableEq

namespace Effect

def opcode : Effect → Opcode
  | halted => .hlt
  | loaded .. => .ldi
  | printed .. => .prn
  | pushed .. => .push
  | popped .. => .pop
  | jumped condition .. => condition.opcode
  | computed operation .. => operation.opcode
  | compared .. => .cmp

/-- What follows the mnemonic in the message. -/
def details : Effect → String
  | halted => ""
  | loaded target value => " " ++ target.name ++ " " ++ value.decimal
  | printed source value => " " ++ source.name ++ ": " ++ value.decimal
  | pushed source value top =>
    " " ++ source.name ++ ": " ++ value.decimal ++ " -> 0x" ++ top.hex
  | popped target value top =>
    " " ++ target.name ++ ": " ++ value.decimal ++ " <- 0x" ++ top.hex
  | jumped .always register target _ => " " ++ register.name ++ ": 0x" ++ target.hex
  | jumped _ register target taken =>
    " " ++ register.name ++ ": 0x" ++ target.hex ++ " (taken: " ++
      (if taken then "true" else "false") ++ ")"
  | computed operation left right x y result =>
    " " ++ left.name ++ " " ++ right.name ++ ": " ++ x.decimal ++ " " ++ operation.symbol ++
      " " ++ y.decimal ++ " = " ++ result.decimal
  | compared left right flags => " " ++ left.name ++ " " ++ right.name ++ ": " ++ flags.describe

/-- The effect in one line: the mnemonic, the operands and the values. -/
def message (e : Effect) : String := e.opcode.mnemonic ++ e.details

/-- The value that was printed. -/
def printed? : Effect → Option Byte
  | printed _ value => some value
  | _ => none

end Effect

end ByteMachine
