/-
Instructions with their operands, and how three bytes are read as one.

An `Instruction` holds registers, not operand bytes, so that every check of an
operand is made before anything happens.  Each of the two units reads the
instructions of its own kind and refuses the others; which unit is asked is told
by the opcode byte.

* `Instruction.ofControl`, `Instruction.ofArithmetic` — the readers of the units;
* `Instruction.decode` — the reader of three fetched bytes;
* `Instruction.opcode_of_decode` — what is read has the opcode that was fetched.
-/
import ByteMachine.Fault
import ByteMachine.Flags
import ByteMachine.Opcode
import ByteMachine.Register

namespace ByteMachine

/-- The operations that compute a value from two registers. -/
inductive Arith where
  | add | mul | div | and
deriving DecidableEq

namespace Arith

/-- The result of an operation, in eight bits; division by zero has none. -/
def eval? (operation : Arith) (x y : Byte) : Option Byte :=
  match operation with
  | add => some (x + y)
  | mul => some (x * y)
  | div => if y = 0 then none else some (x / y)
  | and => some (x &&& y)

def opcode : Arith → Opcode
  | add => .add
  | mul => .mul
  | div => .div
  | and => .and

def symbol : Arith → String
  | add => "+"
  | mul => "*"
  | div => "/"
  | and => "&"

end Arith

/-- When a jump is taken. -/
inductive Condition where
  | always | equal | notEqual
deriving DecidableEq

namespace Condition

/-- Whether the last comparison meets the condition. -/
def holds (condition : Condition) (flags : Flags) : Bool :=
  match condition with
  | always => true
  | equal => flags.equal
  | notEqual => !flags.equal

def opcode : Condition → Opcode
  | always => .jmp
  | equal => .jeq
  | notEqual => .jne

end Condition

/-- An instruction and its operands. -/
inductive Instruction where
  | halt
  | load (target : Register) (value : Byte)
  | print (source : Register)
  | push (source : Register)
  | pop (target : Register)
  /-- Go on at the address that a register holds. -/
  | jump (condition : Condition) (register : Register)
  /-- Put the result of an operation on two registers into the first. -/
  | compute (operation : Arith) (left right : Register)
  | compare (left right : Register)
deriving DecidableEq

namespace Instruction

def opcode : Instruction → Opcode
  | halt => .hlt
  | load .. => .ldi
  | print _ => .prn
  | push _ => .push
  | pop _ => .pop
  | jump condition _ => condition.opcode
  | compute operation .. => operation.opcode
  | compare .. => .cmp

def register (operand : Byte) : Except Cause Register :=
  match Register.ofByte? operand with
  | some r => .ok r
  | none => .error (.invalidRegister operand)

def ofControl (opcode : Opcode) (a b : Byte) : Except Cause Instruction :=
  match opcode with
  | .hlt => .ok .halt
  | .ldi => (register a).map fun r => .load r b
  | .prn => (register a).map .print
  | .push => (register a).map .push
  | .pop => (register a).map .pop
  | .jmp => (register a).map (.jump .always)
  | .jeq => (register a).map (.jump .equal)
  | .jne => (register a).map (.jump .notEqual)
  | .add | .mul | .div | .cmp | .and => .error (.unsupportedOperation opcode.byte)

/-- The instruction of the arithmetic unit with an opcode, if it has one. -/
def arithmetic? (opcode : Opcode) (left right : Register) : Option Instruction :=
  match opcode with
  | .add => some (.compute .add left right)
  | .mul => some (.compute .mul left right)
  | .div => some (.compute .div left right)
  | .and => some (.compute .and left right)
  | .cmp => some (.compare left right)
  | .hlt | .ldi | .prn | .push | .pop | .jmp | .jeq | .jne => none

/-- Reads an instruction of the arithmetic unit.  The operands are looked at
before the opcode. -/
def ofArithmetic (opcode : Opcode) (a b : Byte) : Except Cause Instruction := do
  let left ← register a
  let right ← register b
  match arithmetic? opcode left right with
  | some i => .ok i
  | none => .error (.unsupportedOperation opcode.byte)

/-- Reads an opcode byte and the two bytes behind it. -/
def decode (op a b : Byte) : Except Cause Instruction :=
  match Opcode.ofByte? op with
  | none => .error (.unsupportedOperation op)
  | some opcode => if isArithmetic op then ofArithmetic opcode a b else ofControl opcode a b

theorem register_eq_ok_iff {operand : Byte} {r : Register} :
    register operand = .ok r ↔ operand.toNat = r.val := by
  unfold register
  rw [← Register.ofByte?_eq_some_iff]
  split <;> simp_all

theorem opcode_of_ofControl {o : Opcode} {a b : Byte} {i : Instruction}
    (h : ofControl o a b = .ok i) : i.opcode = o := by
  cases hr : register a <;> cases o <;> simp [ofControl, hr, Except.map] at h <;>
    subst h <;> rfl

theorem opcode_of_ofArithmetic {o : Opcode} {a b : Byte} {i : Instruction}
    (h : ofArithmetic o a b = .ok i) : i.opcode = o := by
  cases ha : register a <;> cases hb : register b <;> cases o <;>
    simp [ofArithmetic, arithmetic?, ha, hb, bind, Except.bind] at h <;>
    subst h <;> rfl

/-- What is read from three bytes has the opcode that the first of them encodes. -/
theorem opcode_of_decode {op a b : Byte} {i : Instruction} (h : decode op a b = .ok i) :
    i.opcode.byte = op := by
  unfold decode at h
  split at h
  · cases h
  · next o ho =>
    rw [← Opcode.ofByte?_eq_some_iff]
    split at h
    · rw [opcode_of_ofArithmetic h, ho]
    · rw [opcode_of_ofControl h, ho]

end Instruction

end ByteMachine
