/-
The instruction names and the bytes that encode them.

An opcode byte has a layout: its top two bits hold the number of operand bytes
that follow it, and bit 5 is set for the operations of the arithmetic unit.
Both readings are defined for every byte, also for one that is no opcode.

* `Opcode.ofByte?_eq_some_iff` — a byte names at most one opcode;
* `Opcode.ofMnemonic?_mnemonic` — so does a mnemonic;
* `Opcode.isArithmetic_byte` — bit 5 tells the two units apart.
-/
import ByteMachine.Byte

namespace ByteMachine

/-- The number of operand bytes that follow an opcode byte, 0 to 3. -/
def operandCount (opcode : Byte) : Byte := opcode >>> 6

/-- Whether an opcode byte is routed to the arithmetic unit. -/
def isArithmetic (opcode : Byte) : Bool := opcode.toNat.testBit 5

/-- The thirteen instruction names. -/
inductive Opcode where
  | hlt | ldi | prn | push | pop | add | mul | div | cmp | and | jmp | jeq | jne
deriving DecidableEq

namespace Opcode

/-- The byte that encodes an opcode. -/
def byte : Opcode → Byte
  | hlt => 0b00000001
  | ldi => 0b10000010
  | prn => 0b01000111
  | push => 0b01000101
  | pop => 0b01000110
  | add => 0b10100000
  | mul => 0b10100010
  | div => 0b10100011
  | cmp => 0b10100111
  | and => 0b10101000
  | jmp => 0b01010100
  | jeq => 0b01010101
  | jne => 0b01010110

/-- The name an opcode is written with. -/
def mnemonic : Opcode → String
  | hlt => "HLT"
  | ldi => "LDI"
  | prn => "PRN"
  | push => "PUSH"
  | pop => "POP"
  | add => "ADD"
  | mul => "MUL"
  | div => "DIV"
  | cmp => "CMP"
  | and => "AND"
  | jmp => "JMP"
  | jeq => "JEQ"
  | jne => "JNE"

/-- All opcodes, in the order of the reference table: control and data, stack,
arithmetic, jumps. -/
def all : List Opcode :=
  [hlt, ldi, prn, push, pop, add, mul, div, cmp, and, jmp, jeq, jne]

/-- The opcode a byte encodes, if it encodes one. -/
def ofByte? (b : Byte) : Option Opcode := all.find? fun o => o.byte == b

def ofMnemonic? (name : String) : Option Opcode := all.find? fun o => o.mnemonic == name

/-- Why a byte is no opcode. -/
def unknownMessage (b : Byte) : String :=
  "No discriminant in enum `Instruction` matches the value `" ++ b.decimal ++ "`"

/-- Opcodes in ascending order of their bytes. -/
def sort (opcodes : List Opcode) : List Opcode :=
  opcodes.mergeSort fun o p => o.byte ≤ p.byte

@[simp] theorem ofByte?_byte (o : Opcode) : ofByte? o.byte = some o := by
  cases o <;> decide

@[simp] theorem ofMnemonic?_mnemonic (o : Opcode) : ofMnemonic? o.mnemonic = some o := by
  cases o <;> decide

theorem ofByte?_eq_some_iff {b : Byte} {o : Opcode} : ofByte? b = some o ↔ o.byte = b := by
  constructor
  · intro h
    simpa using List.find?_some h
  · rintro rfl
    exact ofByte?_byte o

/-- No two opcodes have the same byte. -/
theorem byte_inj {o p : Opcode} : o.byte = p.byte ↔ o = p := by
  refine ⟨fun h => ?_, congrArg Opcode.byte⟩
  exact Option.some.inj (by rw [← ofByte?_byte, ← ofByte?_byte, h])

theorem isArithmetic_byte (o : Opcode) :
    isArithmetic o.byte = true ↔ o ∈ [add, mul, div, cmp, and] := by
  cases o <;> decide

end Opcode

end ByteMachine
