/-
The machine: memory, registers, flags, program counter and run state.

A machine also remembers the address of the instruction that it fetched last,
which is where a fault is placed.

A snapshot is what a trace line shows of a machine before a cycle: the program
counter, the three bytes from there on and the registers.
-/
import ByteMachine.Flags
import ByteMachine.Memory
import ByteMachine.Register

namespace ByteMachine

/-- Whether a machine goes on. -/
inductive RunState where
  | running | halted
deriving DecidableEq

structure Machine where
  memory : Memory
  registers : Registers
  flags : Flags
  /-- The address of the next instruction. -/
  pc : Address
  state : RunState
  /-- The address of the instruction fetched last. -/
  fetched : Address
deriving DecidableEq

namespace Machine

/-- A machine that starts at address 0 of a memory. -/
def new (memory : Memory) : Machine where
  memory := memory
  registers := .initial
  flags := .empty
  pc := 0
  state := .running
  fetched := 0

def isRunning (m : Machine) : Bool := m.state = .running

def opcodeByte (m : Machine) : Byte := m.memory.read m.pc

/-- The two bytes behind the program counter, the operands of an instruction there. -/
def operandBytes (m : Machine) : Byte × Byte :=
  (m.memory.read (m.pc + 1), m.memory.read (m.pc + 2))

end Machine

/-- What a trace line shows. -/
structure Snapshot where
  pc : Address
  opcode : Byte
  operands : Byte × Byte
  registers : Registers
deriving DecidableEq

/-- What a trace line shows of a machine. -/
def Machine.snapshot (m : Machine) : Snapshot :=
  ⟨m.pc, m.opcodeByte, m.operandBytes, m.registers⟩

/-- The trace line: the program counter, the three bytes there and the registers. -/
def Snapshot.message (s : Snapshot) : String :=
  "TRACE: " ++ s.pc.hex ++ " | " ++
    " ".intercalate ([s.opcode, s.operands.1, s.operands.2].map Byte.hex) ++ " | " ++
    " ".intercalate (s.registers.toList.map Byte.hex)

end ByteMachine
