/-
One cycle of the machine.

A cycle fetches the opcode byte at the program counter and the two bytes behind
it, moves the program counter past the instruction, and carries the instruction
out.  A unit can also be given an instruction directly, without a fetch.

Whatever is done, the result is a `Step`: the machine and the sink afterwards, and
either the effect or a fault.  A fault leaves memory, registers, flags and run
state alone (`Machine.perform_error`).

* `Machine.perform` — carries out an instruction;
* `Machine.control`, `Machine.calculate` — the two units, given an instruction by
  its opcode and operand bytes;
* `Machine.cycle` — fetch, decode, execute.
-/
import ByteMachine.Effect
import ByteMachine.Machine.Basic
import ByteMachine.Sink

namespace ByteMachine

/-- The machine and the sink after an instruction, and what came of it. -/
structure Step (σ : Type) where
  machine : Machine
  sink : σ
  outcome : Except Fault Effect

namespace Machine

variable {σ : Type}

/-- The step of an instruction that fails on this machine. -/
def fail (m : Machine) (sink : σ) (cause : Cause) : Step σ :=
  ⟨m, sink, .error ⟨cause, m.fetched⟩⟩

variable [Sink σ]

/-- Carries out an instruction.  The program counter is already past it. -/
def perform (m : Machine) (sink : σ) : Instruction → Step σ
  | .halt => ⟨{ m with state := .halted }, sink, .ok .halted⟩
  | .load r v => ⟨{ m with registers := m.registers.set r v }, sink, .ok (.loaded r v)⟩
  | .print r =>
    let v := m.registers.get r
    match Sink.emit sink v with
    | (sink, none) => ⟨m, sink, .ok (.printed r v)⟩
    | (sink, some error) => m.fail sink (.output error)
  | .push r =>
    let v := m.registers.get r
    let top := m.registers.sp - 1
    ⟨{ m with registers := m.registers.setSp top, memory := m.memory.write top v }, sink,
      .ok (.pushed r v top)⟩
  | .pop r =>
    let top := m.registers.sp
    let v := m.memory.read top
    -- The target may be the stack pointer: the popped value is then the one to raise.
    let registers := m.registers.set r v
    ⟨{ m with registers := registers.setSp (registers.sp + 1) }, sink, .ok (.popped r v top)⟩
  | .jump condition r =>
    let target := m.registers.get r
    let taken := condition.holds m.flags
    ⟨if taken then { m with pc := target } else m, sink, .ok (.jumped condition r target taken)⟩
  | .compute operation r s =>
    let x := m.registers.get r
    let y := m.registers.get s
    match operation.eval? x y with
    | none => m.fail sink .divisionByZero
    | some v =>
      ⟨{ m with registers := m.registers.set r v }, sink, .ok (.computed operation r s x y v)⟩
  | .compare r s =>
    let flags := Flags.compare (m.registers.get r) (m.registers.get s)
    ⟨{ m with flags := flags }, sink, .ok (.compared r s flags)⟩

/-- Carries out an instruction that was read, or fails as the reading did. -/
def issue (m : Machine) (sink : σ) : Except Cause Instruction → Step σ
  | .ok i => m.perform sink i
  | .error cause => m.fail sink cause

def control (m : Machine) (sink : σ) (opcode : Opcode) (a b : Byte) : Step σ :=
  m.issue sink (Instruction.ofControl opcode a b)

def calculate (m : Machine) (sink : σ) (opcode : Opcode) (a b : Byte) : Step σ :=
  m.issue sink (Instruction.ofArithmetic opcode a b)

/-- Notes the address of the instruction at the program counter and moves past it.
The length is told by the opcode byte, also if it is unknown. -/
def advance (m : Machine) : Machine :=
  { m with fetched := m.pc, pc := m.pc + (1 + operandCount m.opcodeByte) }

def cycle (m : Machine) (sink : σ) : Step σ :=
  m.advance.issue sink (Instruction.decode m.opcodeByte m.operandBytes.1 m.operandBytes.2)

/-- An instruction that fails leaves the machine as it was. -/
theorem perform_error {m : Machine} {sink : σ} {i : Instruction} {f : Fault}
    (h : (m.perform sink i).outcome = .error f) :
    (m.perform sink i).machine = m ∧ f.address = m.fetched := by
  cases i with
  | print r =>
    simp only [perform] at h ⊢
    split
    · next he => simp [he] at h
    · next he =>
      simp only [he, fail, Except.error.injEq] at h
      exact ⟨rfl, by rw [← h]⟩
  | compute operation r s =>
    simp only [perform] at h ⊢
    split
    · next he =>
      simp only [he, fail, Except.error.injEq] at h
      exact ⟨rfl, by rw [← h]⟩
    · next he => simp [he] at h
  | _ => simp [perform] at h

/-- So does an instruction that cannot be read. -/
theorem issue_error {m : Machine} {sink : σ} {i : Except Cause Instruction} {f : Fault}
    (h : (m.issue sink i).outcome = .error f) :
    (m.issue sink i).machine = m ∧ f.address = m.fetched := by
  cases i with
  | ok i => exact perform_error h
  | error cause =>
    simp only [issue, fail, Except.error.injEq] at h
    exact ⟨rfl, by rw [← h]⟩

end Machine

end ByteMachine
