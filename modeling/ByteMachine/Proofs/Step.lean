/-
What one step can do.

Every fact about a cycle starts from one of the following, so that no later proof opens the
definition of a step again:

* `issue_ok`, `cycle_ok` — a step that succeeds carries out the instruction that was read;
* `perform_print_ok`, `perform_compute_ok` — what a print and a computation that succeed do;
* `perform_fault` — only a print and a division fail, and only a print touches the sink then;
* `memory_perform`, `state_perform` — what writes to memory, and what halts the machine;
* `perform_moveTo` — an instruction other than a jump does the same wherever it stands.
-/
import ByteMachine.Machine.Cycle
import ByteMachine.Proofs.Decoding

namespace ByteMachine

/-- The same machine with its program counter at one address and another one fetched last. -/
def Machine.moveTo (m : Machine) (pc fetched : Address) : Machine :=
  { m with pc := pc, fetched := fetched }

def Fault.moveTo (f : Fault) (fetched : Address) : Fault := { f with address := fetched }

/-- The same step, made from another address. -/
def Step.moveTo {σ : Type} (s : Step σ) (pc fetched : Address) : Step σ :=
  ⟨s.machine.moveTo pc fetched, s.sink, s.outcome.mapError fun f => f.moveTo fetched⟩

/-- Whether an instruction sets the program counter. -/
def Opcode.isJump : Opcode → Bool
  | jmp | jeq | jne => true
  | hlt | ldi | prn | push | pop | add | mul | div | cmp | and => false

namespace Machine

variable {σ : Type} [Sink σ]

theorem advance_eq_moveTo (m : Machine) :
    m.advance = m.moveTo (m.pc + (1 + operandCount m.opcodeByte)) m.pc := rfl

theorem toNat_pc_advance (m : Machine) :
    m.advance.pc.toNat = (m.pc.toNat + 1 + m.opcodeByte.toNat >>> 6) % 256 := by
  have hshift : (operandCount m.opcodeByte).toNat = m.opcodeByte.toNat >>> 6 := by
    simp [operandCount, UInt8.toNat_shiftRight]
  simp only [advance, UInt8.toNat_add, hshift]
  simp
  omega

theorem issue_ok {m : Machine} {sink : σ} {r : Except Cause Instruction} {e : Effect}
    (h : (m.issue sink r).outcome = .ok e) :
    ∃ i, r = .ok i ∧ m.issue sink r = m.perform sink i := by
  cases r with
  | error c => cases h
  | ok i => exact ⟨i, rfl, rfl⟩

theorem cycle_ok {m : Machine} {sink : σ} {e : Effect} (h : (m.cycle sink).outcome = .ok e) :
    ∃ i : Instruction, i.bytes <+: [m.opcodeByte, m.operandBytes.1, m.operandBytes.2] ∧
      m.cycle sink = m.advance.perform sink i := by
  obtain ⟨i, hread, hissue⟩ := issue_ok h
  exact ⟨i, Instruction.decode_eq_ok_iff.1 hread, hissue⟩

theorem perform_print_ok {m : Machine} {sink : σ} {r : Register} {e : Effect}
    (h : (m.perform sink (.print r)).outcome = .ok e) :
    (m.perform sink (.print r)).machine = m ∧
      Sink.emit sink (m.registers.get r) = ((m.perform sink (.print r)).sink, none) := by
  simp only [perform] at h ⊢
  split at h
  · next he => simp [he]
  · cases h

theorem perform_compute_ok {m : Machine} {sink : σ} {f : Arith} {r s : Register} {e : Effect}
    (h : (m.perform sink (.compute f r s)).outcome = .ok e) :
    ∃ v, f.eval? (m.registers.get r) (m.registers.get s) = some v ∧
      (m.perform sink (.compute f r s)).machine = { m with registers := m.registers.set r v } ∧
      (m.perform sink (.compute f r s)).sink = sink := by
  simp only [perform] at h ⊢
  split at h
  · cases h
  · next v hv => exact ⟨v, hv, rfl, rfl⟩

/-- An instruction that fails is a print that the sink refused, or a division, which the
sink does not see. -/
theorem perform_fault {m : Machine} {sink : σ} {i : Instruction} {f : Fault}
    (h : (m.perform sink i).outcome = .error f) :
    (∃ r error, i = .print r ∧ f.cause = .output error ∧
      Sink.emit sink (m.registers.get r) = ((m.perform sink i).sink, some error)) ∨
    f.cause = .divisionByZero ∧ (m.perform sink i).sink = sink := by
  cases i with
  | print r =>
    left
    simp only [perform] at h ⊢
    split at h
    · cases h
    · next error he =>
      refine ⟨r, error, rfl, ?_, by simp [he, fail]⟩
      cases h
      rfl
  | compute f r s =>
    right
    simp only [perform] at h ⊢
    split at h
    · cases h
      exact ⟨rfl, rfl⟩
    · cases h
  | _ => cases h

/-- Only a push writes to memory, and its effect tells where. -/
theorem memory_perform (m : Machine) (sink : σ) (i : Instruction) :
    (m.perform sink i).machine.memory = m.memory ∨
      ∃ r v top, (m.perform sink i).outcome = .ok (.pushed r v top) ∧
        (m.perform sink i).machine.memory = m.memory.write top v := by
  cases i with
  | push r => exact .inr ⟨r, _, _, rfl, rfl⟩
  | print r =>
    left
    simp only [perform]
    split <;> rfl
  | jump c r =>
    left
    simp only [perform]
    split <;> rfl
  | compute f r s =>
    left
    simp only [perform]
    split <;> rfl
  | _ => exact .inl rfl

/-- Only `HLT` changes the run state. -/
theorem state_perform (m : Machine) (sink : σ) (i : Instruction) :
    (m.perform sink i).machine.state = if i = .halt then .halted else m.state := by
  cases i with
  | print r =>
    simp only [perform]
    split <;> rfl
  | jump c r =>
    simp only [perform]
    split <;> rfl
  | compute f r s =>
    simp only [perform]
    split <;> rfl
  | _ => rfl

theorem perform_moveTo {i : Instruction} (hi : i.opcode.isJump = false) (m : Machine) (sink : σ)
    (pc fetched : Address) :
    (m.moveTo pc fetched).perform sink i = (m.perform sink i).moveTo pc fetched := by
  cases i with
  | print r =>
    simp only [perform, moveTo]
    split <;> rfl
  | compute f r s =>
    simp only [perform, moveTo]
    split <;> rfl
  | jump c r =>
    -- Whatever its condition, its opcode is one of the three that are excluded.
    cases c <;> cases hi
  | _ => rfl

theorem issue_moveTo {r : Except Cause Instruction}
    (hr : ∀ i, r = .ok i → i.opcode.isJump = false) (m : Machine) (sink : σ)
    (pc fetched : Address) :
    (m.moveTo pc fetched).issue sink r = (m.issue sink r).moveTo pc fetched := by
  cases r with
  | error c => rfl
  | ok i => exact perform_moveTo (hr i rfl) m sink pc fetched

end Machine

end ByteMachine
