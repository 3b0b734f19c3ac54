/-
Where a program stands.

The memory is a ring: behind the last address comes the first.  A machine can be turned, that is,
all that stands in its memory moved on by an offset and the program counter with it.  What is
fetched shows nothing of this.  Addresses get out of the fetch in two ways only: a jump takes one
from a register, and so does the stack.

* `Machine.Rotated.advance` — two turned machines fetch the same bytes and move on alike, around
  the end of the memory too;
* `Machine.Rotated.perform` — an instruction that goes by no address does the same on both;
* `Machine.Rotated.cycle`, `Machine.nth_rotated` — so does a cycle, and so do the cycles of a run.

A fault is placed where the instruction stands, and so it is placed further on by the offset.
-/
import ByteMachine.Proofs.Frame

namespace ByteMachine

theorem address_add_right_comm (x k d : Address) : x + k + d = x + d + k := by
  rw [UInt8.add_assoc, UInt8.add_comm k, UInt8.add_assoc]

/-- A memory whose bytes are moved on by an offset, around the end. -/
def Memory.rotate (k : Address) (memory : Memory) : Memory :=
  ⟨Vector.ofFn fun i => memory.read (UInt8.ofNat i - k)⟩

theorem Memory.read_rotate (k : Address) (memory : Memory) (x : Address) :
    (memory.rotate k).read (x + k) = memory.read x := by
  simp only [rotate, read, Fin.getElem_fin, Vector.getElem_ofFn, UInt8.ofNat_toNat,
    UInt8.add_sub_cancel]

/-- A fault that is placed further on. -/
def Fault.moveOn (k : Address) (f : Fault) : Fault := f.moveTo (f.address + k)

/-- Whether an instruction takes an address from a register, where the flags are given: it is a
jump that is taken, or it uses the stack. -/
def Instruction.GoesByAddress (flags : Flags) : Instruction → Prop
  | jump c _ => c.holds flags = true
  | push _ | pop _ => True
  | halt | load .. | print _ | compute .. | compare .. => False

namespace Machine

/-- A machine that is turned: the bytes of the memory and the program counter are moved on. -/
def rotate (k : Address) (m : Machine) : Machine :=
  { m with memory := m.memory.rotate k, pc := m.pc + k }

/-- Two machines differ by an offset in where the memory and the program counter stand, and not in
registers, flags and run state. -/
structure Rotated (k : Address) (m n : Machine) : Prop where
  memory : ∀ x, n.memory.read (x + k) = m.memory.read x
  pc : n.pc = m.pc + k
  registers : n.registers = m.registers
  flags : n.flags = m.flags
  state : n.state = m.state

theorem rotated_rotate (k : Address) (m : Machine) : Rotated k m (m.rotate k) where
  memory := m.memory.read_rotate k
  pc := rfl
  -- Without the equation of the definition, `rfl` would compare the memories byte by byte.
  registers := by rw [rotate]
  flags := by rw [rotate]
  state := by rw [rotate]

/-- The cycle takes a jump, or completes an instruction that uses the stack. -/
def GoesByAddress {σ : Type} [Sink σ] (m : Machine) (sink : σ) : Prop :=
  m.Completes sink .push ∨ m.Completes sink .pop ∨
    ∃ c : Condition, m.Completes sink c.opcode ∧ c.holds m.flags = true

end Machine

/-- Two steps come to the same, but for an offset in where the machine and the instruction that
was fetched last stand, and where a fault is placed. -/
structure Step.Rotated {σ : Type} (k : Address) (s t : Step σ) : Prop where
  machine : Machine.Rotated k s.machine t.machine
  fetched : t.machine.fetched = s.machine.fetched + k
  sink : t.sink = s.sink
  outcome : t.outcome = s.outcome.mapError (Fault.moveOn k)

namespace Machine

variable {σ : Type} [Sink σ] {k : Address} {m n : Machine} {sink : σ} {i : Instruction}

/-- An offset does not get between an address and the ones behind it. -/
theorem Rotated.read_pc_add (h : Rotated k m n) (x : Address) :
    n.memory.read (n.pc + x) = m.memory.read (m.pc + x) := by
  rw [h.pc, address_add_right_comm]
  exact h.memory _

theorem Rotated.opcodeByte_eq (h : Rotated k m n) : n.opcodeByte = m.opcodeByte := by
  rw [opcodeByte, h.pc]
  exact h.memory _

theorem Rotated.operandBytes_eq (h : Rotated k m n) : n.operandBytes = m.operandBytes := by
  rw [operandBytes, h.read_pc_add, h.read_pc_add, operandBytes]

theorem Rotated.advance (h : Rotated k m n) : Rotated k m.advance n.advance where
  memory := h.memory
  pc := by rw [Machine.advance, Machine.advance, h.opcodeByte_eq, h.pc, address_add_right_comm]
  registers := h.registers
  flags := h.flags
  state := h.state

omit [Sink σ] in
theorem Rotated.fail (h : Rotated k m n) (hfetched : n.fetched = m.fetched + k) (sink : σ)
    (cause : Cause) : (m.fail sink cause).Rotated k (n.fail sink cause) where
  machine := h
  fetched := hfetched
  sink := rfl
  outcome := by
    rw [Machine.fail, hfetched]
    rfl

/-- An instruction that goes by no address does the same on a machine that is turned. -/
theorem Rotated.perform (h : Rotated k m n) (hfetched : n.fetched = m.fetched + k)
    (hi : ¬ i.GoesByAddress m.flags) (sink : σ) :
    (m.perform sink i).Rotated k (n.perform sink i) := by
  cases i with
  | halt => exact ⟨{ h with state := rfl }, hfetched, rfl, rfl⟩
  | load r v =>
    have hset : n.registers.set r v = m.registers.set r v := by rw [h.registers]
    exact ⟨{ h with registers := hset }, hfetched, rfl, rfl⟩
  | print r =>
    simp only [Machine.perform, h.registers]
    split
    · exact ⟨h, hfetched, rfl, rfl⟩
    · exact h.fail hfetched _ _
  -- The stack stays where the stack pointer says, and the memory does not.
  | push r => exact absurd trivial hi
  | pop r => exact absurd trivial hi
  | jump c r =>
    have hholds : c.holds m.flags = false := Bool.eq_false_iff.2 hi
    simp only [Machine.perform, h.registers, h.flags, hholds]
    exact ⟨h, hfetched, rfl, rfl⟩
  | compute f r s =>
    simp only [Machine.perform, h.registers]
    split
    · exact h.fail hfetched _ _
    · exact ⟨{ h with registers := rfl }, hfetched, rfl, rfl⟩
  | compare r s =>
    simp only [Machine.perform, h.registers]
    exact ⟨{ h with registers := rfl, flags := rfl }, hfetched, rfl, rfl⟩

/-- An instruction that goes by an address does not fail, so it is seen in the cycle. -/
theorem goesByAddress_of_bytes
    (hbytes : i.bytes <+: [m.opcodeByte, m.operandBytes.1, m.operandBytes.2])
    (hi : i.GoesByAddress m.flags) : m.GoesByAddress sink := by
  have hop : m.opcodeByte = i.opcode.byte := (List.cons_prefix_cons.1 hbytes).1.symm
  have hcycle := cycle_of_bytes hbytes sink
  cases i with
  | push r => exact .inl ⟨hop, _, by rw [hcycle]; rfl⟩
  | pop r => exact .inr (.inl ⟨hop, _, by rw [hcycle]; rfl⟩)
  | jump c r => exact .inr (.inr ⟨c, ⟨hop, _, by rw [hcycle]; rfl⟩, hi⟩)
  | halt | load | print | compute | compare => exact hi.elim

/-- One cycle. -/
theorem Rotated.cycle (h : Rotated k m n) (hfree : ¬ m.GoesByAddress sink) :
    (m.cycle sink).Rotated k (n.cycle sink) := by
  have hfetched : n.advance.fetched = m.advance.fetched + k := h.pc
  rw [Machine.cycle, Machine.cycle, h.opcodeByte_eq, h.operandBytes_eq]
  cases hdecode : Instruction.decode m.opcodeByte m.operandBytes.1 m.operandBytes.2 with
  | error cause => exact h.advance.fail hfetched sink cause
  | ok i =>
    refine h.advance.perform hfetched (fun hi => hfree ?_) sink
    exact goesByAddress_of_bytes (Instruction.decode_eq_ok_iff.1 hdecode) hi

/-- **Execution is uniform around the ring of addresses.**  Let a machine be turned by any offset,
and let none of the first cycles take a jump, push or pop.  Then the turned machine does the same
in each of these cycles: the effect is the same and so is what reaches the sink, a fault has the
same cause and is placed further on by the offset, and afterwards registers, flags and run state
are equal and the memory, the program counter and the address fetched last are still moved on by
the offset. -/
theorem nth_rotated (offset count : Nat) (sink : σ) (h : Rotated (UInt8.ofNat offset) m n)
    (hfree : ∀ j < count, ¬ (m.after sink j).1.GoesByAddress (m.after sink j).2) :
    ∀ j < count, (m.nth sink j).Rotated (UInt8.ofNat offset) (n.nth sink j) := by
  intro j
  induction j with
  | zero => exact fun hj => h.cycle (hfree 0 hj)
  | succ j ih =>
    intro hj
    -- Each cycle starts from what the one before it left, on both machines.
    have hbefore := ih (Nat.lt_of_succ_lt hj)
    have hcycle := hbefore.machine.cycle (hfree (j + 1) hj)
    rw [nth, nth, after_succ_eq n, hbefore.sink]
    exact hcycle

/-- `LDI R0 5`, `PRN R0` and `DIV R0 R1`, where R1 is 0. -/
def loadPrintDivide : Machine :=
  new (Memory.zero.writeAll 0 [0x82, 0x00, 0x05, 0x47, 0x00, 0xA3, 0x00, 0x01])

/-- Turned so far that the first instruction stands across the end of the memory. -/
theorem nth_rotated_loadPrintDivide :
    let turned := loadPrintDivide.rotate 0xFE
    (turned.nth (#[] : Array Byte) 0).outcome = .ok (.loaded 0 5) ∧
      (turned.nth (#[] : Array Byte) 1).outcome = .ok (.printed 0 5) ∧
      (turned.nth (#[] : Array Byte) 2).outcome = .error ⟨.divisionByZero, 0x03⟩ ∧
      (turned.nth (#[] : Array Byte) 2).machine.pc = 0x06 := by
  intro turned
  have hfree : ∀ j < 3, ¬ (loadPrintDivide.after (#[] : Array Byte) j).1.GoesByAddress
      (loadPrintDivide.after (#[] : Array Byte) j).2 := by
    intro j hj hgoes
    have hop : (loadPrintDivide.after (#[] : Array Byte) j).1.opcodeByte ∈
        [0x45, 0x46, 0x54, 0x55, 0x56] := by
      rcases hgoes with ⟨hop, -⟩ | ⟨hop, -⟩ | ⟨c, ⟨hop, -⟩, -⟩
      · rw [hop]; decide
      · rw [hop]; decide
      · rw [hop]; cases c <;> decide
    obtain rfl | rfl | rfl : j = 0 ∨ j = 1 ∨ j = 2 := by omega
    · exact absurd hop (by decide)
    · exact absurd hop (by decide)
    · exact absurd hop (by decide)
  have hturned := nth_rotated 254 3 (#[] : Array Byte) (rotated_rotate 0xFE loadPrintDivide) hfree
  have hthird := hturned 2 (by decide)
  refine ⟨(hturned 0 (by decide)).outcome, (hturned 1 (by decide)).outcome, hthird.outcome, ?_⟩
  rw [hthird.machine.pc]
  decide +kernel

end Machine

end ByteMachine
