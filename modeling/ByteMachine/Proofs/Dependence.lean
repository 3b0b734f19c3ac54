/-
What a run depends on.

A cycle depends on the opcode byte, on the operand bytes that this announces, and on the top of
the stack if it is a pop (`Machine.Reads`).  The rest of the memory does not show:

* `Machine.cycle_withMemory` — a cycle over another memory that agrees where the cycle reads is
  the same cycle, and pushes to the other memory what it pushes;
* `Machine.after_withMemory` — so are the cycles of a run, if the other memory agrees wherever one
  of them reads;
* `Machine.run_determined` — two such runs cannot be told apart but by the bytes that neither of
  them wrote.

A cycle fetches two bytes behind the opcode whatever the opcode is, and an unknown opcode may
announce three.  What is fetched beyond the operands of an instruction is not looked at.
-/
import ByteMachine.Proofs.Frame

namespace ByteMachine.Machine

variable {σ : Type} [Sink σ] {m : Machine} {sink : σ} {memory : Memory}

/-- The cycle depends on an address: the opcode or one of the operand bytes that it announces is
there, or the cycle is a pop and the address is the top of the stack. -/
def Reads (m : Machine) (x : Address) : Prop :=
  (∃ i ≤ (operandCount m.opcodeByte).toNat, x = m.pc + UInt8.ofNat i) ∨
    m.opcodeByte = Opcode.pop.byte ∧ x = m.registers.sp

theorem issue_withMemory {r : Except Cause Instruction}
    (hpop : ∀ t, r = .ok (.pop t) → memory.read m.registers.sp = m.memory.read m.registers.sp) :
    (m.withMemory memory).issue sink r = (m.issue sink r).withMemory
      (memory.note (m.issue sink r).outcome) := by
  cases r with
  | error c => rfl
  | ok i =>
    refine perform_withMemory fun t ht => hpop t ?_
    rw [ht]

/-- A cycle over another memory that agrees where the cycle reads. -/
theorem cycle_withMemory (h : ∀ x, m.Reads x → memory.read x = m.memory.read x) :
    (m.withMemory memory).cycle sink = (m.cycle sink).withMemory
      (memory.note (m.cycle sink).outcome) := by
  have hfetch : ∀ i ≤ (operandCount m.opcodeByte).toNat,
      memory.read (m.pc + UInt8.ofNat i) = m.memory.read (m.pc + UInt8.ofNat i) := by
    intro i hi
    exact h _ (.inl ⟨i, hi, rfl⟩)
  have hop : (m.withMemory memory).opcodeByte = m.opcodeByte := by
    have hzero := hfetch 0 (Nat.zero_le _)
    rwa [show m.pc + UInt8.ofNat 0 = m.pc from UInt8.add_zero m.pc] at hzero
  have hdecode : Instruction.decode (m.withMemory memory).opcodeByte
      (m.withMemory memory).operandBytes.1 (m.withMemory memory).operandBytes.2 =
      Instruction.decode m.opcodeByte m.operandBytes.1 m.operandBytes.2 := by
    rw [hop]
    exact Instruction.decode_congr (hfetch 1) (hfetch 2)
  have hadvance : (m.withMemory memory).advance = m.advance.withMemory memory := by
    rw [advance, hop]
    rfl
  rw [cycle, hdecode, hadvance]
  refine issue_withMemory fun t ht => h m.registers.sp (.inr ⟨?_, rfl⟩)
  exact (Instruction.opcode_of_decode ht).symm

/-- A byte that the run has written is the same over any memory, and one that it has not written
is the same if it was so at the beginning. -/
theorem read_noted_eq {n : Nat} {x : Address}
    (h : (∀ k < n, ¬ m.PushesAt sink x k) → memory.read x = m.memory.read x) :
    (m.noted sink memory n).read x = (m.after sink n).1.memory.read x := by
  rw [memory_after]
  rcases m.read_noted sink n x with ⟨k, -, hread⟩ | ⟨hnone, hread⟩
  · exact UInt8.toNat_inj.1 ((hread memory).trans (hread m.memory).symm)
  · rw [hread memory, hread m.memory]
    exact h hnone

/-- The next cycle of a run over another memory. -/
theorem nth_of_after {n : Nat}
    (hafter : (m.withMemory memory).after sink n =
      ((m.after sink n).1.withMemory (m.noted sink memory n), (m.after sink n).2))
    (h : ∀ x, (m.after sink n).1.Reads x → memory.read x = m.memory.read x) :
    (m.withMemory memory).nth sink n =
      (m.nth sink n).withMemory (m.noted sink memory (n + 1)) := by
  rw [nth, hafter]
  exact cycle_withMemory fun x hx => read_noted_eq fun _ => h x hx

/-- The cycles of a run over another memory that agrees wherever one of them reads. -/
theorem after_withMemory {n : Nat}
    (h : ∀ x, (∃ k < n, (m.after sink k).1.Reads x) → memory.read x = m.memory.read x) :
    (m.withMemory memory).after sink n =
      ((m.after sink n).1.withMemory (m.noted sink memory n), (m.after sink n).2) := by
  induction n with
  | zero => rfl
  | succ n ih =>
    have hafter := ih fun x ⟨k, hk, hx⟩ => h x ⟨k, Nat.lt_succ_of_lt hk, hx⟩
    have hnth := nth_of_after hafter fun x hx => h x ⟨n, Nat.lt_succ_self n, hx⟩
    exact congrArg (fun s : Step σ => (s.machine, s.sink)) hnth

/-- **A run depends only on the bytes that it fetches or pops.**  Let a memory agree with that of
a machine at every address that one of `n` cycles reads.  Then the machine with this memory does
the same in each of these cycles, failed ones among them: the outcome, which names a value that
was printed, and the machine and the sink afterwards, but for the memory.  Of this, an address
that the cycles have pushed to holds the same byte in both, and any other still holds its own. -/
theorem run_determined (m : Machine) (sink : σ) (n : Nat) (memory : Memory)
    (h : ∀ x, (∃ k < n, (m.after sink k).1.Reads x) → memory.read x = m.memory.read x) :
    let other := m.withMemory memory
    (∀ k < n, (other.nth sink k).outcome = (m.nth sink k).outcome) ∧
      (∀ k ≤ n, (other.after sink k).2 = (m.after sink k).2 ∧
        (other.after sink k).1 =
          (m.after sink k).1.withMemory (other.after sink k).1.memory) ∧
      ∀ x, ((∃ k < n, m.PushesAt sink x k) →
          (other.after sink n).1.memory.read x = (m.after sink n).1.memory.read x) ∧
        ((∀ k < n, ¬ m.PushesAt sink x k) →
          (other.after sink n).1.memory.read x = memory.read x ∧
            (m.after sink n).1.memory.read x = m.memory.read x) := by
  intro other
  have hafter : ∀ k ≤ n, other.after sink k =
      ((m.after sink k).1.withMemory (m.noted sink memory k), (m.after sink k).2) := by
    intro k hk
    exact after_withMemory fun x ⟨j, hj, hx⟩ => h x ⟨j, Nat.lt_of_lt_of_le hj hk, hx⟩
  refine ⟨fun k hk => ?_, fun k hk => ?_, fun x => ?_⟩
  · have hnth : other.nth sink k = _ :=
      nth_of_after (hafter k (Nat.le_of_lt hk)) fun x hx => h x ⟨k, hk, hx⟩
    rw [hnth]
    rfl
  · rw [hafter k hk]
    exact ⟨rfl, rfl⟩
  · rw [hafter n (Nat.le_refl n)]
    refine ⟨fun ⟨k, hk, hpush⟩ => ?_, fun hnone => ?_⟩
    · exact read_noted_eq fun hnone => absurd hpush (hnone k hk)
    · rw [memory_after]
      rcases m.read_noted sink n x with ⟨k, hlast, -⟩ | ⟨-, hread⟩
      · exact absurd hlast.1.2 (hnone k hlast.1.1)
      · exact ⟨hread memory, hread m.memory⟩

/-- `PUSH R7`, `POP R0` and `PRN R0`. -/
def pushPopPrint : Machine :=
  new (Memory.zero.writeAll 0 [0x45, 0x07, 0x46, 0x00, 0x47, 0x00])

/-- The same program among bytes that differ, and 0 at the address that it pops from. -/
def otherBytes : Memory :=
  ((⟨Vector.replicate 256 0xFF⟩ : Memory).writeAll 0
    [0x45, 0x07, 0x46, 0x00, 0x47, 0x00]).write 0xF3 0x00

theorem run_determined_pushPopPrint :
    (∀ x, (∃ k < 3, (pushPopPrint.after (#[] : Array Byte) k).1.Reads x) →
        otherBytes.read x = pushPopPrint.memory.read x) ∧
      ((pushPopPrint.withMemory otherBytes).nth (#[] : Array Byte) 2).outcome =
        .ok (.printed 0 0xF4) ∧
      ((pushPopPrint.withMemory otherBytes).after (#[] : Array Byte) 3).1.memory.read 0xF3 = 0xF4 ∧
      ((pushPopPrint.withMemory otherBytes).after (#[] : Array Byte) 3).1.memory.read 0x80 =
        0xFF := by
  have hagree : ∀ x, (∃ k < 3, (pushPopPrint.after (#[] : Array Byte) k).1.Reads x) →
      otherBytes.read x = pushPopPrint.memory.read x := by
    rintro x ⟨k, hk, hx⟩
    -- Every instruction has one operand, and the one that pops is the second.
    obtain rfl | rfl | rfl : k = 0 ∨ k = 1 ∨ k = 2 := by omega
    · rcases hx with ⟨i, hi, rfl⟩ | ⟨hpop, -⟩
      · obtain rfl | rfl := Nat.le_one_iff_eq_zero_or_eq_one.1 hi <;> rfl
      · exact absurd hpop (by decide)
    · rcases hx with ⟨i, hi, rfl⟩ | ⟨-, rfl⟩
      · obtain rfl | rfl := Nat.le_one_iff_eq_zero_or_eq_one.1 hi <;> rfl
      · rfl
    · rcases hx with ⟨i, hi, rfl⟩ | ⟨hpop, -⟩
      · obtain rfl | rfl := Nat.le_one_iff_eq_zero_or_eq_one.1 hi <;> rfl
      · exact absurd hpop (by decide)
  have hspared : ∀ k < 3, ¬ pushPopPrint.PushesAt (#[] : Array Byte) 0x80 k := by
    intro k hk hpush
    obtain ⟨r, v, hout⟩ := pushesTo_iff.1 hpush
    obtain rfl | rfl | rfl : k = 0 ∨ k = 1 ∨ k = 2 := by omega
    · exact absurd hpush.2 (by decide)
    · cases hout
    · cases hout
  obtain ⟨houtcome, -, hbyte⟩ := run_determined pushPopPrint (#[] : Array Byte) 3 otherBytes hagree
  refine ⟨hagree, houtcome 2 (by decide), ?_, ((hbyte 0x80).2 hspared).1⟩
  exact (hbyte 0xF3).1 ⟨0, by decide, pushesTo_iff.2 ⟨7, 0xF4, rfl⟩⟩

end ByteMachine.Machine
