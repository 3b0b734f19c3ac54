/-
What a run leaves alone.

Cycles follow one another whatever comes of them, and from one to the next hardly anything
changes.  What does change is told by the opcode that was fetched, if the cycle completed it:

* `Machine.Completes.prescribed`, `Machine.cycle_of_forall_not` — a cycle that completes an
  instruction does what the reference says, and any other only moves on;
* `LastBefore.eq` — a value that changes only in some of the cycles is as the last of them left
  it;
* `Machine.perform_withMemory`, `Machine.read_noted` — memory takes part in a run by the pushes
  alone, and an address holds the value that was pushed to it last;
* `Machine.run_frame` — the frame law of memory, registers, flags and run state.

A push may hit the code that is being run.  Nothing here asks what the code is: every cycle is
judged by the bytes that it finds.
-/
import ByteMachine.Proofs.Iteration
import ByteMachine.Proofs.Reference
import ByteMachine.Proofs.Stack
import Mathlib.Data.Nat.SuccPred
import Mathlib.Order.SuccPred.Archimedean

namespace ByteMachine

/-- The number `k` is the last one below `n` that has a property. -/
def LastBefore (P : Nat → Prop) (n k : Nat) : Prop := IsGreatest {j | j < n ∧ P j} k

section

variable {α : Type} {P : Nat → Prop} {f : Nat → α} {k n : Nat}

theorem forall_not_or_exists_lastBefore (P : Nat → Prop) (n : Nat) :
    (∀ k < n, ¬ P k) ∨ ∃ k, LastBefore P n k := by
  by_cases h : ∃ k < n, P k
  · obtain ⟨k, hk⟩ := h
    exact .inr (BddAbove.exists_isGreatest_of_nonempty ⟨n, fun j hj => Nat.le_of_lt hj.1⟩ ⟨k, hk⟩)
  · exact .inl fun k hk hP => h ⟨k, hk, hP⟩

/-- A value that changes only at events stays as it is while there is none. -/
theorem eq_of_forall_not (hkeep : ∀ j, ¬ P j → f (j + 1) = f j) (hle : k ≤ n)
    (hnone : ∀ j, k ≤ j → j < n → ¬ P j) : f n = f k := by
  induction n, hle using Nat.le_induction with
  | base => rfl
  | succ n hkn ih =>
    rw [hkeep n (hnone n hkn (Nat.lt_succ_self n))]
    exact ih fun j hkj hjn => hnone j hkj (Nat.lt_succ_of_lt hjn)

/-- A value that changes only at events is as the last of them left it. -/
theorem LastBefore.eq (hkeep : ∀ j, ¬ P j → f (j + 1) = f j) (h : LastBefore P n k) :
    f n = f (k + 1) := by
  refine eq_of_forall_not hkeep h.1.1 fun j hkj hjn hj => ?_
  have hle : j ≤ k := h.2 ⟨hjn, hj⟩
  omega

end

/-- The instruction, with its first operand byte, changes a register: it stores to the register
that the operand names, or moves the stack pointer. -/
def Opcode.Changes (o : Opcode) (operand : Byte) (r : Register) : Prop :=
  o.stores = true ∧ operand = r.byte ∨ r = .stackPointer ∧ (o = .push ∨ o = .pop)

theorem Reference.registerAfter_of_not_changes {m : Machine} {o : Opcode} {a : Byte}
    {r : Register} (h : ¬ o.Changes a r) (b : Byte) :
    registerAfter m o a b r = (m.registers.get r).toNat := by
  have hstore : o.stores = true → r.val ≠ a.toNat := by
    intro hstores hr
    exact h (.inl ⟨hstores, UInt8.toNat_inj.1 (by rw [← hr, Register.toNat_byte])⟩)
  have hpointer : r.val = 7 → ¬ (o = .push ∨ o = .pop) := by
    intro hr hmoves
    exact h (.inr ⟨Fin.ext hr, hmoves⟩)
  cases o with
  | hlt | prn | cmp | jmp | jeq | jne => rfl
  | ldi | add | mul | div | and => exact if_neg (hstore rfl)
  | push => exact if_neg fun hr => hpointer hr (.inl rfl)
  | pop =>
    have hseven : r.val ≠ 7 := fun hr => hpointer hr (.inr rfl)
    rw [registerAfter, if_neg hseven, if_neg (hstore rfl)]

/-- A memory after a cycle with an outcome: a push puts its value there. -/
def Memory.note (memory : Memory) : Except Fault Effect → Memory
  | .ok (.pushed _ v top) => memory.write top v
  | _ => memory

/-- A machine with another memory. -/
def Machine.withMemory (m : Machine) (memory : Memory) : Machine := { m with memory := memory }

@[simp] theorem Machine.registers_withMemory (m : Machine) (memory : Memory) :
    (m.withMemory memory).registers = m.registers := rfl

@[simp] theorem Machine.flags_withMemory (m : Machine) (memory : Memory) :
    (m.withMemory memory).flags = m.flags := rfl

/-- The same step, on a machine with another memory. -/
def Step.withMemory {σ : Type} (s : Step σ) (memory : Memory) : Step σ :=
  { s with machine := s.machine.withMemory memory }

namespace Machine

variable {σ : Type} [Sink σ] {m : Machine} {sink : σ} {o : Opcode} {x : Address}

/-- The numbers in the registers that the two operand bytes name. -/
def operandNumbers (m : Machine) : Nat × Nat :=
  (m.number m.operandBytes.1, m.number m.operandBytes.2)

/-- The cycle fetches an opcode and completes the instruction. -/
def Completes (m : Machine) (sink : σ) (o : Opcode) : Prop :=
  m.opcodeByte = o.byte ∧ ∃ e, (m.cycle sink).outcome = .ok e

/-- The cycle completes a push, and the stack pointer is at an address then. -/
def PushesTo (m : Machine) (sink : σ) (x : Address) : Prop :=
  m.Completes sink .push ∧ (m.cycle sink).machine.registers.sp = x

/-- The cycle with a number, counted from 0, completes an opcode. -/
def CompletesAt (m : Machine) (sink : σ) (o : Opcode) (k : Nat) : Prop :=
  (m.after sink k).1.Completes (m.after sink k).2 o

/-- The cycle with a number, counted from 0, pushes to an address. -/
def PushesAt (m : Machine) (sink : σ) (x : Address) (k : Nat) : Prop :=
  (m.after sink k).1.PushesTo (m.after sink k).2 x

theorem cycle_of_bytes {i : Instruction}
    (h : i.bytes <+: [m.opcodeByte, m.operandBytes.1, m.operandBytes.2]) (sink : σ) :
    m.cycle sink = m.advance.perform sink i := by
  rw [cycle, Instruction.decode_eq_ok_iff.2 h]
  rfl

/-! ### What one cycle changes -/

theorem prescribed_cycle {e : Effect} (h : (m.cycle sink).outcome = .ok e) :
    ∃ o : Opcode, m.opcodeByte = o.byte ∧ Prescribed m sink o m.operandBytes.1 m.operandBytes.2
      (m.cycle sink).machine (m.cycle sink).sink := by
  obtain ⟨i, hi, hcycle⟩ := cycle_ok h
  obtain ⟨hop, hab⟩ := List.cons_prefix_cons.1 hi
  rw [hcycle] at h ⊢
  exact ⟨i.opcode, hop.symm, prescribed_perform hop hab h⟩

theorem Completes.prescribed (h : m.Completes sink o) :
    Prescribed m sink o m.operandBytes.1 m.operandBytes.2 (m.cycle sink).machine
      (m.cycle sink).sink := by
  obtain ⟨hop, e, he⟩ := h
  obtain ⟨p, hp, hprescribed⟩ := prescribed_cycle he
  obtain rfl : o = p := Opcode.byte_inj.1 (hop.symm.trans hp)
  exact hprescribed

theorem cycle_of_forall_not (h : ∀ o, ¬ m.Completes sink o) :
    (m.cycle sink).machine = m.advance := by
  cases hout : (m.cycle sink).outcome with
  | error f => exact (issue_error hout).1
  | ok e =>
    obtain ⟨o, ho, -⟩ := prescribed_cycle hout
    exact absurd ⟨ho, e, hout⟩ (h o)

/-- What a cycle leaves is told by the instruction that it completes, or it is what every cycle
leaves that moves on. -/
theorem cycle_cases (m : Machine) (sink : σ) :
    (∃ o, m.Completes sink o) ∨ (m.cycle sink).machine = m.advance := by
  by_cases h : ∃ o, m.Completes sink o
  · exact .inl h
  · exact .inr (cycle_of_forall_not fun o ho => h ⟨o, ho⟩)

/-- A comparison replaces the flags by the one bit that tells how its values relate. -/
theorem Completes.bits_flags (h : m.Completes sink .cmp) :
    (m.cycle sink).machine.flags.bits.toNat =
      if m.operandNumbers.1 < m.operandNumbers.2 then 0b100
      else if m.operandNumbers.2 < m.operandNumbers.1 then 0b010
      else 0b001 :=
  h.prescribed.flags

/-- Nothing but a comparison changes the flags. -/
theorem flags_cycle_of_not (h : ¬ m.Completes sink .cmp) :
    (m.cycle sink).machine.flags = m.flags := by
  rcases m.cycle_cases sink with ⟨o, ho⟩ | hadvance
  · have hne : o ≠ .cmp := by
      rintro rfl
      exact h ho
    have hbits := ho.prescribed.flags
    rw [Reference.flagsAfter, if_neg hne] at hbits
    exact Flags.bits_inj (UInt8.toNat_inj.1 hbits)
  · rw [hadvance]
    rfl

/-- A register keeps its value unless an instruction completes that changes it. -/
theorem get_cycle_of_forall_not {r : Register}
    (h : ∀ o, m.Completes sink o → ¬ o.Changes m.operandBytes.1 r) :
    (m.cycle sink).machine.registers.get r = m.registers.get r := by
  rcases m.cycle_cases sink with ⟨o, ho⟩ | hadvance
  · apply UInt8.toNat_inj.1
    rw [ho.prescribed.register, Reference.registerAfter_of_not_changes (h o ho)]
  · rw [hadvance]
    rfl

/-- The machine is halted after a cycle if it was before, or if the opcode fetched is `HLT`. -/
theorem state_cycle_eq_halted_iff : (m.cycle sink).machine.state = .halted ↔
    m.state = .halted ∨ m.opcodeByte = Opcode.hlt.byte := by
  by_cases hop : m.opcodeByte = Opcode.hlt.byte
  · -- It has no operand that could be wrong, so it does not fail.
    have hbytes : Instruction.halt.bytes <+:
        [m.opcodeByte, m.operandBytes.1, m.operandBytes.2] := ⟨_, by rw [hop]; rfl⟩
    rw [cycle_of_bytes hbytes]
    exact ⟨fun _ => .inr hop, fun _ => rfl⟩
  · have hstate : (m.cycle sink).machine.state = m.state := by
      rcases m.cycle_cases sink with ⟨o, ho⟩ | hadvance
      · have hne : o ≠ .hlt := by
          rintro rfl
          exact hop ho.1
        rw [ho.prescribed.state, Reference.stateAfter, if_neg hne]
      · rw [hadvance]
        rfl
    rw [hstate]
    exact ⟨.inl, fun h => h.resolve_right hop⟩

/-! ### Memory and the pushes of a run -/

/-- An instruction on a machine with another memory: it does the same, unless it pops something
else, and it pushes to the other memory what it pushes. -/
theorem perform_withMemory {i : Instruction} {memory : Memory}
    (hpop : ∀ r, i = .pop r → memory.read m.registers.sp = m.memory.read m.registers.sp) :
    (m.withMemory memory).perform sink i = (m.perform sink i).withMemory
      (memory.note (m.perform sink i).outcome) := by
  cases i with
  | pop r =>
    have hread := hpop r rfl
    simp only [perform, withMemory, hread]
    rfl
  | print r =>
    simp only [perform, withMemory]
    split <;> rfl
  | jump c r =>
    cases htaken : c.holds m.flags with
    | false =>
      simp only [perform, registers_withMemory, flags_withMemory, htaken]
      rfl
    | true =>
      simp only [perform, registers_withMemory, flags_withMemory, htaken]
      rfl
  | compute f r s =>
    simp only [perform, withMemory]
    split <;> rfl
  | _ => rfl

theorem memory_perform_eq_note (m : Machine) (sink : σ) (i : Instruction) :
    (m.perform sink i).machine.memory = m.memory.note (m.perform sink i).outcome := by
  have hsame : (m.withMemory m.memory).perform sink i = _ := perform_withMemory fun _ _ => rfl
  exact congrArg (fun s => s.machine.memory) hsame

/-- The memory after a cycle is told by its outcome. -/
theorem memory_cycle (m : Machine) (sink : σ) :
    (m.cycle sink).machine.memory = m.memory.note (m.cycle sink).outcome := by
  cases hout : (m.cycle sink).outcome with
  | error f =>
    have hadvance : (m.cycle sink).machine = m.advance := (issue_error hout).1
    rw [hadvance]
    rfl
  | ok e =>
    obtain ⟨i, -, hcycle⟩ := cycle_ok hout
    rw [← hout, hcycle]
    exact memory_perform_eq_note m.advance sink i

/-- Only a push reports a push, and it tells the value and the address. -/
theorem perform_pushed {i : Instruction} {r : Register} {v : Byte}
    (h : (m.perform sink i).outcome = .ok (.pushed r v x)) :
    i = .push r ∧ v = m.registers.get r := by
  cases i with
  | push s =>
    cases h
    exact ⟨rfl, rfl⟩
  | print s =>
    simp only [perform] at h
    split at h <;> cases h
  | jump c s => cases h
  | compute f s t =>
    simp only [perform] at h
    split at h <;> cases h
  | halt | load s u | pop s | compare s t => cases h

/-- The value that a push reports is the one of the register that its operand names. -/
theorem pushesTo_of_pushed {r : Register} {v : Byte}
    (h : (m.cycle sink).outcome = .ok (.pushed r v x)) :
    m.PushesTo sink x ∧ v.toNat = m.operandNumbers.1 := by
  obtain ⟨i, hi, hcycle⟩ := cycle_ok h
  have hperform := h
  rw [hcycle] at hperform
  obtain ⟨rfl, rfl⟩ := perform_pushed hperform
  obtain ⟨hop, hab⟩ := List.cons_prefix_cons.1 hi
  have ha : r.byte = m.operandBytes.1 := (List.cons_prefix_cons.1 hab).1
  refine ⟨⟨⟨hop.symm, _, h⟩, ?_⟩, ?_⟩
  · cases hperform
    rw [hcycle]
    exact Registers.sp_setSp ..
  · rw [operandNumbers, ← ha, number_byte]
    rfl

theorem pushed_of_pushesTo (h : m.PushesTo sink x) :
    ∃ r v, (m.cycle sink).outcome = .ok (.pushed r v x) := by
  obtain ⟨⟨hop, e, he⟩, hx⟩ := h
  obtain ⟨i, hi, hcycle⟩ := cycle_ok he
  have hopcode : i.opcode = .push :=
    Opcode.byte_inj.1 ((List.cons_prefix_cons.1 hi).1.trans hop)
  cases i with
  | push r =>
    refine ⟨r, m.registers.get r, ?_⟩
    rw [hcycle] at hx ⊢
    have htop : m.registers.sp - 1 = x := (Registers.sp_setSp ..).symm.trans hx
    rw [← htop]
    rfl
  | jump c r => cases c <;> cases hopcode
  | compute f r s => cases f <;> cases hopcode
  | _ => cases hopcode

theorem pushesTo_iff : m.PushesTo sink x ↔
    ∃ r v, (m.cycle sink).outcome = .ok (.pushed r v x) := by
  refine ⟨pushed_of_pushesTo, ?_⟩
  rintro ⟨r, v, h⟩
  exact (pushesTo_of_pushed h).1

/-- A cycle changes any memory at the address that it pushes to, and nowhere else. -/
theorem read_note_of_pushesTo (h : m.PushesTo sink x) (memory : Memory) :
    ((memory.note (m.cycle sink).outcome).read x).toNat = m.operandNumbers.1 := by
  obtain ⟨r, v, hout⟩ := pushed_of_pushesTo h
  rw [hout, ← (pushesTo_of_pushed hout).2]
  exact congrArg UInt8.toNat (memory.read_write_self x v)

theorem read_note_of_not (h : ¬ m.PushesTo sink x) (memory : Memory) :
    (memory.note (m.cycle sink).outcome).read x = memory.read x := by
  unfold Memory.note
  split
  · next r v top hout =>
    refine memory.read_write_of_ne v ?_
    rintro rfl
    exact h (pushesTo_iff.2 ⟨r, v, hout⟩)
  · rfl

/-- A memory after a number of cycles, if it takes what they push. -/
def noted (m : Machine) (sink : σ) (memory : Memory) : Nat → Memory
  | 0 => memory
  | k + 1 => (m.noted sink memory k).note (m.nth sink k).outcome

theorem memory_after (m : Machine) (sink : σ) (n : Nat) :
    (m.after sink n).1.memory = m.noted sink m.memory n := by
  induction n with
  | zero => rfl
  | succ n ih =>
    rw [noted, ← ih]
    exact memory_cycle _ _

/-- An address holds the value that was pushed to it last, whatever else the memory holds, or what
it held at the beginning if nothing was pushed to it. -/
theorem read_noted (m : Machine) (sink : σ) (n : Nat) (x : Address) :
    (∃ k, LastBefore (m.PushesAt sink x) n k ∧ ∀ memory,
      ((m.noted sink memory n).read x).toNat = (m.after sink k).1.operandNumbers.1) ∨
    (∀ k < n, ¬ m.PushesAt sink x k) ∧ ∀ memory,
      (m.noted sink memory n).read x = memory.read x := by
  have hkeep : ∀ memory k, ¬ m.PushesAt sink x k →
      (m.noted sink memory (k + 1)).read x = (m.noted sink memory k).read x :=
    fun memory k hk => read_note_of_not hk _
  rcases forall_not_or_exists_lastBefore (m.PushesAt sink x) n with hnone | ⟨k, hlast⟩
  · refine .inr ⟨hnone, fun memory => ?_⟩
    exact eq_of_forall_not (f := fun j => (m.noted sink memory j).read x) (hkeep memory)
      (Nat.zero_le n) fun j _ => hnone j
  · refine .inl ⟨k, hlast, fun memory => ?_⟩
    rw [hlast.eq (f := fun j => (m.noted sink memory j).read x) (hkeep memory)]
    exact read_note_of_pushesTo hlast.1.2 _

theorem state_after_eq_halted_iff (n : Nat) : (m.after sink n).1.state = .halted ↔
    m.state = .halted ∨ ∃ k < n, (m.after sink k).1.opcodeByte = Opcode.hlt.byte := by
  induction n with
  | zero => simp [after]
  | succ n ih =>
    have hcycle : (m.after sink (n + 1)).1.state = .halted ↔
        (m.after sink n).1.state = .halted ∨
          (m.after sink n).1.opcodeByte = Opcode.hlt.byte := state_cycle_eq_halted_iff
    rw [hcycle, ih, or_assoc]
    refine or_congr_right ?_
    simp only [Nat.lt_succ_iff_lt_or_eq, or_and_right, exists_or, exists_eq_left]

/-- **The frame law.**  After a number of cycles, failed ones among them, every address holds the
value of the last push that went to it, or what it held at the beginning if there was none.  A
register changes only in a cycle that completes an instruction which stores to it, or moves it as
the stack pointer; flags change only in a cycle that completes a comparison.  The machine is
halted if it was at the beginning or if `HLT` was fetched, and it stays halted.  Bytes that no
push hits are never altered. -/
theorem run_frame (m : Machine) (sink : σ) (n : Nat) :
    let now := fun k => (m.after sink k).1
    (∀ x, (∃ k, LastBefore (m.PushesAt sink x) n k ∧
          ((now n).memory.read x).toNat = (now k).operandNumbers.1) ∨
        (∀ k < n, ¬ m.PushesAt sink x k) ∧ (now n).memory.read x = m.memory.read x) ∧
      (∀ k r, (now (k + 1)).registers.get r ≠ (now k).registers.get r →
        ∃ o, m.CompletesAt sink o k ∧ o.Changes (now k).operandBytes.1 r) ∧
      (∀ k, (now (k + 1)).flags ≠ (now k).flags → m.CompletesAt sink .cmp k) ∧
      ((now n).state = .halted ↔
        m.state = .halted ∨ ∃ k < n, (now k).opcodeByte = Opcode.hlt.byte) ∧
      (∀ k ≤ n, (now k).state = .halted → (now n).state = .halted) ∧
      ∀ p bs, m.memory.Holds p bs →
        (∀ k < n, ∀ i < bs.length, ¬ m.PushesAt sink (p + UInt8.ofNat i) k) →
        (now n).memory.Holds p bs := by
  intro now
  have hmemory : (now n).memory = m.noted sink m.memory n := m.memory_after sink n
  refine ⟨fun x => ?_, fun k r hne => ?_, fun k hne => ?_, state_after_eq_halted_iff n,
    fun k hkn hk => ?_, fun p bs hheld hspared i hi => ?_⟩
  · rw [hmemory]
    rcases m.read_noted sink n x with ⟨k, hlast, hread⟩ | ⟨hnone, hread⟩
    · exact .inl ⟨k, hlast, hread m.memory⟩
    · exact .inr ⟨hnone, hread m.memory⟩
  · by_contra hnot
    exact hne (get_cycle_of_forall_not fun o ho hchanges => hnot ⟨o, ho, hchanges⟩)
  · by_contra hnot
    exact hne (flags_cycle_of_not hnot)
  · rw [state_after_eq_halted_iff] at hk ⊢
    refine hk.imp_right ?_
    rintro ⟨j, hj, hop⟩
    exact ⟨j, Nat.lt_of_lt_of_le hj hkn, hop⟩
  · rw [hmemory]
    rcases m.read_noted sink n (p + UInt8.ofNat i) with ⟨k, hlast, -⟩ | ⟨-, hread⟩
    · exact absurd hlast.1.2 (hspared k hlast.1.1 i hi)
    · exact (hread m.memory).trans (hheld i hi)

/-- `LDI R0 1` and `PUSH R0`, and the stack right behind them: the byte pushed is fetched next. -/
def pushOverCode : Machine :=
  { new (Memory.zero.writeAll 0 [0x82, 0x00, 0x01, 0x45, 0x00]) with
    registers := Registers.initial.setSp 6 }

theorem run_frame_pushOverCode :
    let now := fun k => (pushOverCode.after (#[] : Array Byte) k).1
    (∃ k, LastBefore (pushOverCode.PushesAt (#[] : Array Byte) 5) 3 k ∧
        ((now 3).memory.read 5).toNat = (now k).operandNumbers.1) ∧
      (now 3).state = .halted ∧ (now 3).memory.Holds 0 [0x82, 0x00, 0x01, 0x45, 0x00] := by
  intro now
  obtain ⟨hmemory, -, -, hstate, -, hheld⟩ := run_frame pushOverCode (#[] : Array Byte) 3
  have hpush : pushOverCode.PushesAt (#[] : Array Byte) 5 1 := pushesTo_iff.2 ⟨0, 1, rfl⟩
  refine ⟨(hmemory 5).resolve_right fun h => h.1 1 (by decide) hpush,
    hstate.2 (.inr ⟨2, by decide, rfl⟩), hheld 0 _ (Memory.holds_writeAll _ 0 (by decide)) ?_⟩
  intro k hk i hi hpushes
  obtain ⟨r, v, hout⟩ := pushesTo_iff.1 hpushes
  obtain rfl | rfl | rfl : k = 0 ∨ k = 1 ∨ k = 2 := by omega
  · cases hout
  · -- The push goes right behind the five bytes.
    have hfive : (5 : Address) = 0 + UInt8.ofNat i := hpushes.2
    have hi' := congrArg UInt8.toNat hfive
    rw [UInt8.zero_add, UInt8.toNat_ofNat'] at hi'
    have hlt : i < 5 := hi
    have htoNat : (5 : Address).toNat = 5 := rfl
    omega
  · cases hout

end Machine

end ByteMachine
