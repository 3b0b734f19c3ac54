/-
The reference of the instruction set.

The reference tells, for each of the thirteen opcodes, what a cycle leaves in every part of
the machine.  It is written over the operand bytes as they were fetched and in natural
numbers, where the wrap at 256 is an explicit remainder:

* `Reference.pcAfter`, `registerAfter`, `memoryAfter`, `flagsAfter`, `stateAfter` — the parts
  one by one, with what an instruction leaves alone;
* `Prescribed` — a machine and a sink that agree with the reference in every part;
* `Prescribed.unique` — there is at most one such machine and sink;
* `cycle_follows_reference` — a cycle that succeeds leaves exactly them.

A conditional jump, an operation on one register twice, or R7 as an operand beside its role
as the stack pointer are not special here: the reference reads every value before the cycle.
-/
import ByteMachine.Proofs.Step

namespace ByteMachine

/-- The number in the register that an operand byte names; 0 if there is no such register. -/
def Machine.number (m : Machine) (operand : Byte) : Nat :=
  match Register.ofByte? operand with
  | some r => (m.registers.get r).toNat
  | none => 0

@[simp] theorem Machine.number_byte (m : Machine) (r : Register) :
    m.number r.byte = (m.registers.get r).toNat := by
  have h : Register.ofByte? r.byte = some r := by simp [Register.ofByte?_eq_some_iff]
  rw [number, h]

/-- The operand bytes of an opcode that have to name registers. -/
def Opcode.registerOperands (o : Opcode) (a b : Byte) : List Byte :=
  match o with
  | hlt => []
  | ldi | prn | push | pop | jmp | jeq | jne => [a]
  | add | mul | div | cmp | and => [a, b]

namespace Reference

variable (m : Machine) (o : Opcode) (a b : Byte)

def pcAfter : Nat :=
  let next := (m.pc.toNat + 1 + o.byte.toNat >>> 6) % 256
  match o with
  | .jmp => m.number a
  | .jeq => if m.flags.equal then m.number a else next
  | .jne => if m.flags.equal then next else m.number a
  | _ => next

/-- The stack pointer one address lower. -/
def lowered : Nat := (m.number 7 + 255) % 256

def registerAfter (k : Register) : Nat :=
  let old := (m.registers.get k).toNat
  match o with
  | .ldi => if k.val = a.toNat then b.toNat else old
  | .add => if k.val = a.toNat then (m.number a + m.number b) % 256 else old
  | .mul => if k.val = a.toNat then m.number a * m.number b % 256 else old
  | .div => if k.val = a.toNat then m.number a / m.number b else old
  | .and => if k.val = a.toNat then m.number a &&& m.number b else old
  | .push => if k.val = 7 then lowered m else old
  | .pop =>
    let v := (m.memory.read (m.registers.get .stackPointer)).toNat
    if k.val = 7 then ((if a.toNat = 7 then v else m.number 7) + 1) % 256
    else if k.val = a.toNat then v else old
  | .hlt | .prn | .cmp | .jmp | .jeq | .jne => old

def memoryAfter (x : Address) : Nat :=
  if o = .push ∧ x.toNat = lowered m then m.number a else (m.memory.read x).toNat

def flagsAfter : Nat :=
  if o = .cmp then
    if m.number a < m.number b then 0b100
    else if m.number b < m.number a then 0b010
    else 0b001
  else m.flags.bits.toNat

def stateAfter : RunState := if o = .hlt then .halted else m.state

end Reference

open Reference

variable {σ : Type} [Sink σ]

/-- A machine and a sink that are, in every part, what the reference makes of a machine whose
program counter is at an opcode with two operand bytes behind it. -/
structure Prescribed (m : Machine) (sink : σ) (o : Opcode) (a b : Byte) (n : Machine)
    (out : σ) : Prop where
  fetched : n.fetched = m.pc
  pc : n.pc.toNat = pcAfter m o a
  register : ∀ k, (n.registers.get k).toNat = registerAfter m o a b k
  memory : ∀ x, (n.memory.read x).toNat = memoryAfter m o a x
  flags : n.flags.bits.toNat = flagsAfter m o a b
  state : n.state = stateAfter m o
  sink : if o = .prn then Sink.emit sink (UInt8.ofNat (m.number a)) = (out, none) else out = sink

theorem Flags.bits_inj {f g : Flags} (h : f.bits = g.bits) : f = g := by
  have := Flags.ofBits?_bits f
  rw [h, Flags.ofBits?_bits] at this
  exact (Option.some.inj this).symm

/-- The reference leaves nothing open. -/
theorem Prescribed.unique {m : Machine} {sink : σ} {o : Opcode} {a b : Byte} {n n' : Machine}
    {out out' : σ} (h : Prescribed m sink o a b n out) (h' : Prescribed m sink o a b n' out') :
    n = n' ∧ out = out' := by
  constructor
  · have hmemory : n.memory = n'.memory := Memory.ext_read fun x =>
      UInt8.toNat_inj.1 ((h.memory x).trans (h'.memory x).symm)
    have hregisters : n.registers = n'.registers := Registers.ext_get fun k =>
      UInt8.toNat_inj.1 ((h.register k).trans (h'.register k).symm)
    have hflags : n.flags = n'.flags :=
      Flags.bits_inj (UInt8.toNat_inj.1 (h.flags.trans h'.flags.symm))
    have hpc : n.pc = n'.pc := UInt8.toNat_inj.1 (h.pc.trans h'.pc.symm)
    have hstate : n.state = n'.state := h.state.trans h'.state.symm
    have hfetched : n.fetched = n'.fetched := h.fetched.trans h'.fetched.symm
    -- These are all the parts that a machine has.
    cases n
    cases n'
    simp_all
  · have hs := h.sink
    have hs' := h'.sink
    by_cases ho : o = .prn
    · rw [if_pos ho] at hs hs'
      rw [hs] at hs'
      exact congrArg Prod.fst hs'
    · rw [if_neg ho] at hs hs'
      rw [hs, hs']

namespace Machine

theorem number_seven (m : Machine) : m.number 7 = m.registers.sp.toNat :=
  m.number_byte .stackPointer

theorem toNat_sp_sub_one (m : Machine) : (m.registers.sp - 1).toNat = lowered m := by
  rw [lowered, number_seven, UInt8.toNat_sub]
  simp
  omega

end Machine

namespace Reference

/-- An instruction that stores a value in a register, and nothing else. -/
theorem toNat_get_set {rs : Registers} {r k : Register} {v : Byte} {n : Nat} (hv : v.toNat = n) :
    ((rs.set r v).get k).toNat = if k.val = r.byte.toNat then n else (rs.get k).toNat := by
  rw [Registers.get_set, Register.toNat_byte]
  by_cases hk : r = k
  · rw [if_pos hk, if_pos (by rw [hk]), hv]
  · rw [if_neg hk, if_neg (fun h => hk (Fin.ext h.symm))]

theorem registerAfter_compute {m : Machine} {f : Arith} {r s : Register} {v : Byte}
    (hv : f.eval? (m.registers.get r) (m.registers.get s) = some v) (k : Register) :
    ((m.registers.set r v).get k).toNat = registerAfter m f.opcode r.byte s.byte k := by
  cases f with
  | add =>
    obtain rfl := Option.some.inj hv
    exact toNat_get_set (by simp [UInt8.toNat_add])
  | mul =>
    obtain rfl := Option.some.inj hv
    exact toNat_get_set (by simp [UInt8.toNat_mul])
  | div =>
    simp only [Arith.eval?] at hv
    split at hv
    · cases hv
    · obtain rfl := Option.some.inj hv
      exact toNat_get_set (by simp [UInt8.toNat_div])
  | and =>
    obtain rfl := Option.some.inj hv
    exact toNat_get_set (by simp [UInt8.toNat_and])

theorem registerAfter_pop (m : Machine) (r k : Register) (b : Byte) :
    (((m.registers.set r (m.memory.read m.registers.sp)).setSp
      ((m.registers.set r (m.memory.read m.registers.sp)).sp + 1)).get k).toNat =
      registerAfter m .pop r.byte b k := by
  have hraised : ((m.registers.set r (m.memory.read m.registers.sp)).sp + 1).toNat =
      ((if r.byte.toNat = 7 then (m.memory.read m.registers.sp).toNat else m.number 7) + 1)
        % 256 := by
    rw [UInt8.toNat_add, Machine.number_seven]
    show (((m.registers.set r _).get .stackPointer).toNat + 1) % 256 = _
    rw [toNat_get_set rfl]
    show ((if 7 = r.byte.toNat then _ else _) + 1) % 256 = _
    by_cases h : r.byte.toNat = 7
    · rw [if_pos h, if_pos h.symm]
    · rw [if_neg h, if_neg (Ne.symm h)]
      rfl
  -- The write to R7 comes second, so that it prevails if R7 is the target.
  show (((m.registers.set r _).set .stackPointer _).get k).toNat = _
  rw [toNat_get_set hraised, toNat_get_set rfl]
  rfl

theorem memoryAfter_push (m : Machine) (r : Register) (x : Address) :
    ((m.memory.write (m.registers.sp - 1) (m.registers.get r)).read x).toNat =
      memoryAfter m .push r.byte x := by
  rw [Memory.read_write, memoryAfter, m.number_byte]
  by_cases hx : m.registers.sp - 1 = x
  · rw [if_pos hx, if_pos ⟨rfl, hx ▸ m.toNat_sp_sub_one⟩]
  · rw [if_neg hx, if_neg]
    rintro ⟨-, h⟩
    exact hx (UInt8.toNat_inj.1 (m.toNat_sp_sub_one.trans h.symm))

theorem flagsAfter_compare (m : Machine) (r s : Register) :
    (Flags.compare (m.registers.get r) (m.registers.get s)).bits.toNat =
      flagsAfter m .cmp r.byte s.byte := by
  have hbits : ∀ x y : Byte, (Flags.compare x y).bits.toNat =
      if x.toNat < y.toNat then 4 else if y.toNat < x.toNat then 2 else 1 := by
    intro x y
    simp only [Flags.compare, Flags.bits, UInt8.lt_iff_toNat_lt, ← UInt8.toNat_inj]
    rcases Nat.lt_trichotomy x.toNat y.toNat with h | h | h
    · simp [h, Nat.lt_asymm h, Nat.ne_of_lt h]
    · simp [h]
    · simp [h, Nat.lt_asymm h, Nat.ne_of_gt h]
  rw [hbits, flagsAfter, if_pos rfl, m.number_byte, m.number_byte]

theorem pcAfter_jump (m : Machine) (c : Condition) (r : Register) {next : Address}
    (hnext : next.toNat = (m.pc.toNat + 1 + c.opcode.byte.toNat >>> 6) % 256) :
    (if c.holds m.flags then m.registers.get r else next).toNat =
      pcAfter m c.opcode r.byte := by
  cases c with
  | always => exact (m.number_byte r).symm
  | equal =>
    show _ = if m.flags.equal then m.number r.byte else _
    cases hf : m.flags.equal <;> simp [Condition.holds, hf, hnext]
  | notEqual =>
    show _ = if m.flags.equal then _ else m.number r.byte
    cases hf : m.flags.equal <;> simp [Condition.holds, hf, hnext]

end Reference

theorem prescribed_perform {m : Machine} {sink : σ} {i : Instruction} {a b : Byte} {e : Effect}
    (hop : i.opcode.byte = m.opcodeByte) (hab : i.operands <+: [a, b])
    (h : (m.advance.perform sink i).outcome = .ok e) :
    Prescribed m sink i.opcode a b (m.advance.perform sink i).machine
      (m.advance.perform sink i).sink := by
  have hpc := m.toNat_pc_advance
  rw [← hop] at hpc
  -- What an instruction leaves alone is the same by definition, and named lemmas do the rest.
  cases i with
  | halt => exact ⟨rfl, hpc, fun k => rfl, fun x => rfl, rfl, rfl, rfl⟩
  | load r v =>
    obtain ⟨rfl, rfl⟩ : r.byte = a ∧ v = b := by simpa [Instruction.operands] using hab
    exact ⟨rfl, hpc, fun k => toNat_get_set rfl, fun x => rfl, rfl, rfl, rfl⟩
  | print r =>
    obtain rfl : r.byte = a := by simpa [Instruction.operands] using hab
    obtain ⟨hm, hsink⟩ := Machine.perform_print_ok h
    rw [hm]
    refine ⟨rfl, hpc, fun k => rfl, fun x => rfl, rfl, rfl, ?_⟩
    show Sink.emit sink (UInt8.ofNat (m.number r.byte)) = _
    rw [Machine.number_byte, UInt8.ofNat_toNat]
    exact hsink
  | push r =>
    obtain rfl : r.byte = a := by simpa [Instruction.operands] using hab
    refine ⟨rfl, hpc, fun k => ?_, fun x => ?_, rfl, rfl, rfl⟩
    · exact toNat_get_set m.toNat_sp_sub_one
    · exact memoryAfter_push m r x
  | pop r =>
    obtain rfl : r.byte = a := by simpa [Instruction.operands] using hab
    exact ⟨rfl, hpc, fun k => registerAfter_pop m r k b, fun x => rfl, rfl, rfl, rfl⟩
  | jump c r =>
    obtain rfl : r.byte = a := by simpa [Instruction.operands] using hab
    have hjump := pcAfter_jump m c r hpc
    have hmachine : (m.advance.perform sink (.jump c r)).machine = { m.advance with
        pc := if c.holds m.flags then m.registers.get r else m.advance.pc } := by
      show (if c.holds m.flags then _ else m.advance) = _
      split <;> rfl
    rw [hmachine]
    cases c <;> exact ⟨rfl, hjump, fun k => rfl, fun x => rfl, rfl, rfl, rfl⟩
  | compute f r s =>
    obtain ⟨rfl, rfl⟩ : r.byte = a ∧ s.byte = b := by simpa [Instruction.operands] using hab
    obtain ⟨v, hv, hm, hs⟩ := Machine.perform_compute_ok h
    have hregister := registerAfter_compute hv
    rw [hm, hs]
    cases f <;> exact ⟨rfl, hpc, hregister, fun x => rfl, rfl, rfl, rfl⟩
  | compare r s =>
    obtain ⟨rfl, rfl⟩ : r.byte = a ∧ s.byte = b := by simpa [Instruction.operands] using hab
    exact ⟨rfl, hpc, fun k => rfl, fun x => rfl, flagsAfter_compare m r s, rfl, rfl⟩

theorem Register.toNat_byte_lt (r : Register) : r.byte.toNat < 8 := by
  rw [Register.toNat_byte]
  exact r.isLt

theorem Instruction.toNat_registerOperands_lt {i : Instruction} {a b : Byte}
    (hab : i.operands <+: [a, b]) : ∀ x ∈ i.opcode.registerOperands a b, x.toNat < 8 := by
  have one : ∀ r : Register, ∀ x ∈ [r.byte], x.toNat < 8 := by
    intro r x hx
    obtain rfl := List.mem_singleton.1 hx
    exact r.toNat_byte_lt
  have two : ∀ r s : Register, ∀ x ∈ [r.byte, s.byte], x.toNat < 8 := by
    intro r s x hx
    rcases List.mem_cons.1 hx with rfl | hx
    · exact r.toNat_byte_lt
    · exact one s x hx
  cases i with
  | halt => exact fun x hx => absurd hx List.not_mem_nil
  | compute f r s =>
    obtain ⟨rfl, rfl⟩ : r.byte = a ∧ s.byte = b := by simpa [operands] using hab
    cases f <;> exact two r s
  | compare r s =>
    obtain ⟨rfl, rfl⟩ : r.byte = a ∧ s.byte = b := by simpa [operands] using hab
    exact two r s
  | jump c r =>
    obtain rfl : r.byte = a := by simpa [operands] using hab
    cases c <;> exact one r
  | load r v =>
    obtain ⟨rfl, rfl⟩ : r.byte = a ∧ v = b := by simpa [operands] using hab
    exact one r
  | print r | push r | pop r =>
    obtain rfl : r.byte = a := by simpa [operands] using hab
    exact one r

/-- **One cycle against the reference.**  A cycle that succeeds has fetched one of the thirteen
opcodes with operands that name registers, and it leaves the machine and the sink that the
reference prescribes for the three bytes at the program counter, and no others. -/
theorem cycle_follows_reference {m : Machine} {sink : σ} {e : Effect}
    (h : (m.cycle sink).outcome = .ok e) :
    let op := m.memory.read m.pc
    let a := m.memory.read (m.pc + 1)
    let b := m.memory.read (m.pc + 2)
    ∃ o : Opcode, o.byte = op ∧ (∀ x ∈ o.registerOperands a b, x.toNat < 8) ∧
      ∀ n out, Prescribed m sink o a b n out ↔
        n = (m.cycle sink).machine ∧ out = (m.cycle sink).sink := by
  intro op a b
  obtain ⟨i, hi, hcycle⟩ := Machine.cycle_ok h
  rw [hcycle] at h ⊢
  obtain ⟨hop, hab⟩ := List.cons_prefix_cons.1 hi
  have hprescribed := prescribed_perform hop hab h
  refine ⟨i.opcode, hop, Instruction.toNat_registerOperands_lt hab, fun n out => ?_⟩
  constructor
  · intro hn
    exact hn.unique hprescribed
  · rintro ⟨rfl, rfl⟩
    exact hprescribed

/-- `POP R7` at the last address and address 0, with 255 on top of the stack. -/
def Reference.popAtEnd : Machine :=
  { Machine.new ((Memory.zero.writeAll 0xFF [0x46, 0x07]).write 0xF4 0xFF) with pc := 0xFF }

theorem cycle_follows_reference_popAtEnd :
    let step := popAtEnd.cycle (#[] : Array Byte)
    step.outcome = .ok (.popped 7 0xFF 0xF4) ∧
      ∃ o : Opcode, o.byte = 0x46 ∧ (∀ x ∈ o.registerOperands 7 0, x.toNat < 8) ∧
        ∀ n out, Prescribed popAtEnd #[] o 7 0 n out ↔ n = step.machine ∧ out = step.sink := by
  have h : (popAtEnd.cycle (#[] : Array Byte)).outcome = .ok (.popped 7 0xFF 0xF4) := rfl
  exact ⟨h, cycle_follows_reference h⟩

end ByteMachine
