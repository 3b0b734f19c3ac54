/-
The cause of every failure.

Whether a cycle fails, and with which cause, is told by the opcode byte, the two bytes behind
it, the registers and the sink:

* `FailsWith` — the four causes, each with its condition;
* `Instruction.ofControl_eq_error_iff`, `Instruction.ofArithmetic_eq_error_iff` — what each
  unit refuses to read, and which of two faults it reports;
* `Machine.perform_error_iff` — an instruction that was read fails only if it prints to a sink
  that refuses the value, or divides by zero;
* `Machine.call_error_iff`, `Machine.cycle_error_iff` — a call and a cycle fail exactly with the
  cause that is told;
* `Machine.failures_classified` — the whole classification, together with what the units do
  when they are given an instruction of the other one.
-/
import ByteMachine.Proofs.Calls
import ByteMachine.Proofs.Reference

namespace ByteMachine

/-- The first of some operand bytes that names no register. -/
def Register.firstInvalid? (operands : List Byte) : Option Byte :=
  operands.find? fun x => 8 ≤ x.toNat

namespace Register

theorem of_firstInvalid?_eq_some {operands : List Byte} {x : Byte}
    (h : firstInvalid? operands = some x) : x ∈ operands ∧ 8 ≤ x.toNat :=
  ⟨List.mem_of_find?_eq_some h, by simpa using List.find?_some h⟩

theorem firstInvalid?_eq_none_iff {operands : List Byte} :
    firstInvalid? operands = none ↔ ∀ x ∈ operands, x.toNat < 8 := by
  simp [firstInvalid?]

theorem firstInvalid?_cons_of_lt {a : Byte} (h : a.toNat < 8) (operands : List Byte) :
    firstInvalid? (a :: operands) = firstInvalid? operands := by
  simp [firstInvalid?, h]

theorem firstInvalid?_cons_of_ge {a : Byte} (h : 8 ≤ a.toNat) (operands : List Byte) :
    firstInvalid? (a :: operands) = some a := by
  simp [firstInvalid?, h]

end Register

open Register (firstInvalid?)

variable {σ : Type} [Sink σ]

/-- The cause that an opcode byte and the two bytes behind it fail with. -/
inductive FailsWith (m : Machine) (sink : σ) (op a b : Byte) : Cause → Prop
  /-- The byte is that of no opcode. -/
  | unknown (hop : ∀ o : Opcode, o.byte ≠ op) :
      FailsWith m sink op a b (.unsupportedOperation op)
  | operand {o : Opcode} {x : Byte} (hop : o.byte = op)
      (hx : firstInvalid? (o.registerOperands a b) = some x) :
      FailsWith m sink op a b (.invalidRegister x)
  | division (hop : Opcode.div.byte = op) (ha : a.toNat < 8) (hb : b.toNat < 8)
      (hzero : m.number b = 0) : FailsWith m sink op a b .divisionByZero
  | refusal {error : IoError} (hop : Opcode.prn.byte = op) (ha : a.toNat < 8)
      (hemit : (Sink.emit sink (UInt8.ofNat (m.number a))).2 = some error) :
      FailsWith m sink op a b (.output error)

/-- The cause depends on the registers, and not on the rest of the machine. -/
theorem FailsWith.of_registers_eq {m n : Machine} {sink : σ} {op a b : Byte} {c : Cause}
    (h : m.registers = n.registers) (hfail : FailsWith m sink op a b c) :
    FailsWith n sink op a b c := by
  have hnumber : ∀ x, m.number x = n.number x := fun x => by
    rw [Machine.number, Machine.number, h]
  cases hfail with
  | unknown hop => exact .unknown hop
  | operand hop hx => exact .operand hop hx
  | division hop ha hb hzero => exact .division hop ha hb ((hnumber b).symm.trans hzero)
  | refusal hop ha hemit =>
    rw [hnumber] at hemit
    exact .refusal hop ha hemit

/-- The opcodes of the arithmetic unit. -/
def Opcode.arithmetic : List Opcode := [add, mul, div, cmp, and]

/-- With operands that name registers, only a division and a print can fail. -/
theorem failsWith_iff_of_valid {m : Machine} {sink : σ} {o : Opcode} {a b : Byte} {c : Cause}
    (h : firstInvalid? (o.registerOperands a b) = none) :
    FailsWith m sink o.byte a b c ↔
      o = .div ∧ m.number b = 0 ∧ c = .divisionByZero ∨
        o = .prn ∧ ∃ error, (Sink.emit sink (UInt8.ofNat (m.number a))).2 = some error ∧
          c = .output error := by
  constructor
  · intro hfail
    cases hfail with
    | unknown hop => exact absurd rfl (hop o)
    | operand hop hx =>
      obtain rfl := Opcode.byte_inj.1 hop
      rw [h] at hx
      cases hx
    | division hop ha hb hzero => exact .inl ⟨(Opcode.byte_inj.1 hop).symm, hzero, rfl⟩
    | refusal hop ha hemit => exact .inr ⟨(Opcode.byte_inj.1 hop).symm, _, hemit, rfl⟩
  · rw [Register.firstInvalid?_eq_none_iff] at h
    rintro (⟨rfl, hzero, rfl⟩ | ⟨rfl, error, hemit, rfl⟩)
    · exact .division rfl (h a (by simp [Opcode.registerOperands]))
        (h b (by simp [Opcode.registerOperands])) hzero
    · exact .refusal rfl (h a (by simp [Opcode.registerOperands])) hemit

/-- An operand that names no register is reported before anything else. -/
theorem failsWith_iff_of_invalid {m : Machine} {sink : σ} {o : Opcode} {a b x : Byte} {c : Cause}
    (h : firstInvalid? (o.registerOperands a b) = some x) :
    FailsWith m sink o.byte a b c ↔ c = .invalidRegister x := by
  obtain ⟨hmem, hge⟩ := Register.of_firstInvalid?_eq_some h
  constructor
  · intro hfail
    cases hfail with
    | unknown hop => exact absurd rfl (hop o)
    | operand hop hx =>
      obtain rfl := Opcode.byte_inj.1 hop
      rw [Option.some.inj (hx.symm.trans h)]
    | division hop ha hb hzero =>
      obtain rfl := Opcode.byte_inj.1 hop
      -- The operand would be one of the two that name registers.
      rcases List.mem_cons.1 hmem with rfl | hmem
      · omega
      · obtain rfl := List.mem_singleton.1 hmem
        omega
    | refusal hop ha hemit =>
      obtain rfl := Opcode.byte_inj.1 hop
      obtain rfl := List.mem_singleton.1 hmem
      omega
  · rintro rfl
    exact .operand rfl h

theorem failsWith_iff_of_unknown {m : Machine} {sink : σ} {op a b : Byte} {c : Cause}
    (h : ∀ o : Opcode, o.byte ≠ op) :
    FailsWith m sink op a b c ↔ c = .unsupportedOperation op := by
  constructor
  · intro hfail
    cases hfail with
    | unknown hop => rfl
    | operand hop _ | division hop _ _ _ | refusal hop _ _ => exact absurd hop (h _)
  · rintro rfl
    exact .unknown h

namespace Instruction

theorem register_eq_error_iff {operand : Byte} {c : Cause} :
    register operand = .error c ↔ 8 ≤ operand.toNat ∧ c = .invalidRegister operand := by
  unfold register Register.ofByte?
  by_cases h : operand.toNat < 8
  · have hge : ¬ 8 ≤ operand.toNat := by omega
    simp [h, hge]
  · have hge : 8 ≤ operand.toNat := by omega
    simp [h, hge, eq_comm]

theorem map_register_eq_error_iff {f : Register → Instruction} {a : Byte} {c : Cause} :
    (register a).map f = .error c ↔ ∃ x, firstInvalid? [a] = some x ∧ c = .invalidRegister x := by
  have hmap : (register a).map f = .error c ↔ register a = .error c := by
    cases register a <;> simp [Except.map]
  rw [hmap, register_eq_error_iff]
  by_cases h : 8 ≤ a.toNat
  · simp [Register.firstInvalid?_cons_of_ge h, h]
  · simp [firstInvalid?, h]

/-- The control unit refuses the opcodes of the other unit whatever the operands are. -/
theorem ofControl_eq_error_iff {o : Opcode} {a b : Byte} {c : Cause} :
    ofControl o a b = .error c ↔
      if isArithmetic o.byte then c = .unsupportedOperation o.byte
      else ∃ x, firstInvalid? (o.registerOperands a b) = some x ∧ c = .invalidRegister x := by
  cases o
  case hlt =>
    show Except.ok _ = Except.error c ↔ ∃ x, none = some x ∧ _
    simp
  case add | mul | div | cmp | and =>
    show Except.error _ = Except.error c ↔ c = _
    rw [Except.error.injEq, eq_comm]
  all_goals exact map_register_eq_error_iff

theorem isSome_arithmetic? (o : Opcode) (r s : Register) :
    (arithmetic? o r s).isSome = isArithmetic o.byte := by
  cases o <;> rfl

/-- The arithmetic unit looks at the two operands before it refuses an opcode. -/
theorem ofArithmetic_eq_error_iff {o : Opcode} {a b : Byte} {c : Cause} :
    ofArithmetic o a b = .error c ↔
      match firstInvalid? [a, b] with
      | some x => c = .invalidRegister x
      | none => isArithmetic o.byte = false ∧ c = .unsupportedOperation o.byte := by
  cases ha : register a with
  | error d =>
    obtain ⟨hge, rfl⟩ := register_eq_error_iff.1 ha
    rw [Register.firstInvalid?_cons_of_ge hge]
    simp [ofArithmetic, ha, bind, Except.bind, eq_comm]
  | ok r =>
    have hlt : a.toNat < 8 := register_eq_ok_iff.1 ha ▸ r.isLt
    rw [Register.firstInvalid?_cons_of_lt hlt]
    cases hb : register b with
    | error d =>
      obtain ⟨hge, rfl⟩ := register_eq_error_iff.1 hb
      rw [Register.firstInvalid?_cons_of_ge hge]
      simp [ofArithmetic, ha, hb, bind, Except.bind, eq_comm]
    | ok s =>
      have hlt' : b.toNat < 8 := register_eq_ok_iff.1 hb ▸ s.isLt
      rw [Register.firstInvalid?_cons_of_lt hlt']
      show _ ↔ isArithmetic o.byte = false ∧ _
      rw [← isSome_arithmetic? o r s]
      cases hi : arithmetic? o r s with
      | none => simp [ofArithmetic, ha, hb, hi, bind, Except.bind, eq_comm]
      | some i => simp [ofArithmetic, ha, hb, hi, bind, Except.bind]

end Instruction

theorem Call.read_eq_error_iff {c : Call} {cause : Cause} :
    c.read = .error cause ↔ ∃ x,
      firstInvalid? (c.opcode.registerOperands c.first c.second) = some x ∧
        cause = .invalidRegister x := by
  unfold read
  by_cases hunit : isArithmetic c.opcode.byte = true
  · rw [if_pos hunit, Instruction.ofArithmetic_eq_error_iff]
    have hoperands : c.opcode.registerOperands c.first c.second = [c.first, c.second] := by
      have hmem := (Opcode.isArithmetic_byte c.opcode).1 hunit
      generalize c.opcode = o at hmem
      cases o <;> first | rfl | simp at hmem
    rw [hoperands]
    cases firstInvalid? [c.first, c.second] with
    | none => simp [hunit]
    | some x => simp
  · rw [if_neg hunit, Instruction.ofControl_eq_error_iff, if_neg hunit]

namespace Machine

variable {m : Machine} {sink : σ}

omit [Sink σ] in
theorem fail_error_iff {c : Cause} {f : Fault} :
    (m.fail sink c).outcome = .error f ↔ f.cause = c ∧ f.address = m.fetched := by
  cases f
  simp [fail, eq_comm]

/-- An instruction that was read fails only if the sink refuses the value that it prints, or if
it divides by zero. -/
theorem perform_error_iff {i : Instruction} {a b : Byte} {f : Fault}
    (hab : i.operands <+: [a, b]) :
    (m.perform sink i).outcome = .error f ↔
      FailsWith m sink i.opcode.byte a b f.cause ∧ f.address = m.fetched := by
  have hvalid := Register.firstInvalid?_eq_none_iff.2 (Instruction.toNat_registerOperands_lt hab)
  rw [failsWith_iff_of_valid hvalid]
  cases i with
  | print r =>
    obtain rfl : r.byte = a := by simpa [Instruction.operands] using hab
    simp only [perform, Instruction.opcode, m.number_byte, UInt8.ofNat_toNat]
    split
    · next he => simp [he]
    · next error he => simp [he, fail_error_iff]
  | compute g r s =>
    obtain ⟨rfl, rfl⟩ : r.byte = a ∧ s.byte = b := by simpa [Instruction.operands] using hab
    cases g with
    | div =>
      by_cases hs : m.registers.get s = 0
      · simp [perform, Instruction.opcode, Arith.opcode, Arith.eval?, hs, fail_error_iff]
      · have hs' : (m.registers.get s).toNat ≠ 0 := fun h => hs (UInt8.toNat_inj.1 h)
        simp [perform, Instruction.opcode, Arith.opcode, Arith.eval?, hs, hs']
    | add | mul | and => simp [perform, Instruction.opcode, Arith.opcode, Arith.eval?]
  | jump c r => cases c <;> simp [perform, Instruction.opcode, Condition.opcode]
  | _ => simp [perform, Instruction.opcode]

/-- A call fails with the cause that its opcode and operand bytes tell. -/
theorem call_error_iff {c : Call} {f : Fault} :
    (m.call sink c).outcome = .error f ↔
      FailsWith m sink c.opcode.byte c.first c.second f.cause ∧ f.address = m.fetched := by
  rw [call_eq_issue]
  cases hread : c.read with
  | error cause =>
    obtain ⟨x, hx, rfl⟩ := Call.read_eq_error_iff.1 hread
    rw [failsWith_iff_of_invalid hx]
    exact fail_error_iff
  | ok i =>
    obtain ⟨hop, hab⟩ := Call.read_eq_ok_iff.1 hread
    rw [← hop]
    exact perform_error_iff hab

/-- A cycle over a known opcode asks the unit that has the instruction. -/
theorem cycle_eq_call_advance {o : Opcode} (h : o.byte = m.opcodeByte) :
    m.cycle sink = m.advance.call sink ⟨o, m.operandBytes.1, m.operandBytes.2⟩ := by
  rw [cycle, ← h, call_eq_issue, ← Call.decode_eq_read]

/-- A cycle fails with the cause that the three bytes at the program counter tell. -/
theorem cycle_error_iff {f : Fault} :
    (m.cycle sink).outcome = .error f ↔
      FailsWith m sink m.opcodeByte m.operandBytes.1 m.operandBytes.2 f.cause ∧
        f.address = m.pc := by
  by_cases h : ∃ o : Opcode, o.byte = m.opcodeByte
  · obtain ⟨o, ho⟩ := h
    rw [cycle_eq_call_advance ho, call_error_iff, ho]
    exact and_congr_left fun _ => ⟨.of_registers_eq rfl, .of_registers_eq rfl⟩
  · have hunknown : ∀ o : Opcode, o.byte ≠ m.opcodeByte := fun o ho => h ⟨o, ho⟩
    have hnone : Opcode.ofByte? m.opcodeByte = none := by
      cases ho : Opcode.ofByte? m.opcodeByte with
      | none => rfl
      | some o => exact absurd (Opcode.ofByte?_eq_some_iff.1 ho) (hunknown o)
    rw [failsWith_iff_of_unknown hunknown, cycle, Instruction.decode, hnone]
    exact fail_error_iff

/-- Of two operands that name no register, the first is reported, also by a division. -/
example : ((new (Memory.zero.writeAll 0 [0xA3, 0x09, 0x08])).cycle (#[] : Array Byte)).outcome =
    .error ⟨.invalidRegister 9, 0⟩ := rfl

/-- A cycle succeeds if there is no cause for it to fail. -/
theorem cycle_ok_iff : (∃ e, (m.cycle sink).outcome = .ok e) ↔
    ∀ c, ¬ FailsWith m sink m.opcodeByte m.operandBytes.1 m.operandBytes.2 c := by
  constructor
  · rintro ⟨e, he⟩ c hc
    have herror : (m.cycle sink).outcome = .error ⟨c, m.pc⟩ := cycle_error_iff.2 ⟨hc, rfl⟩
    rw [he] at herror
    cases herror
  · intro hnone
    cases hout : (m.cycle sink).outcome with
    | ok e => exact ⟨e, rfl⟩
    | error f => exact absurd (cycle_error_iff.1 hout).1 (hnone f.cause)

theorem call_eq_unit (m : Machine) (sink : σ) (o : Opcode) (a b : Byte) :
    m.call sink ⟨o, a, b⟩ =
      if o ∈ Opcode.arithmetic then m.calculate sink o a b else m.control sink o a b := by
  by_cases h : o ∈ Opcode.arithmetic
  · rw [if_pos h]
    exact if_pos ((Opcode.isArithmetic_byte o).2 h)
  · rw [if_neg h]
    exact if_neg (mt (Opcode.isArithmetic_byte o).1 h)

/-- The control unit is not able to compute or compare. -/
theorem control_arithmetic {o : Opcode} (h : o ∈ Opcode.arithmetic) (a b : Byte) :
    (m.control sink o a b).outcome = .error ⟨.unsupportedOperation o.byte, m.fetched⟩ := by
  have hread : Instruction.ofControl o a b = .error (.unsupportedOperation o.byte) := by
    rw [Instruction.ofControl_eq_error_iff, if_pos ((Opcode.isArithmetic_byte o).2 h)]
  rw [control, hread]
  rfl

/-- The arithmetic unit is able to do nothing else, but it says so only if both operands name
registers. -/
theorem calculate_control {o : Opcode} (h : o ∉ Opcode.arithmetic) (a b : Byte) :
    (m.calculate sink o a b).outcome = .error
      ⟨(firstInvalid? [a, b]).elim (.unsupportedOperation o.byte) .invalidRegister,
        m.fetched⟩ := by
  have hunit : isArithmetic o.byte = false :=
    Bool.eq_false_iff.2 (mt (Opcode.isArithmetic_byte o).1 h)
  have hread : Instruction.ofArithmetic o a b =
      .error ((firstInvalid? [a, b]).elim (.unsupportedOperation o.byte) .invalidRegister) := by
    rw [Instruction.ofArithmetic_eq_error_iff]
    cases firstInvalid? [a, b] with
    | none => exact ⟨hunit, rfl⟩
    | some x => rfl
  rw [calculate, hread]
  rfl

/-- **Every failure has the cause that is told beforehand.**  Let `op`, `a` and `b` be the bytes
at the program counter.  A cycle fails exactly with the cause that `FailsWith` tells of them,
placed where `op` was fetched, and it succeeds if there is none; whenever `op` is known, the
unit is asked that has the instruction.  A unit that is given an instruction directly fails in
the same way, placed at the address fetched last; given one that it does not have, the control
unit refuses the opcode at once, and the arithmetic unit after it has looked at both operands. -/
theorem failures_classified (m : Machine) (sink : σ) :
    let op := m.memory.read m.pc
    let a := m.memory.read (m.pc + 1)
    let b := m.memory.read (m.pc + 2)
    (∀ f, (m.cycle sink).outcome = .error f ↔
      FailsWith m sink op a b f.cause ∧ f.address = m.pc) ∧
    ((∃ e, (m.cycle sink).outcome = .ok e) ↔ ∀ c, ¬ FailsWith m sink op a b c) ∧
    (∀ o : Opcode, o.byte = op → m.cycle sink =
      if o ∈ Opcode.arithmetic then m.advance.calculate sink o a b
      else m.advance.control sink o a b) ∧
    (∀ (o : Opcode) (x y : Byte) (f : Fault),
      (if o ∈ Opcode.arithmetic then m.calculate sink o x y
        else m.control sink o x y).outcome = .error f ↔
          FailsWith m sink o.byte x y f.cause ∧ f.address = m.fetched) ∧
    (∀ o ∈ Opcode.arithmetic, ∀ x y, (m.control sink o x y).outcome =
      .error ⟨.unsupportedOperation o.byte, m.fetched⟩) ∧
    ∀ o ∉ Opcode.arithmetic, ∀ x y, (m.calculate sink o x y).outcome = .error
      ⟨(firstInvalid? [x, y]).elim (.unsupportedOperation o.byte) .invalidRegister,
        m.fetched⟩ := by
  intro op a b
  refine ⟨fun f => cycle_error_iff, cycle_ok_iff, fun o ho => ?_, fun o x y f => ?_,
    fun o ho => control_arithmetic ho, fun o ho => calculate_control ho⟩
  · rw [← call_eq_unit]
    exact cycle_eq_call_advance ho
  · rw [← call_eq_unit]
    exact call_error_iff

end Machine

end ByteMachine
