/-
What three fetched bytes say.

An instruction is written as its opcode byte followed by its operand bytes
(`Instruction.bytes`).  Reading is the inverse of writing, and it looks no further than
the instruction reaches:

* `Instruction.decode_eq_ok_iff` — three bytes are read as an instruction exactly when
  they begin with the bytes of that instruction;
* `Instruction.decode_congr` — bytes behind the last operand do not matter, whether the
  opcode byte is known or not;
* `Instruction.decode_error` — what reading can fail with.

The two units split the opcodes between them (`ofControl_eq_ok_iff`,
`ofArithmetic_eq_ok_iff`), so either reader alone is the inverse of writing on its half.
-/
import ByteMachine.Instruction

namespace ByteMachine

/-- The operand byte that names a register. -/
def Register.byte (r : Register) : Byte := UInt8.ofNat r.val

namespace Register

@[simp] theorem toNat_byte (r : Register) : r.byte.toNat = r.val := by
  have := r.isLt
  rw [byte, UInt8.toNat_ofNat']
  omega

@[simp] theorem byte_inj {r s : Register} : r.byte = s.byte ↔ r = s := by
  rw [← UInt8.toNat_inj, toNat_byte, toNat_byte, Fin.ext_iff]

end Register

@[simp] theorem Arith.isArithmetic_opcode (f : Arith) : isArithmetic f.opcode.byte = true := by
  cases f <;> rfl

@[simp] theorem Condition.isArithmetic_opcode (c : Condition) :
    isArithmetic c.opcode.byte = false := by
  cases c <;> rfl

namespace Instruction

def operands : Instruction → List Byte
  | halt => []
  | load r v => [r.byte, v]
  | print r | push r | pop r | jump _ r => [r.byte]
  | compute _ r s | compare r s => [r.byte, s.byte]

/-- An instruction as it stands in memory. -/
def bytes (i : Instruction) : List Byte := i.opcode.byte :: i.operands

theorem register_eq_ok_iff_byte {operand : Byte} {r : Register} :
    register operand = .ok r ↔ operand = r.byte := by
  rw [register_eq_ok_iff, ← UInt8.toNat_inj, Register.toNat_byte]

theorem map_register_eq_ok_iff {f : Register → Instruction} {a : Byte} {i : Instruction} :
    (register a).map f = .ok i ↔ ∃ r, a = r.byte ∧ f r = i := by
  cases h : register a with
  | error c =>
    simp only [Except.map, reduceCtorEq, false_iff, not_exists, not_and]
    intro r hr
    rw [← register_eq_ok_iff_byte, h] at hr
    cases hr
  | ok r =>
    obtain rfl := register_eq_ok_iff_byte.1 h
    simp [Except.map]

theorem ofControl_eq_ok_iff {o : Opcode} {a b : Byte} {i : Instruction} :
    ofControl o a b = .ok i ↔
      isArithmetic o.byte = false ∧ i.opcode = o ∧ i.operands <+: [a, b] := by
  constructor
  · intro h
    have ho := opcode_of_ofControl h
    refine ⟨?_, ho, ?_⟩
    · -- The control unit refuses the opcodes of the other unit.
      cases o <;> first | rfl | cases h
    · cases o <;> simp only [ofControl, map_register_eq_ok_iff, Except.ok.injEq, reduceCtorEq] at h
      case hlt =>
        subst h
        simp [operands]
      all_goals
        obtain ⟨r, rfl, rfl⟩ := h
        simp [operands]
  · rintro ⟨hc, rfl, hp⟩
    cases i with
    | jump c r =>
      cases c <;>
        simp_all [ofControl, operands, opcode, Condition.opcode, map_register_eq_ok_iff]
    | compute f r s => simp [opcode] at hc
    | compare r s =>
      have harith := (Opcode.isArithmetic_byte .cmp).2 (by decide)
      exact absurd harith (Bool.eq_false_iff.1 hc)
    | _ => simp_all [ofControl, operands, opcode, map_register_eq_ok_iff]

/-- Both operand bytes have to name registers before the opcode is looked at. -/
theorem ofArithmetic_eq_ok_iff_arithmetic? {o : Opcode} {a b : Byte} {i : Instruction} :
    ofArithmetic o a b = .ok i ↔
      ∃ r s, a = r.byte ∧ b = s.byte ∧ arithmetic? o r s = some i := by
  constructor
  · intro h
    cases ha : register a with
    | error c => simp [ofArithmetic, ha, bind, Except.bind] at h
    | ok r =>
      cases hb : register b with
      | error c => simp [ofArithmetic, ha, hb, bind, Except.bind] at h
      | ok s =>
        refine ⟨r, s, register_eq_ok_iff_byte.1 ha, register_eq_ok_iff_byte.1 hb, ?_⟩
        simp only [ofArithmetic, ha, hb, bind, Except.bind] at h
        split at h <;> simp_all
  · rintro ⟨r, s, ha, hb, h⟩
    rw [← register_eq_ok_iff_byte] at ha hb
    simp [ofArithmetic, ha, hb, h, bind, Except.bind]

theorem ofArithmetic_eq_ok_iff {o : Opcode} {a b : Byte} {i : Instruction} :
    ofArithmetic o a b = .ok i ↔
      isArithmetic o.byte = true ∧ i.opcode = o ∧ i.operands <+: [a, b] := by
  rw [ofArithmetic_eq_ok_iff_arithmetic?]
  constructor
  · rintro ⟨r, s, rfl, rfl, h⟩
    cases o <;> cases h <;> simp [operands, opcode, Arith.opcode] <;> rfl
  · rintro ⟨hc, rfl, hp⟩
    cases i with
    | compute f r s => cases f <;> simp_all [arithmetic?, operands, opcode, Arith.opcode]
    | compare r s => simp_all [arithmetic?, operands, opcode]
    | jump c r => simp [opcode] at hc
    | _ => simp [opcode, Opcode.isArithmetic_byte] at hc

/-- Three bytes are read as an instruction exactly when they begin with its bytes. -/
theorem decode_eq_ok_iff {op a b : Byte} {i : Instruction} :
    decode op a b = .ok i ↔ i.bytes <+: [op, a, b] := by
  rw [bytes, List.cons_prefix_cons]
  constructor
  · intro h
    refine ⟨opcode_of_decode h, ?_⟩
    unfold decode at h
    split at h
    · cases h
    · split at h
      · exact (ofArithmetic_eq_ok_iff.1 h).2.2
      · exact (ofControl_eq_ok_iff.1 h).2.2
  · rintro ⟨rfl, h⟩
    simp only [decode, Opcode.ofByte?_byte]
    -- The routing bit of the opcode byte asks the unit that knows the instruction.
    by_cases hu : isArithmetic i.opcode.byte = true
    · rw [if_pos hu]
      exact ofArithmetic_eq_ok_iff.2 ⟨hu, rfl, h⟩
    · rw [if_neg hu]
      exact ofControl_eq_ok_iff.2 ⟨Bool.eq_false_iff.2 hu, rfl, h⟩

theorem register_error {operand : Byte} {c : Cause} (h : register operand = .error c) :
    c = .invalidRegister operand := by
  unfold register at h
  split at h
  · cases h
  · exact (Except.error.inj h).symm

theorem ofControl_error {o : Opcode} {a b : Byte} {c : Cause} (h : ofControl o a b = .error c) :
    c = .unsupportedOperation o.byte ∨ c = .invalidRegister a := by
  cases ha : register a with
  | error d =>
    obtain rfl := register_error ha
    cases o <;> simp [ofControl, ha, Except.map] at h <;> simp [h]
  | ok r => cases o <;> simp [ofControl, ha, Except.map] at h <;> simp [h]

theorem ofArithmetic_error {o : Opcode} {a b : Byte} {c : Cause}
    (h : ofArithmetic o a b = .error c) :
    c = .unsupportedOperation o.byte ∨ c = .invalidRegister a ∨ c = .invalidRegister b := by
  cases ha : register a with
  | error d =>
    obtain rfl := register_error ha
    simp only [ofArithmetic, ha, bind, Except.bind, Except.error.injEq] at h
    exact .inr (.inl h.symm)
  | ok r =>
    cases hb : register b with
    | error d =>
      obtain rfl := register_error hb
      simp only [ofArithmetic, ha, hb, bind, Except.bind, Except.error.injEq] at h
      exact .inr (.inr h.symm)
    | ok s =>
      simp only [ofArithmetic, ha, hb, bind, Except.bind] at h
      split at h
      · cases h
      · exact .inl (Except.error.inj h).symm

/-- Reading fails because of the opcode byte or of an operand byte. -/
theorem decode_error {op a b : Byte} {c : Cause} (h : decode op a b = .error c) :
    c = .unsupportedOperation op ∨ c = .invalidRegister a ∨ c = .invalidRegister b := by
  unfold decode at h
  split at h
  · exact .inl (Except.error.inj h).symm
  · next o ho =>
    obtain rfl := Opcode.ofByte?_eq_some_iff.1 ho
    split at h
    · exact ofArithmetic_error h
    · exact (ofControl_error h).imp_right .inl

/-- Only the operand bytes that the opcode byte announces are read. -/
theorem decode_congr {op a b a' b' : Byte} (ha : 1 ≤ (operandCount op).toNat → a = a')
    (hb : 2 ≤ (operandCount op).toNat → b = b') : decode op a b = decode op a' b' := by
  unfold decode
  split
  · rfl
  · next o ho =>
    obtain rfl := Opcode.ofByte?_eq_some_iff.1 ho
    -- By the number of operand bytes: none, two, and one for the others.
    cases o
    case hlt => rfl
    case ldi | add | mul | div | cmp | and => rw [ha (by decide), hb (by decide)]
    all_goals
      rw [ha (by decide)]
      rfl

end Instruction

end ByteMachine
