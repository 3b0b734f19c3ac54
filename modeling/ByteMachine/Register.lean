/-
Registers and the register file.

There are eight registers, R0 to R7, and R7 is the stack pointer.  A `Register`
is a valid index, so reading and writing a register cannot fail; only an operand
byte has to be checked, by `Register.ofByte?`.

* `Registers.get_set` — what a register holds after another one is written;
* `Registers.ext_get` — a register file is determined by what its registers hold.
-/
import ByteMachine.Byte

namespace ByteMachine

/-- The index of a register, 0 to 7. -/
abbrev Register := Fin 8

/-- The register an operand byte names, if there is one. -/
def Register.ofByte? (b : Byte) : Option Register :=
  if h : b.toNat < 8 then some ⟨b.toNat, h⟩ else none

/-- The name of a register, such as `R3`. -/
def Register.name (r : Register) : String := "R" ++ Nat.repr r.val

def Register.stackPointer : Register := 7

/-- The contents of the eight registers. -/
structure Registers where
  values : Vector Byte 8
deriving DecidableEq

namespace Registers

def get (rs : Registers) (r : Register) : Byte := rs.values[r]

def set (rs : Registers) (r : Register) (v : Byte) : Registers :=
  ⟨rs.values.set r v⟩

/-- The stack pointer: the value of R7. -/
def sp (rs : Registers) : Address := rs.get .stackPointer

def setSp (rs : Registers) (v : Address) : Registers := rs.set .stackPointer v

/-- The values of R0 to R7 in order. -/
def toList (rs : Registers) : List Byte := rs.values.toList

/-- The registers of a new machine: zeros, and the stack pointer at 0xF4. -/
def initial : Registers := setSp ⟨Vector.replicate 8 0⟩ 0xF4

theorem get_set (rs : Registers) (r k : Register) (v : Byte) :
    (rs.set r v).get k = if r = k then v else rs.get k := by
  simp only [get, set, Fin.getElem_fin, Vector.getElem_set, Fin.ext_iff]

@[simp] theorem get_set_self (rs : Registers) (r : Register) (v : Byte) :
    (rs.set r v).get r = v := by
  simp [get_set]

theorem get_set_of_ne (rs : Registers) {r k : Register} (v : Byte) (h : r ≠ k) :
    (rs.set r v).get k = rs.get k := by
  simp [get_set, h]

@[simp] theorem sp_setSp (rs : Registers) (v : Address) : (rs.setSp v).sp = v :=
  get_set_self rs _ v

theorem ext_get {rs ts : Registers} (h : ∀ r, rs.get r = ts.get r) : rs = ts := by
  cases rs with
  | mk xs =>
    cases ts with
    | mk ys =>
      congr
      exact Vector.ext fun i hi => h ⟨i, hi⟩

end Registers

/-- An operand byte names a register exactly when it is below 8. -/
theorem Register.ofByte?_eq_some_iff {b : Byte} {r : Register} :
    Register.ofByte? b = some r ↔ b.toNat = r.val := by
  unfold Register.ofByte?
  split
  · simp [Fin.ext_iff]
  · have := r.isLt
    simp; omega

end ByteMachine
