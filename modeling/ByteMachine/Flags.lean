/-
The flags of the last comparison.

A comparison sets exactly one of three flags.  Written as a byte they are the
bits `00000LGE`.

* `Flags.ofBits?_eq_some_iff` — the bytes that are flags are those flags write.
-/
import ByteMachine.Byte

namespace ByteMachine

/-- What the last comparison found; all false before the first one. -/
structure Flags where
  less : Bool
  greater : Bool
  equal : Bool
deriving DecidableEq

namespace Flags

/-- No comparison has been made. -/
def empty : Flags := ⟨false, false, false⟩

/-- How the first value relates to the second: exactly one flag is set. -/
def compare (a b : Byte) : Flags := ⟨a < b, b < a, a = b⟩

/-- The flags as the low three bits of a byte. -/
def bits (f : Flags) : Byte :=
  (if f.less then 4 else 0) + (if f.greater then 2 else 0) + (if f.equal then 1 else 0)

/-- The flags a byte stands for, unless one of its upper five bits is set. -/
def ofBits? (b : Byte) : Option Flags :=
  if b < 8 then some ⟨b.toNat.testBit 2, b.toNat.testBit 1, b.toNat.testBit 0⟩ else none

/-- The names of the flags that are set. -/
def names (f : Flags) : List String :=
  (if f.less then ["LESS"] else []) ++ (if f.greater then ["GREATER"] else []) ++
    (if f.equal then ["EQUAL"] else [])

/-- The flags by name, or `(empty)`. -/
def describe (f : Flags) : String :=
  if f.names.isEmpty then "(empty)" else " | ".intercalate f.names

@[simp] theorem ofBits?_bits (f : Flags) : ofBits? f.bits = some f := by
  rcases f with ⟨_ | _, _ | _, _ | _⟩ <;> decide

theorem ofBits?_eq_some_iff {b : Byte} {f : Flags} : ofBits? b = some f ↔ b = f.bits := by
  constructor
  · intro h
    unfold ofBits? at h
    split at h
    · next hlt =>
      have key : ∀ n : Fin 8, UInt8.ofNat n =
          bits ⟨n.val.testBit 2, n.val.testBit 1, n.val.testBit 0⟩ := by decide
      have := key ⟨b.toNat, UInt8.lt_iff_toNat_lt.1 hlt⟩
      cases h
      simpa using this
    · cases h
  · rintro rfl
    exact ofBits?_bits f

end Flags

end ByteMachine
