/-
The codes of an object file.

An object file is text.  On each line stands one byte in binary, a `#` starts a
comment, and blanks around the byte do not count.  A `Code` is what remains of a
line that says something, together with the number of that line.

* `codesFrom_append` — the codes of two runs of lines one after the other;
* `readBinary?_eq_some_iff` — which texts are eight bit binary numerals, and of
  which byte;
* `readBinary?_binaryDigits` — the eight digits of a byte are one.
-/
import ByteMachine.Byte
import ByteMachine.Text.Blank
import ByteMachine.Text.Line

namespace ByteMachine.ObjectFile

open Text

/-- What a line says: the part before the first `#`, without the blanks around it. -/
def strip (line : List Char) : List Char := trim (line.takeWhile (· ≠ '#'))

/-- A line that says something. -/
structure Code where
  line : Nat
  text : List Char
deriving DecidableEq

/-- The codes of a list of lines whose first has the given number. -/
def codesFrom (number : Nat) : List (List Char) → List Code
  | [] => []
  | line :: rest =>
    let text := strip line
    if text.isEmpty then codesFrom (number + 1) rest
    else ⟨number, text⟩ :: codesFrom (number + 1) rest

/-- The codes of an object file; its lines are numbered from 1. -/
def codes (source : List Char) : List Code := codesFrom 1 (lines source)

/-- Removes one plus sign from the start. -/
def dropPlus : List Char → List Char
  | '+' :: digits => digits
  | digits => digits

/-- Whether a text consists of binary digits, one at least. -/
def isBinary (digits : List Char) : Bool :=
  !digits.isEmpty && digits.all fun c => c == '0' || c == '1'

/-- Reads a binary numeral: one plus sign or none, then binary digits whose value
fits a byte.  Leading zeros do not count. -/
def readBinary? (text : List Char) : Option Byte :=
  let digits := dropPlus text
  let value := Nat.ofDigitChars 2 digits 0
  if isBinary digits && value < 256 then some (UInt8.ofNat value) else none

/-- The byte a code stands for, if it is an eight bit binary numeral. -/
def Code.byte? (c : Code) : Option Byte := readBinary? c.text

theorem codesFrom_append (number : Nat) (ls ms : List (List Char)) :
    codesFrom number (ls ++ ms) = codesFrom number ls ++ codesFrom (number + ls.length) ms := by
  induction ls generalizing number with
  | nil => rfl
  | cons l ls ih =>
    simp only [List.cons_append, codesFrom, ih, List.length_cons]
    rw [Nat.add_assoc number 1, Nat.add_comm 1]
    split <;> rfl

/-- A text is read as a byte exactly when it is a binary numeral of that byte. -/
theorem readBinary?_eq_some_iff {text : List Char} {b : Byte} :
    readBinary? text = some b ↔
      isBinary (dropPlus text) = true ∧ Nat.ofDigitChars 2 (dropPlus text) 0 = b.toNat := by
  unfold readBinary?
  constructor
  · intro h
    simp only [Bool.and_eq_true, decide_eq_true_eq] at h
    split at h
    · next hb =>
      cases h
      exact ⟨hb.1, (UInt8.toNat_ofNat_of_lt hb.2).symm⟩
    · cases h
  · rintro ⟨hd, hv⟩
    have hlt : b.toNat < 256 := b.toNat_lt
    simp [hd, hv, hlt]

theorem dropPlus_of_head?_ne {digits : List Char} (h : digits.head? ≠ some '+') :
    dropPlus digits = digits := by
  unfold dropPlus
  split
  · exact absurd rfl h
  · rfl

/-- The eight digits of a byte are a numeral of it. -/
theorem readBinary?_binaryDigits (b : Byte) : readBinary? b.binaryDigits = some b := by
  have digits : ∀ n : Fin 256, isBinary (Byte.binaryDigits (UInt8.ofNat n)) = true ∧
      dropPlus (Byte.binaryDigits (UInt8.ofNat n)) = Byte.binaryDigits (UInt8.ofNat n) := by
    decide +kernel
  obtain ⟨hd, hp⟩ := digits ⟨b.toNat, b.toNat_lt⟩
  simp only [UInt8.ofNat_toNat] at hd hp
  rw [readBinary?_eq_some_iff, hp]
  exact ⟨hd, b.ofDigitChars_binaryDigits⟩

end ByteMachine.ObjectFile
