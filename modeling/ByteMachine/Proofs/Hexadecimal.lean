/-
Hexadecimal numerals.

Bytes and addresses are shown in hexadecimal digits, bytes in two capital ones and numbers in as
many small ones as they need.  Both can be read back, alone or among other text:

* `readHex?` — the number that digits stand for, with `readHex?_toDigits` and
  `readHex?_hexDigits`;
* `hexBytes` — the bytes that a text shows in words of two digits.  The words of two texts with a
  separator between them are those of the one and those of the other (`hexBytes_append`), so that
  a text which is put together from numerals is read piece by piece.
-/
import ByteMachine.Byte

namespace ByteMachine

/-- The value of a hexadecimal digit, a capital one or a small one. -/
def hexValue? (c : Char) : Option Nat :=
  (List.range 16).find? fun d => hexDigit d = c || Nat.digitChar d = c

/-- The number that hexadecimal digits stand for. -/
def readHex? (digits : List Char) : Option Nat :=
  digits.foldlM (fun n c => (hexValue? c).map (16 * n + ·)) 0

/-- The byte that a word of two hexadecimal digits stands for. -/
def Byte.ofHex? (word : List Char) : Option Byte :=
  if word.length = 2 then (readHex? word).map UInt8.ofNat else none

/-- Whether a character stands between words. -/
def isSeparator (c : Char) : Bool := c = ' ' || c = ':' || c = '|'

/-- The bytes that a text shows in words of two hexadecimal digits.  Other words do not count. -/
def hexBytes (text : List Char) : List Byte :=
  (text.splitOnP isSeparator).filterMap Byte.ofHex?

theorem hexValue?_hexDigit {d : Nat} (hd : d < 16) : hexValue? (hexDigit d) = some d := by
  have key : ∀ d : Fin 16, hexValue? (hexDigit d) = some d.val := by decide
  exact key ⟨d, hd⟩

theorem hexValue?_digitChar {d : Nat} (hd : d < 16) : hexValue? (Nat.digitChar d) = some d := by
  have key : ∀ d : Fin 16, hexValue? (Nat.digitChar d) = some d.val := by decide
  exact key ⟨d, hd⟩

theorem isSeparator_hexDigit {d : Nat} (hd : d < 16) : isSeparator (hexDigit d) = false := by
  have key : ∀ d : Fin 16, isSeparator (hexDigit d) = false := by decide
  exact key ⟨d, hd⟩

/-- The last digit counts once, and what stands before it sixteen times. -/
theorem readHex?_append_singleton {digits : List Char} {c : Char} {n d : Nat}
    (hdigits : readHex? digits = some n) (hc : hexValue? c = some d) :
    readHex? (digits ++ [c]) = some (16 * n + d) := by
  unfold readHex? at hdigits ⊢
  rw [List.foldlM_append, hdigits]
  simp [hc]

/-- A numeral in small digits is read back. -/
theorem readHex?_toDigits (n : Nat) : readHex? (Nat.toDigits 16 n) = some n := by
  induction n using Nat.strongRecOn with
  | ind n ih =>
    by_cases hsmall : n < 16
    · have hzero : readHex? [] = some 0 := rfl
      have hdigit := readHex?_append_singleton hzero (hexValue?_digitChar hsmall)
      rwa [Nat.mul_zero, Nat.zero_add, ← Nat.toDigits_of_lt_base hsmall] at hdigit
    · have hlast := hexValue?_digitChar (Nat.mod_lt n (by decide : 0 < 16))
      rw [Nat.toDigits_of_base_le (by decide) (by omega),
        readHex?_append_singleton (ih (n / 16) (by omega)) hlast, Nat.div_add_mod]

/-- A character that is no small digit is in no numeral of them. -/
theorem not_mem_toDigits_sixteen {c : Char} (hc : ∀ d : Fin 16, c ≠ Nat.digitChar d) (n : Nat) :
    c ∉ Nat.toDigits 16 n := by
  induction n using Nat.strongRecOn with
  | ind n ih =>
    by_cases hsmall : n < 16
    · rw [Nat.toDigits_of_lt_base hsmall, List.mem_singleton]
      exact hc ⟨n, hsmall⟩
    · rw [Nat.toDigits_of_base_le (by decide) (by omega), List.mem_append, List.mem_singleton]
      rintro (h | h)
      · exact ih (n / 16) (by omega) h
      · exact hc ⟨n % 16, Nat.mod_lt n (by decide)⟩ h

theorem toList_lowerHex (n : Nat) : (lowerHex n).toList = Nat.toDigits 16 n :=
  String.toList_ofList

/-- The two capital digits of a byte are read back. -/
theorem readHex?_hexDigits (b : Byte) : readHex? b.hexDigits = some b.toNat := by
  have hb := b.toNat_lt
  have hhigh : hexValue? (hexDigit (b.toNat / 16)) = some (b.toNat / 16) :=
    hexValue?_hexDigit (by omega)
  have hlow : hexValue? (hexDigit (b.toNat % 16)) = some (b.toNat % 16) :=
    hexValue?_hexDigit (by omega)
  have hzero : readHex? [] = some 0 := rfl
  have hread := readHex?_append_singleton (readHex?_append_singleton hzero hhigh) hlow
  rwa [Nat.mul_zero, Nat.zero_add, Nat.div_add_mod] at hread

theorem Byte.ofHex?_hexDigits (b : Byte) : Byte.ofHex? b.hexDigits = some b := by
  have hlength : b.hexDigits.length = 2 := rfl
  rw [ofHex?, if_pos hlength, readHex?_hexDigits, Option.map_some, UInt8.ofNat_toNat]

theorem isSeparator_of_mem_hexDigits {b : Byte} {c : Char} (h : c ∈ b.hexDigits) :
    isSeparator c = false := by
  have hb := b.toNat_lt
  simp only [Byte.hexDigits, List.mem_cons, List.not_mem_nil, or_false] at h
  rcases h with rfl | rfl
  · exact isSeparator_hexDigit (by omega)
  · exact isSeparator_hexDigit (by omega)

/-! ### The bytes in a text -/

theorem hexBytes_append {c : Char} (hc : isSeparator c = true) (s t : List Char) :
    hexBytes (s ++ c :: t) = hexBytes s ++ hexBytes t := by
  rw [hexBytes, List.splitOnP_append_cons s t hc, List.filterMap_append]
  rfl

/-- A separator at the start of a text does not count. -/
theorem hexBytes_cons {c : Char} (hc : isSeparator c = true) (t : List Char) :
    hexBytes (c :: t) = hexBytes t :=
  hexBytes_append hc [] t

theorem hexBytes_hexDigits (b : Byte) : hexBytes b.hexDigits = [b] := by
  rw [hexBytes, List.splitOnP_eq_singleton fun c hc => isSeparator_of_mem_hexDigits hc]
  exact List.filterMap_cons_some b.ofHex?_hexDigits

/-- Bytes that are shown with a blank between each two. -/
theorem hexBytes_intercalate (bs : List Byte) :
    hexBytes (" ".intercalate (bs.map Byte.hex)).toList = bs := by
  induction bs with
  | nil => rfl
  | cons b bs ih =>
    cases bs with
    | nil =>
      rw [List.map_singleton, String.intercalate_singleton, Byte.hex, String.toList_ofList]
      exact hexBytes_hexDigits b
    | cons c bs =>
      have htext : (" ".intercalate ((b :: c :: bs).map Byte.hex)).toList =
          b.hexDigits ++ ' ' :: (" ".intercalate ((c :: bs).map Byte.hex)).toList := by
        simp [String.intercalate_cons_cons, Byte.hex]
      rw [htext, hexBytes_append rfl, hexBytes_hexDigits, ih]
      rfl

end ByteMachine
