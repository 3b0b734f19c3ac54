/-
Bytes, addresses and the numerals they are written with.

A byte is a `UInt8`, and an address is a byte too: the machine has exactly 256
cells, so every sum of addresses wraps.  The numerals are

* `Byte.hex` — two upper-case hexadecimal digits;
* `Byte.binary` — eight binary digits, the most significant first, whose value is
  the byte (`Byte.ofDigitChars_binaryDigits`);
* `Byte.decimal` — decimal digits without leading zeros;
* `lowerHex` — a natural number in lower-case hexadecimal digits.
-/

namespace ByteMachine

/-- The unit of storage and of arithmetic. -/
abbrev Byte := UInt8

/-- A position in memory.  Every byte is a valid one. -/
abbrev Address := Byte

/-- The upper-case hexadecimal digit of a number below 16. -/
def hexDigit (d : Nat) : Char :=
  if d < 10 then Char.ofNat (48 + d) else Char.ofNat (55 + d)

/-- The two hexadecimal digits of a byte, high half first. -/
def Byte.hexDigits (b : Byte) : List Char :=
  [hexDigit (b.toNat / 16), hexDigit (b.toNat % 16)]

def Byte.hex (b : Byte) : String := String.ofList b.hexDigits

/-- The eight binary digits of a byte, the most significant first. -/
def Byte.binaryDigits (b : Byte) : List Char := (Nat.toDigits 2 b.toNat).leftpad 8 '0'

def Byte.binary (b : Byte) : String := String.ofList b.binaryDigits

/-- A byte as a decimal numeral without leading zeros. -/
def Byte.decimal (b : Byte) : String := Nat.repr b.toNat

/-- A number as a hexadecimal numeral in lower-case digits without leading zeros. -/
def lowerHex (n : Nat) : String := String.ofList (Nat.toDigits 16 n)

/-- The eight binary digits read as a number give the byte back. -/
theorem Byte.ofDigitChars_binaryDigits (b : Byte) :
    Nat.ofDigitChars 2 b.binaryDigits 0 = b.toNat := by
  simp [binaryDigits, List.leftpad, Nat.ofDigitChars_append,
    Nat.ofDigitChars_toDigits]

end ByteMachine
