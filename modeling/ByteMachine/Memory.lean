/-
The memory: 256 bytes, one at every address.

Reading and writing are total, because every byte is a valid address, and a list
that is written past the last address continues at address 0.

* `Memory.read_write` — what an address holds after a write;
* `Memory.ext_read` — a memory is determined by what its addresses hold;
* `Memory.writeAll_append` — writing two lists one after the other.

A dump shows the memory in rows of sixteen bytes and leaves out the rows that are
all zero.
-/
import ByteMachine.Byte

namespace ByteMachine

/-- The contents of the 256 addresses. -/
structure Memory where
  bytes : Vector Byte 256
deriving DecidableEq

namespace Memory

def zero : Memory := ⟨Vector.replicate 256 0⟩

def read (m : Memory) (a : Address) : Byte := m.bytes[(⟨a.toNat, a.toNat_lt⟩ : Fin 256)]

def write (m : Memory) (a : Address) (v : Byte) : Memory :=
  ⟨m.bytes.set a.toNat v a.toNat_lt⟩

/-- Writes a list of bytes from an address upwards.  After the last address comes
address 0, and a later byte replaces an earlier one. -/
def writeAll (m : Memory) (a : Address) : List Byte → Memory
  | [] => m
  | v :: vs => (m.write a v).writeAll (a + 1) vs

/-- All bytes, in the order of their addresses. -/
def toList (m : Memory) : List Byte := m.bytes.toList

theorem read_write (m : Memory) (a x : Address) (v : Byte) :
    (m.write a v).read x = if a = x then v else m.read x := by
  simp only [read, write, Fin.getElem_fin, Vector.getElem_set, UInt8.toNat_inj]

@[simp] theorem read_write_self (m : Memory) (a : Address) (v : Byte) :
    (m.write a v).read a = v := by
  simp [read_write]

theorem read_write_of_ne (m : Memory) {a x : Address} (v : Byte) (h : a ≠ x) :
    (m.write a v).read x = m.read x := by
  simp [read_write, h]

@[simp] theorem read_zero (x : Address) : zero.read x = 0 := by
  simp only [read, zero, Fin.getElem_fin, Vector.getElem_replicate]

theorem ext_read {m n : Memory} (h : ∀ a, m.read a = n.read a) : m = n := by
  cases m with
  | mk xs =>
    cases n with
    | mk ys =>
      congr
      refine Vector.ext fun i hi => ?_
      have := h (UInt8.ofNatLT i hi)
      simpa only [read, Fin.getElem_fin, UInt8.toNat_ofNatLT] using this

theorem writeAll_append (m : Memory) (a : Address) (vs ws : List Byte) :
    m.writeAll a (vs ++ ws) = (m.writeAll a vs).writeAll (a + UInt8.ofNat vs.length) ws := by
  induction vs generalizing m a with
  | nil => simp [writeAll]
  | cons v vs ih =>
    simp only [List.cons_append, writeAll, ih, List.length_cons]
    congr 1
    rw [UInt8.add_assoc, UInt8.add_comm 1, UInt8.ofNat_add]
    rfl

/-- Sixteen consecutive bytes and the address of the first. -/
structure Row where
  address : Address
  bytes : List Byte
deriving DecidableEq

/-- A row as its address and its bytes, all in hexadecimal. -/
def Row.message (r : Row) : String :=
  r.address.hex ++ ": " ++ " ".intercalate (r.bytes.map Byte.hex)

/-- The sixteen bytes from an address on. -/
def row (m : Memory) (a : Address) : Row :=
  ⟨a, (List.range 16).map fun i => m.read (a + UInt8.ofNat i)⟩

def rows (m : Memory) : List Row :=
  (List.range 16).map fun i => m.row (UInt8.ofNat (16 * i))

/-- The rows that hold a byte other than zero. -/
def dump (m : Memory) : List Row := m.rows.filter fun r => r.bytes.any (· ≠ 0)

end Memory

end ByteMachine
