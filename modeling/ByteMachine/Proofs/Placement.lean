/-
Bytes in place.

`Memory.Holds m p bs` says that the bytes of a list stand one after the other from an address
on, around the end of the memory if need be.

* `Memory.holds_writeAll` — a list of at most 256 bytes stands where it was written;
* `Memory.read_writeAll_zero` — what every address holds after a list was written from 0 on;
* `Memory.writeAll_toList` — all bytes of a memory in order are that memory again;
* `Memory.Holds.write_of_ne` — a write to another address leaves it in place;
* `Memory.holds_append` — two lists stand one behind the other.

A list of 256 bytes covers every address, and a longer one would overwrite its own beginning:
that is where distances stop being distances (`add_ofNat_ne_add_ofNat`).
-/
import ByteMachine.Memory

namespace ByteMachine

theorem add_one_add_ofNat (p : Address) (i : Nat) :
    p + 1 + UInt8.ofNat i = p + UInt8.ofNat (i + 1) := by
  rw [UInt8.add_assoc, UInt8.add_comm 1, UInt8.ofNat_add]
  rfl

/-- Offsets below 256 lead to distinct addresses. -/
theorem add_ofNat_ne_add_ofNat (p : Address) {i j : Nat} (hi : i < 256) (hj : j < 256)
    (hij : i ≠ j) : p + UInt8.ofNat i ≠ p + UInt8.ofNat j := by
  intro h
  have hij' := UInt8.toNat_inj.2 ((UInt8.add_right_inj p).1 h)
  rw [UInt8.toNat_ofNat', UInt8.toNat_ofNat'] at hij'
  omega

namespace Memory

def Holds (m : Memory) (p : Address) (bs : List Byte) : Prop :=
  ∀ i (h : i < bs.length), m.read (p + UInt8.ofNat i) = bs[i]

@[simp] theorem holds_nil (m : Memory) (p : Address) : m.Holds p [] := by
  intro i h
  cases h

theorem holds_append {m : Memory} {p : Address} {bs cs : List Byte} :
    m.Holds p (bs ++ cs) ↔ m.Holds p bs ∧ m.Holds (p + UInt8.ofNat bs.length) cs := by
  constructor
  · intro h
    refine ⟨fun i hi => ?_, fun i hi => ?_⟩
    · rw [h i (by simp; omega), List.getElem_append_left hi]
    · rw [UInt8.add_assoc, ← UInt8.ofNat_add, h _ (by simp; omega)]
      simp
  · rintro ⟨hb, hc⟩ i hi
    by_cases hlt : i < bs.length
    · rw [List.getElem_append_left hlt, hb i hlt]
    · -- Beyond the first list, offsets count from where the second begins.
      rw [List.getElem_append_right (by omega),
        ← hc (i - bs.length) (by simp at hi; omega), UInt8.add_assoc, ← UInt8.ofNat_add]
      congr 3
      omega

theorem holds_cons {m : Memory} {p : Address} {b : Byte} {bs : List Byte} :
    m.Holds p (b :: bs) ↔ m.read p = b ∧ m.Holds (p + 1) bs := by
  rw [← List.singleton_append, holds_append]
  simp [Holds]

/-- A row of at most three bytes is the beginning of the three bytes that a cycle looks at. -/
theorem Holds.isPrefix {m : Memory} {p : Address} {bs : List Byte} (h : m.Holds p bs)
    (hlen : bs.length ≤ 3) : bs <+: [m.read p, m.read (p + 1), m.read (p + 2)] := by
  refine List.prefix_iff_getElem.2 ⟨hlen, fun i hi => ?_⟩
  rw [← h i hi]
  obtain rfl | rfl | rfl : i = 0 ∨ i = 1 ∨ i = 2 := by omega
  · exact congrArg m.read (UInt8.add_zero p)
  · rfl
  · rfl

theorem Holds.write_of_ne {m : Memory} {p a : Address} {bs : List Byte} (h : m.Holds p bs)
    (ha : ∀ i < bs.length, a ≠ p + UInt8.ofNat i) (v : Byte) : (m.write a v).Holds p bs := by
  intro i hi
  rw [read_write_of_ne m v (ha i hi)]
  exact h i hi

theorem read_writeAll_of_ne (m : Memory) (p x : Address) (bs : List Byte)
    (hx : ∀ i < bs.length, x ≠ p + UInt8.ofNat i) : (m.writeAll p bs).read x = m.read x := by
  induction bs generalizing m p with
  | nil => rfl
  | cons b bs ih =>
    have hp : p ≠ x := by
      intro h
      exact hx 0 (by simp) (by simp [h])
    rw [writeAll, ih, read_write_of_ne m b hp]
    intro i hi
    rw [add_one_add_ofNat]
    exact hx (i + 1) (by simpa using hi)

theorem holds_writeAll (m : Memory) (p : Address) {bs : List Byte} (hlen : bs.length ≤ 256) :
    (m.writeAll p bs).Holds p bs := by
  induction bs generalizing m p with
  | nil => exact holds_nil _ _
  | cons b bs ih =>
    rw [List.length_cons] at hlen
    refine holds_cons.2 ⟨?_, ih (m.write p b) (p + 1) (by omega)⟩
    -- The tail starts right behind the first byte and is too short to come round to it.
    rw [writeAll, read_writeAll_of_ne, read_write_self]
    intro i hi
    have hne : p + UInt8.ofNat 0 ≠ p + UInt8.ofNat (i + 1) :=
      add_ofNat_ne_add_ofNat p (by omega) (by omega) (by omega)
    rwa [show p + UInt8.ofNat 0 = p from UInt8.add_zero p, ← add_one_add_ofNat] at hne

/-- Bytes written from address 0 on, and the bytes behind them. -/
theorem read_writeAll_zero (m : Memory) {bs : List Byte} (hlen : bs.length ≤ 256) :
    (∀ i (h : i < bs.length), (m.writeAll 0 bs).read (UInt8.ofNat i) = bs[i]) ∧
      ∀ a : Address, bs.length ≤ a.toNat → (m.writeAll 0 bs).read a = m.read a := by
  refine ⟨fun i hi => ?_, fun a ha => ?_⟩
  · have hread := m.holds_writeAll 0 hlen i hi
    rwa [UInt8.zero_add] at hread
  · refine m.read_writeAll_of_ne 0 a bs fun i hi => ?_
    rw [UInt8.zero_add]
    rintro rfl
    rw [UInt8.toNat_ofNat'] at ha
    omega

/-- All bytes of a memory, written over another one, are that memory. -/
theorem writeAll_toList (base m : Memory) : base.writeAll 0 m.toList = m := by
  have hlength : m.toList.length = 256 := m.bytes.length_toList
  refine ext_read fun a => ?_
  have ha : a.toNat < m.toList.length := by
    rw [hlength]
    exact a.toNat_lt
  have hread := (base.read_writeAll_zero (Nat.le_of_eq hlength)).1 a.toNat ha
  rw [UInt8.ofNat_toNat] at hread
  rw [hread]
  exact Vector.getElem_toList ..

end Memory

end ByteMachine
