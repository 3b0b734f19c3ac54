/-
The last write wins.

Bytes that are written from an address on go round the end of the memory, and a long list of them
comes round to its own beginning.  What an address holds then is told by the last byte of the list
that went there:

* `Hits` — which places of the list go to an address;
* `Memory.writeAll_take_succ` — one byte more is one write more;
* `Memory.read_writeAll_of_last`, `Memory.read_writeAll_of_forall_not` — an address that is hit, and
  one that is not;
* `Memory.writeAll_eq_of_length` — a full round leaves nothing of what was there before;
* `Memory.writeAll_last_wins` — all of this for a list of any length.
-/
import ByteMachine.Proofs.Frame

namespace ByteMachine

/-- The place of a list that is written from the address `p` on goes to the address `x`. -/
def Hits (p x : Address) (i : Nat) : Prop := (p.toNat + i) % 256 = x.toNat

theorem hits_iff {p x : Address} {i : Nat} : Hits p x i ↔ p + UInt8.ofNat i = x := by
  rw [Hits, ← UInt8.toNat_inj, UInt8.toNat_add, UInt8.toNat_ofNat']
  omega

namespace Memory

variable (m : Memory) (p : Address) {x : Address} {data : List Byte}

theorem writeAll_take_succ {j : Nat} (hj : j < data.length) :
    m.writeAll p (data.take (j + 1)) =
      (m.writeAll p (data.take j)).write (p + UInt8.ofNat j) data[j] := by
  rw [List.take_succ_eq_append_getElem hj, writeAll_append, List.length_take_of_le hj.le]
  rfl

/-- What an address holds changes only with the bytes that go there. -/
theorem read_writeAll_take_succ_of_not {j : Nat} (h : ¬ Hits p x j) (data : List Byte) :
    (m.writeAll p (data.take (j + 1))).read x = (m.writeAll p (data.take j)).read x := by
  by_cases hj : j < data.length
  · rw [writeAll_take_succ m p hj]
    exact read_write_of_ne _ _ fun hx => h (hits_iff.2 hx)
  · -- The list is at its end.
    rw [List.take_of_length_le (by omega), List.take_of_length_le (by omega)]

theorem read_writeAll_of_last {i : Nat} (h : LastBefore (Hits p x) data.length i) :
    data[i]? = some ((m.writeAll p data).read x) := by
  obtain ⟨hi, hx⟩ := h.1
  have hlast := h.eq (f := fun j => (m.writeAll p (data.take j)).read x)
    fun j hj => read_writeAll_take_succ_of_not m p hj data
  rw [List.take_length, writeAll_take_succ m p hi, hits_iff.1 hx, read_write_self] at hlast
  rw [hlast, List.getElem?_eq_getElem hi]

theorem read_writeAll_of_forall_not (h : ∀ i < data.length, ¬ Hits p x i) :
    (m.writeAll p data).read x = m.read x :=
  m.read_writeAll_of_ne p x data fun i hi hx => h i hi (hits_iff.2 hx.symm)

/-- A list as long as the memory covers all of it. -/
theorem writeAll_eq_of_length (n : Memory) (hlength : data.length = 256) :
    m.writeAll p data = n.writeAll p data := by
  refine ext_read fun x => ?_
  -- Every address is at some distance below 256.
  have hi : (x - p).toNat < data.length := by
    rw [hlength]
    exact (x - p).toNat_lt
  have hx : p + UInt8.ofNat (x - p).toNat = x := by
    rw [UInt8.ofNat_toNat, UInt8.add_comm, UInt8.sub_add_cancel]
  have hm := m.holds_writeAll p hlength.le _ hi
  have hn := n.holds_writeAll p hlength.le _ hi
  rw [hx] at hm hn
  rw [hm, hn]

/-- **The last write wins.**  A list of any length is written from the address `p` on.  Every
address then holds the byte at the last place of the list that goes there, where place `i` goes to
the address `p + i` modulo 256, or what it held before if no place does.  Two lists can be written
in one go or one behind the other.  Of a list of at least 256 bytes only the last 256 count: they
could as well have been written to any other memory, at the addresses where they went. -/
theorem writeAll_last_wins (data : List Byte) :
    (∀ x, (∃ i, LastBefore (fun i => (p.toNat + i) % 256 = x.toNat) data.length i ∧
          data[i]? = some ((m.writeAll p data).read x)) ∨
        (∀ i < data.length, (p.toNat + i) % 256 ≠ x.toNat) ∧
          (m.writeAll p data).read x = m.read x) ∧
      (∀ first second, data = first ++ second → m.writeAll p data =
        (m.writeAll p first).writeAll (p + UInt8.ofNat first.length) second) ∧
      (256 ≤ data.length → ∀ n : Memory, m.writeAll p data =
        n.writeAll (p + UInt8.ofNat (data.length - 256)) (data.drop (data.length - 256))) := by
  refine ⟨fun x => ?_, fun first second hdata => ?_, fun hlength n => ?_⟩
  · rcases forall_not_or_exists_lastBefore (Hits p x) data.length with hnone | ⟨i, hlast⟩
    · exact .inr ⟨hnone, m.read_writeAll_of_forall_not p hnone⟩
    · exact .inl ⟨i, hlast, m.read_writeAll_of_last p hlast⟩
  · rw [hdata, writeAll_append]
  · have hround : (data.drop (data.length - 256)).length = 256 := by
      rw [List.length_drop]
      omega
    have hsplit := m.writeAll_append p (data.take (data.length - 256))
      (data.drop (data.length - 256))
    rw [List.take_append_drop, List.length_take_of_le (Nat.sub_le _ _)] at hsplit
    rw [hsplit]
    exact writeAll_eq_of_length _ _ n hround

/-- A round of sevens and two bytes more. -/
def sevensAndTwo : List Byte := List.replicate 256 7 ++ [0x12, 0x34]

theorem writeAll_last_wins_sevensAndTwo :
    sevensAndTwo = List.replicate 256 7 ++ [0x12, 0x34] ∧ 256 ≤ sevensAndTwo.length ∧
      (zero.writeAll 0xFF sevensAndTwo).read 0xFF = 0x12 ∧
      (zero.writeAll 0xFF sevensAndTwo).read 0x01 = 7 ∧
      zero.writeAll 0xFF sevensAndTwo = (zero.writeAll 0xFF (List.replicate 256 7)).writeAll 0xFF
        [0x12, 0x34] ∧
      ∀ n : Memory, zero.writeAll 0xFF sevensAndTwo =
        n.writeAll 0x01 (List.replicate 254 7 ++ [0x12, 0x34]) := by
  obtain ⟨hread, happend, hround⟩ := zero.writeAll_last_wins 0xFF sevensAndTwo
  have hlength : sevensAndTwo.length = 258 := by
    rw [sevensAndTwo, List.length_append, List.length_replicate]
    rfl
  have htwo := happend (List.replicate 256 7) [0x12, 0x34] rfl
  rw [List.length_replicate] at htwo
  rw [hlength] at hread hround
  refine ⟨rfl, by omega, ?_, ?_, htwo, hround (by omega)⟩
  · rcases hread 0xFF with ⟨i, hlast, hi⟩ | ⟨hnone, -⟩
    · -- The places 0 and 256 go there.
      have hle : 256 ≤ i := hlast.2 ⟨by decide, by decide⟩
      have hlt := hlast.1.1
      have hat : (255 + i) % 256 = 255 := hlast.1.2
      obtain rfl : i = 256 := by omega
      exact (Option.some.inj hi).symm
    · exact absurd rfl (hnone 0 (by decide))
  · rcases hread 0x01 with ⟨i, hlast, hi⟩ | ⟨hnone, -⟩
    · have hlt := hlast.1.1
      have hat : (255 + i) % 256 = 1 := hlast.1.2
      obtain rfl : i = 2 := by omega
      exact (Option.some.inj hi).symm
    · exact absurd rfl (hnone 2 (by decide))

end Memory

end ByteMachine
