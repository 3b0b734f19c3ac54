/-
What dumps and trace lines tell.

A dump leaves out the rows that are all zero, and a trace line shows three bytes of the memory and
the registers.  Both are texts, and nothing that they show is lost in the text:

* `Memory.shownStarts` — the rows of a dump by their addresses, with `Memory.messages_records`;
* `Memory.ofDump` — the memory that the lines of a dump describe: what no line shows is zero.  It
  is the memory that was dumped (`Memory.ofDump_records`);
* `Snapshot.message_inj` — a trace line tells all that a snapshot holds;
* `renderings_lose_nothing` — so a memory is told by its dump, and the visible part of a machine
  by its trace line.

The bytes of a row are written back from its address on, and rows do not overlap: what an address
holds is decided by the only row that covers it (`Memory.read_writeAll_row`).
-/
import ByteMachine.Log
import ByteMachine.Proofs.Hexadecimal
import ByteMachine.Proofs.Placement

namespace ByteMachine

namespace Memory

/-- The line about the row at an address: the address and the sixteen bytes from there on. -/
def rowLine (m : Memory) (a : Address) : String :=
  a.hex ++ ": " ++ " ".intercalate ((List.range 16).map fun i => (m.read (a + UInt8.ofNat i)).hex)

/-- Whether the row at an address holds a byte other than zero. -/
def Shows (m : Memory) (a : Address) : Prop := ∃ i < 16, m.read (a + UInt8.ofNat i) ≠ 0

instance (m : Memory) (a : Address) : Decidable (m.Shows a) :=
  inferInstanceAs (Decidable (∃ i < 16, m.read (a + UInt8.ofNat i) ≠ 0))

/-- The addresses of the rows. -/
def rowStarts : List Address := (List.range 16).map fun i => UInt8.ofNat (16 * i)

/-- The addresses of the rows that a dump shows. -/
def shownStarts (m : Memory) : List Address := rowStarts.filter fun a => m.Shows a

/-- Writes the bytes of a line to the address in front of them. -/
def restoreLine (m : Memory) (line : String) : Memory :=
  match hexBytes line.toList with
  | [] => m
  | a :: bs => m.writeAll a bs

/-- The memory that the lines of a dump describe. -/
def ofDump (lines : List String) : Memory := lines.foldl restoreLine zero

variable (m : Memory) {a : Address}

/-! ### Which rows are shown -/

theorem mem_rowStarts : a ∈ rowStarts ↔ a.toNat % 16 = 0 := by
  have ha := a.toNat_lt
  rw [rowStarts, List.mem_map]
  constructor
  · rintro ⟨i, hi, rfl⟩
    rw [List.mem_range] at hi
    rw [UInt8.toNat_ofNat']
    omega
  · intro h
    refine ⟨a.toNat / 16, List.mem_range.2 (by omega), ?_⟩
    rw [Nat.mul_div_cancel' (Nat.dvd_of_mod_eq_zero h), UInt8.ofNat_toNat]

theorem pairwise_shownStarts : m.shownStarts.Pairwise (· < ·) := by
  have hstarts : rowStarts.Pairwise (· < ·) := by decide
  exact hstarts.filter _

theorem mem_shownStarts : a ∈ m.shownStarts ↔ a.toNat % 16 = 0 ∧ m.Shows a := by
  rw [shownStarts, List.mem_filter, mem_rowStarts, decide_eq_true_iff]

theorem any_row_eq (a : Address) : (m.row a).bytes.any (· ≠ 0) = decide (m.Shows a) := by
  rw [Bool.eq_iff_iff, decide_eq_true_iff]
  simp [row, Shows]

theorem dump_eq : m.dump = m.shownStarts.map m.row := by
  have hrows : m.rows = rowStarts.map m.row := by
    rw [rows, rowStarts, List.map_map]
    rfl
  rw [dump, hrows, List.filter_map, shownStarts]
  congr 1
  exact List.filter_congr fun a _ => m.any_row_eq a

theorem message_row (a : Address) : (m.row a).message = m.rowLine a := by
  rw [Row.message, rowLine, row, List.map_map]
  rfl

/-- The lines of a dump are those about the rows that it shows. -/
theorem messages_records : m.records.map Record.message = m.shownStarts.map m.rowLine := by
  rw [records, dump_eq, List.map_map, List.map_map]
  exact List.map_congr_left fun a _ => m.message_row a

/-! ### Reading a dump -/

/-- The bytes that a line shows are the address of its row and the bytes of the row. -/
theorem hexBytes_rowLine (a : Address) : hexBytes (m.rowLine a).toList = a :: (m.row a).bytes := by
  have hbytes := hexBytes_intercalate (m.row a).bytes
  have htext : (m.rowLine a).toList =
      a.hexDigits ++ ':' :: ' ' :: (" ".intercalate ((m.row a).bytes.map Byte.hex)).toList := by
    rw [← message_row]
    simp [Row.message, Byte.hex, row]
  rw [htext, hexBytes_append rfl, hexBytes_cons rfl, hexBytes_hexDigits, hbytes,
    List.singleton_append]

theorem restoreLine_rowLine (n : Memory) (a : Address) :
    n.restoreLine (m.rowLine a) = n.writeAll a (m.row a).bytes := by
  rw [restoreLine, hexBytes_rowLine]

/-- A row that is written back covers the sixteen addresses of its row, and no other. -/
theorem read_writeAll_row (n : Memory) (ha : a.toNat % 16 = 0) (x : Address) :
    (n.writeAll a (m.row a).bytes).read x =
      if x.toNat / 16 = a.toNat / 16 then m.read x else n.read x := by
  have hlength : (m.row a).bytes.length = 16 := rfl
  have hx := x.toNat_lt
  have haddress : ∀ i < 16, (a + UInt8.ofNat i).toNat = a.toNat + i := by
    intro i hi
    have hlt := a.toNat_lt
    rw [UInt8.toNat_add, UInt8.toNat_ofNat']
    omega
  split
  · next hrow =>
    -- The place of the address in its row.
    have hi : x.toNat - a.toNat < (m.row a).bytes.length := by omega
    have hat : a + UInt8.ofNat (x.toNat - a.toNat) = x := by
      rw [← UInt8.toNat_inj, haddress _ (by omega)]
      omega
    have hread := n.holds_writeAll a (by omega) _ hi
    rw [hat] at hread
    rw [hread]
    simp only [row, List.getElem_map, List.getElem_range, hat]
  · next hrow =>
    refine n.read_writeAll_of_ne a x _ fun i hi hxi => hrow ?_
    rw [hxi, haddress i (by omega)]
    omega

/-- Rows that are written back one after the other: an address that one of them covers holds its
byte again. -/
theorem read_foldl_restoreLine {starts : List Address} (hstarts : ∀ a ∈ starts, a.toNat % 16 = 0)
    (n : Memory) (x : Address) :
    ((starts.map m.rowLine).foldl restoreLine n).read x =
      if ∃ a ∈ starts, x.toNat / 16 = a.toNat / 16 then m.read x else n.read x := by
  induction starts generalizing n with
  | nil => simp
  | cons a starts ih =>
    have ha := hstarts a (List.mem_cons_self ..)
    rw [List.map_cons, List.foldl_cons, ih fun b hb => hstarts b (List.mem_cons_of_mem a hb),
      restoreLine_rowLine, read_writeAll_row m n ha]
    by_cases hrow : x.toNat / 16 = a.toNat / 16
    · simp [hrow]
    · simp [hrow]

/-- Every address lies in a row. -/
theorem exists_rowStart (x : Address) : ∃ a : Address, a.toNat % 16 = 0 ∧
    x.toNat / 16 = a.toNat / 16 ∧ a + UInt8.ofNat (x.toNat % 16) = x := by
  have hx := x.toNat_lt
  have hstart : (UInt8.ofNat (16 * (x.toNat / 16))).toNat = 16 * (x.toNat / 16) := by
    rw [UInt8.toNat_ofNat']
    omega
  refine ⟨UInt8.ofNat (16 * (x.toNat / 16)), by omega, by omega, ?_⟩
  rw [← UInt8.ofNat_add, Nat.div_add_mod, UInt8.ofNat_toNat]

/-- The lines of a dump describe the memory that was dumped. -/
theorem ofDump_records : ofDump (m.records.map Record.message) = m := by
  refine ext_read fun x => ?_
  rw [messages_records, ofDump, read_foldl_restoreLine m fun a ha => (m.mem_shownStarts.1 ha).1]
  split
  · rfl
  · next hnone =>
    -- The row of this address is not shown, so that the address holds a zero.
    obtain ⟨a, ha, hrow, hat⟩ := exists_rowStart x
    have hshows : ¬ m.Shows a := fun h => hnone ⟨a, m.mem_shownStarts.2 ⟨ha, h⟩, hrow⟩
    have hzero : ¬ m.read x ≠ 0 := by
      intro hne
      refine hshows ⟨x.toNat % 16, Nat.mod_lt _ (by decide), ?_⟩
      rwa [hat]
    rw [read_zero, Decidable.not_not.1 hzero]

end Memory

/-! ### Trace lines -/

theorem Registers.toList_inj {rs ts : Registers} : rs.toList = ts.toList ↔ rs = ts := by
  cases rs
  cases ts
  simp [toList, Vector.toList_inj]

/-- The bytes that a trace line shows. -/
theorem Snapshot.hexBytes_message (s : Snapshot) : hexBytes s.message.toList =
    s.pc :: s.opcode :: s.operands.1 :: s.operands.2 :: s.registers.toList := by
  have hfetched := hexBytes_intercalate [s.opcode, s.operands.1, s.operands.2]
  have hregisters := hexBytes_intercalate s.registers.toList
  have htext : s.message.toList = "TRACE".toList ++ ':' :: ' ' :: (s.pc.hexDigits ++
      ' ' :: '|' :: ' ' :: ((" ".intercalate
        ([s.opcode, s.operands.1, s.operands.2].map Byte.hex)).toList ++
      ' ' :: '|' :: ' ' :: (" ".intercalate (s.registers.toList.map Byte.hex)).toList)) := by
    simp [message, Byte.hex]
  have hname : hexBytes "TRACE".toList = [] := rfl
  rw [htext, hexBytes_append rfl, hname, hexBytes_cons rfl, hexBytes_append rfl,
    hexBytes_hexDigits, hexBytes_cons rfl, hexBytes_cons rfl, hexBytes_append rfl, hfetched,
    hexBytes_cons rfl, hexBytes_cons rfl, hregisters]
  rfl

/-- A trace line tells all that a snapshot holds. -/
theorem Snapshot.message_inj {s t : Snapshot} : s.message = t.message ↔ s = t := by
  constructor
  · intro h
    have hbytes := s.hexBytes_message
    rw [h, t.hexBytes_message] at hbytes
    simp only [List.cons.injEq, Registers.toList_inj] at hbytes
    obtain ⟨hpc, hopcode, hfirst, hsecond, hregisters⟩ := hbytes
    cases s
    cases t
    simp_all [Prod.ext_iff]
  · rintro rfl
    rfl

theorem Machine.snapshot_eq_iff {m n : Machine} : m.snapshot = n.snapshot ↔
    m.pc = n.pc ∧ (∀ i < 3, m.memory.read (m.pc + UInt8.ofNat i) =
      n.memory.read (n.pc + UInt8.ofNat i)) ∧ ∀ r, m.registers.get r = n.registers.get r := by
  have hzero : ∀ a : Address, a + UInt8.ofNat 0 = a := UInt8.add_zero
  simp only [snapshot, opcodeByte, operandBytes, Snapshot.mk.injEq, Prod.mk.injEq]
  constructor
  · rintro ⟨hpc, hopcode, ⟨hfirst, hsecond⟩, hregisters⟩
    refine ⟨hpc, fun i hi => ?_, fun r => by rw [hregisters]⟩
    obtain rfl | rfl | rfl : i = 0 ∨ i = 1 ∨ i = 2 := by omega
    · rw [hzero, hzero, hopcode]
    · exact hfirst
    · exact hsecond
  · rintro ⟨hpc, hread, hregisters⟩
    have hopcode := hread 0 (by decide)
    rw [hzero, hzero] at hopcode
    exact ⟨hpc, hopcode, ⟨hread 1 (by decide), hread 2 (by decide)⟩, Registers.ext_get hregisters⟩

/-- **Dumps and trace lines lose nothing.**  The dump of a memory has one line for each row that
holds a byte other than zero, in the order of their addresses, with the address and the sixteen
bytes of the row; the memory is rebuilt from these lines, with zeros where there is none, so that
two memories have the same dump exactly if they are equal.  The trace lines of two machines are the
same exactly if their program counters, the three bytes from there on and all their registers
are. -/
theorem renderings_lose_nothing :
    (∀ m : Memory,
      (∃ starts : List Address, starts.Pairwise (· < ·) ∧
        (∀ a, a ∈ starts ↔ a.toNat % 16 = 0 ∧ ∃ i < 16, m.read (a + UInt8.ofNat i) ≠ 0) ∧
        m.records.map Record.message = starts.map m.rowLine) ∧
      Memory.ofDump (m.records.map Record.message) = m) ∧
    (∀ m n : Memory, m.records.map Record.message = n.records.map Record.message ↔ m = n) ∧
    ∀ m n : Machine, m.snapshot.message = n.snapshot.message ↔
      m.pc = n.pc ∧ (∀ i < 3, m.memory.read (m.pc + UInt8.ofNat i) =
        n.memory.read (n.pc + UInt8.ofNat i)) ∧ ∀ r, m.registers.get r = n.registers.get r := by
  refine ⟨fun m => ⟨⟨m.shownStarts, m.pairwise_shownStarts, fun a => m.mem_shownStarts,
    m.messages_records⟩, m.ofDump_records⟩, fun m n => ⟨fun h => ?_, fun h => by rw [h]⟩,
    fun m n => Snapshot.message_inj.trans Machine.snapshot_eq_iff⟩
  rw [← m.ofDump_records, h, n.ofDump_records]

end ByteMachine
