/-
A program that prints a list.

For each value there is an instruction that loads it into a register and one that prints the
register, and behind all of them stands `HLT`.  The program is followed from its text to its output:

* `ObjectFile.written_listing` — the text of some bytes, with eight digits on each line, says them;
* `Machine.cycle_of_holds` — one cycle over instructions in memory carries out the first and moves
  to the others, which are still there if memory has not changed;
* `Machine.after_entry` — the two cycles over a value put it at the end of the output;
* `Machine.endsAt_printing`, `Machine.run_printing` — so the whole program prints the list and
  halts, wherever in memory it stands;
* `Machine.print_program_prints` — loaded from its text, it does this on a new machine.

The values are operands, and an operand may look like an opcode.  It is never fetched as one, as
every instruction tells where the next one begins.
-/
import ByteMachine.Proofs.Printing
import ByteMachine.Proofs.Frame

namespace ByteMachine

namespace ObjectFile

/-- The text that has a line of eight binary digits for each byte of a list. -/
def listing (bs : List Byte) : List Char := unlines (bs.map Byte.binaryDigits)

theorem written_listing (bs : List Byte) : Written (listing bs) bs := by
  have hnumeral : ∀ b : Byte, Numeral b.binaryDigits b :=
    fun b => readBinary?_eq_some_iff_numeral.1 (readBinary?_binaryDigits b)
  refine ⟨bs.map Byte.binaryDigits, hasLines_unlines fun line hline => ?_, ?_⟩
  · obtain ⟨b, -, rfl⟩ := List.mem_map.1 hline
    exact ⟨(hnumeral b).not_mem (by decide), (hnumeral b).not_mem (by decide)⟩
  · rw [List.forall₂_map_left_iff, List.forall₂_same]
    exact fun b _ => hnumeral b

end ObjectFile

namespace Instruction

/-- Instructions as they stand in memory, one behind the other. -/
def code (is : List Instruction) : List Byte := is.flatMap bytes

theorem code_cons (i : Instruction) (is : List Instruction) : code (i :: is) = i.bytes ++ code is :=
  List.flatMap_cons

theorem ofNat_length_bytes (i : Instruction) :
    UInt8.ofNat i.bytes.length = 1 + operandCount i.opcode.byte := by
  cases i with
  | jump c r =>
    cases c <;> simp only [bytes, operands, opcode, Condition.opcode, List.length] <;> decide
  | compute f r s =>
    cases f <;> simp only [bytes, operands, opcode, Arith.opcode, List.length] <;> decide
  | _ => simp only [bytes, operands, opcode, List.length]; decide

/-- The program that prints a list of values, each of them through the same register. -/
def printing (r : Register) : List Byte → List Instruction
  | [] => [halt]
  | v :: vs => load r v :: print r :: printing r vs

theorem length_code_printing (r : Register) (vs : List Byte) :
    (code (printing r vs)).length = 5 * vs.length + 1 := by
  induction vs with
  | nil => rfl
  | cons v vs ih =>
    rw [printing, code_cons, code_cons, List.length_append, List.length_append, ih]
    show 3 + (2 + _) = 5 * (vs.length + 1) + 1
    omega

end Instruction

open Instruction (code printing)
open ObjectFile (Program Written listing parse)

namespace Machine

/-! ### Instructions in memory -/

section

variable {σ : Type} [Sink σ] {m : Machine}

theorem cycle_of_holds {i : Instruction} {is : List Instruction}
    (h : m.memory.Holds m.pc (code (i :: is))) (sink : σ) :
    let next := m.pc + UInt8.ofNat i.bytes.length
    m.cycle sink = (m.moveTo next m.pc).perform sink i ∧ m.memory.Holds next (code is) := by
  rw [Instruction.code_cons, Memory.holds_append] at h
  have hlen : i.bytes.length ≤ 3 := by
    cases i <;> simp [Instruction.bytes, Instruction.operands]
  have hbytes := h.1.isPrefix hlen
  have hop : i.opcode.byte = m.opcodeByte := (List.cons_prefix_cons.1 hbytes).1
  refine ⟨?_, h.2⟩
  rw [cycle_of_bytes hbytes, advance_eq_moveTo, ← hop, ← i.ofNat_length_bytes]

end

/-! ### The printing program -/

/-- A machine between the two instructions that print a value. -/
def stage (m : Machine) (r : Register) (v : Byte) : Machine :=
  { m with registers := m.registers.set r v, pc := m.pc + 3, fetched := m.pc }

/-- A machine behind them. -/
def pass (m : Machine) (r : Register) (v : Byte) : Machine :=
  (m.stage r v).moveTo (m.pc + 5) (m.pc + 3)

/-- A machine behind the program that prints a list. -/
def passAll (m : Machine) (r : Register) (vs : List Byte) : Machine :=
  { m with
    registers := vs.foldl (fun registers v => registers.set r v) m.registers
    pc := m.pc + UInt8.ofNat (5 * vs.length + 1)
    fetched := m.pc + UInt8.ofNat (5 * vs.length)
    state := .halted }

variable {m : Machine} {r : Register} {v : Byte} {vs : List Byte} {is : List Instruction}

theorem passAll_pass (m : Machine) (r : Register) (v : Byte) (vs : List Byte) :
    (m.pass r v).passAll r vs = m.passAll r (v :: vs) := by
  have hoffset : ∀ n, m.pc + 5 + UInt8.ofNat n = m.pc + UInt8.ofNat (5 + n) := by
    intro n
    rw [UInt8.add_assoc, UInt8.ofNat_add]
    rfl
  have hlength : 5 * (v :: vs).length = 5 + 5 * vs.length := by
    rw [List.length_cons]
    omega
  rw [passAll, passAll, hlength, Nat.add_assoc, ← hoffset, ← hoffset]
  rfl

theorem cycle_load (h : m.memory.Holds m.pc (code (.load r v :: is))) (values : Array Byte) :
    m.cycle values = ⟨m.stage r v, values, .ok (.loaded r v)⟩ ∧
      (m.stage r v).memory.Holds (m.stage r v).pc (code is) :=
  cycle_of_holds h values

theorem cycle_print (h : (m.stage r v).memory.Holds (m.stage r v).pc (code (.print r :: is)))
    (values : Array Byte) :
    (m.stage r v).cycle values = ⟨m.pass r v, values.push v, .ok (.printed r v)⟩ ∧
      (m.pass r v).memory.Holds (m.pass r v).pc (code is) := by
  obtain ⟨hcycle, hrest⟩ := cycle_of_holds h values
  have hnext : (m.stage r v).pc + UInt8.ofNat (Instruction.print r).bytes.length = m.pc + 5 :=
    UInt8.add_assoc ..
  have hperform : (m.pass r v).perform values (.print r) = ⟨m.pass r v,
      values.push ((m.pass r v).registers.get r),
      .ok (.printed r ((m.pass r v).registers.get r))⟩ := rfl
  have hvalue : (m.pass r v).registers.get r = v := Registers.get_set_self ..
  rw [hnext] at hcycle hrest
  rw [hvalue] at hperform
  exact ⟨hcycle.trans hperform, hrest⟩

/-- The two cycles over a value put it at the end of the output, and the run goes on. -/
theorem after_entry (hm : m.state = .running)
    (h : m.memory.Holds m.pc (code (.load r v :: .print r :: is))) (values : Array Byte) :
    m.after values 2 = (m.pass r v, values.push v) ∧ (∀ j < 2, ¬ (m.nth values j).Ends) ∧
      (m.pass r v).memory.Holds (m.pass r v).pc (code is) := by
  obtain ⟨hload, hstaged⟩ := cycle_load h values
  obtain ⟨hprint, hpassed⟩ := cycle_print hstaged values
  have hfirst : m.nth values 0 = ⟨m.stage r v, values, .ok (.loaded r v)⟩ := hload
  have hsecond : m.nth values 1 = ⟨m.pass r v, values.push v, .ok (.printed r v)⟩ := by
    rw [nth_succ, hload]
    exact hprint
  refine ⟨?_, fun j hj => ?_, hpassed⟩
  · rw [after_succ_eq, hsecond]
  · obtain rfl | rfl : j = 0 ∨ j = 1 := by omega
    · rw [hfirst]
      exact Step.not_ends_iff.2 ⟨⟨_, rfl⟩, hm⟩
    · rw [hsecond]
      exact Step.not_ends_iff.2 ⟨⟨_, rfl⟩, hm⟩

theorem endsAt_printing (hm : m.state = .running)
    (h : m.memory.Holds m.pc (code (printing r vs))) (values : Array Byte) :
    m.EndsAt values (2 * vs.length) ∧ m.nth values (2 * vs.length) =
      ⟨m.passAll r vs, vs.foldl Array.push values, .ok .halted⟩ := by
  -- By induction on the list: the program of the rest stands behind the instructions of a value.
  induction vs generalizing m values with
  | nil =>
    have hstart : m.pc + UInt8.ofNat (5 * ([] : List Byte).length) = m.pc := UInt8.add_zero m.pc
    have hhalt : m.nth values 0 = ⟨m.passAll r [], values, .ok .halted⟩ := by
      rw [passAll, hstart]
      exact (cycle_of_holds h values).1
    refine ⟨⟨?_, fun j hj => absurd hj (Nat.not_lt_zero j)⟩, hhalt⟩
    rw [List.length_nil, Nat.mul_zero, hhalt]
    exact .inr rfl
  | cons v vs ih =>
    obtain ⟨hafter, hgoes, hrest⟩ := after_entry hm h values
    obtain ⟨hends, hlast⟩ := ih (m := m.pass r v) hm hrest (values.push v)
    have hlength : 2 * (v :: vs).length = 2 + 2 * vs.length := by
      rw [List.length_cons]
      omega
    rw [hlength]
    refine ⟨EndsAt.add ?_ hgoes, ?_⟩
    · rw [hafter]
      exact hends
    · rw [nth_add, hafter, hlast, passAll_pass]
      rfl

theorem run_printing {α : Type} (hm : m.state = .running)
    (h : m.memory.Holds m.pc (code (printing r vs))) (values : Array Byte) (see : α → Turn → α)
    (seen : α) : m.run see values seen = Part.some ⟨m.passAll r vs, vs.foldl Array.push values,
      .stopped, (m.turns values (2 * vs.length + 1)).foldl see seen⟩ := by
  obtain ⟨hends, hlast⟩ := endsAt_printing hm h values
  rw [run_eq_runUpTo see hm hends, runUpTo, hlast]
  rfl

/-- **The program that prints a list prints it.**  Take the program that prints at most 51 values,
through `R0` or any other register.  It has at most 256 bytes, and every text that says these bytes
is loaded, the one with eight digits on a line among them.  On a new machine the run from there
halts after two cycles for each value and one more, with just the values collected.  Memory is as it
was, the address fetched last is the one of `HLT`, and the program counter is behind it, which may
be at 0 again.  With a printer the run is the same, and the text has the decimal line of each
value. -/
theorem print_program_prints (base : Memory) (r : Register) (vs : List Byte)
    (hlength : vs.length ≤ 51) :
    let bytes := code (printing r vs)
    bytes.length = 5 * vs.length + 1 ∧ Written (listing bytes) bytes ∧
      ∀ source, Written source bytes →
        ∃ p, parse base source = .ok p ∧ p.size = 5 * vs.length + 1 ∧
          ∃ list text, (new p.memory).run count (#[] : Array Byte) 0 = Part.some list ∧
            (new p.memory).run count ({} : Printer) 0 = Part.some text ∧
            (list.ending = .stopped ∧ list.seen = 2 * vs.length + 1 ∧ list.sink.toList = vs) ∧
            (list.machine.state = .halted ∧ list.machine.memory = p.memory ∧
              list.machine.fetched.toNat = 5 * vs.length ∧
              list.machine.pc.toNat = (5 * vs.length + 1) % 256) ∧
            text.ending = .stopped ∧ text.seen = 2 * vs.length + 1 ∧
              text.sink.text = decimalLines vs ∧ text.machine = list.machine := by
  intro bytes
  have hbytes : bytes.length = 5 * vs.length + 1 := Instruction.length_code_printing r vs
  refine ⟨hbytes, ObjectFile.written_listing bytes, fun source hsource => ?_⟩
  have hfits : bytes.length ≤ 256 := by omega
  let p : Program := ⟨base.writeAll 0 bytes, bytes.length⟩
  have hheld : (new p.memory).memory.Holds (new p.memory).pc bytes := base.holds_writeAll 0 hfits
  have hrun := run_printing (m := new p.memory) rfl hheld #[] count 0
  have hseen : ((new p.memory).turns (#[] : Array Byte) (2 * vs.length + 1)).foldl count 0 =
      2 * vs.length + 1 := by
    rw [foldl_count, turns, List.length_map, List.length_range, Nat.zero_add]
  have hvalues : (vs.foldl Array.push #[]).toList = vs := by
    rw [List.foldl_push_eq_append', Array.toList_append]
    rfl
  have hprinter := run_ofValues (new p.memory) #[] count 0
  rw [hrun, Part.map_some] at hprinter
  refine ⟨p, ObjectFile.parse_written_ok base hsource hfits, hbytes, _, _, hrun, hprinter,
    ⟨rfl, hseen, hvalues⟩, ⟨rfl, rfl, ?_, ?_⟩, rfl, hseen, congrArg decimalLines hvalues, rfl⟩
  · show (0 + UInt8.ofNat (5 * vs.length)).toNat = _
    rw [UInt8.zero_add, UInt8.toNat_ofNat']
    omega
  · show (0 + UInt8.ofNat (5 * vs.length + 1)).toNat = _
    rw [UInt8.zero_add, UInt8.toNat_ofNat']

/-- Every value is the byte of `HLT` here, and the program takes up the whole memory. -/
theorem print_program_prints_ones :
    let ones : List Byte := List.replicate 51 1
    ∃ p text, parse .zero (listing (code (printing 0 ones))) = .ok p ∧ p.size = 256 ∧
      (new p.memory).run count ({} : Printer) 0 = Part.some text ∧ text.seen = 103 ∧
      text.machine.pc = 0 ∧ text.sink.text = String.join (List.replicate 51 "1\n") := by
  intro ones
  have hones : ones.length = 51 := List.length_replicate
  obtain ⟨-, hwritten, hloads⟩ := print_program_prints .zero 0 ones (Nat.le_of_eq hones)
  obtain ⟨p, hparse, hsize, list, text, -, hrun, -, ⟨-, -, -, hpc⟩, -, hseen, htext, hmachine⟩ :=
    hloads _ hwritten
  rw [hones] at hsize hseen hpc
  refine ⟨p, text, hparse, hsize, hrun, hseen, ?_, ?_⟩
  · rw [hmachine]
    exact UInt8.toNat_inj.1 hpc
  · have hline : Byte.line 1 = "1\n" := by decide
    rw [htext, decimalLines, List.map_replicate, hline]

/-- `LDI R0 8`, `PRN R0` and `HLT`. -/
example : String.ofList (listing (code (printing 0 [8]))) =
    "10000010\n00000000\n00001000\n01000111\n00000000\n00000001\n" := by decide

end Machine

end ByteMachine
