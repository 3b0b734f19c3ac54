/-
The last comparison.

A comparison replaces the flags and nothing else touches them, so that in a run from a new
machine they tell how the two values of the last comparison relate:

* `Machine.LastCompared.bits_flags` — the flags after any number of cycles are the one bit of the
  comparison completed last;
* `Machine.flags_after_of_forall_not` — they are those of the beginning if there was none;
* `Machine.equal_after_iff` — so they say equal if and only if the last comparison found two
  equal values;
* `Machine.flags_of_last_comparison` — the flags of every run from a new machine, and what a
  conditional jump does next.

The values are those that the two registers held when they were compared.  A comparison with an
operand that is no register fails, and does not count.
-/
import ByteMachine.Proofs.Frame

namespace ByteMachine

/-- The flag for equal values is the lowest bit. -/
theorem Flags.equal_eq_true_iff (f : Flags) : f.equal = true ↔ f.bits.toNat % 2 = 1 := by
  rcases f with ⟨_ | _, _ | _, _ | _⟩ <;> decide

namespace Machine

variable {σ : Type} [Sink σ] {m : Machine} {sink : σ} {n x y : Nat}

/-- The last comparison that the first `n` cycles completed was of two numbers. -/
def LastCompared (m : Machine) (sink : σ) (n x y : Nat) : Prop :=
  ∃ k, LastBefore (m.CompletesAt sink .cmp) n k ∧ (m.after sink k).1.operandNumbers = (x, y)

theorem forall_not_or_exists_lastCompared (m : Machine) (sink : σ) (n : Nat) :
    (∀ k < n, ¬ m.CompletesAt sink .cmp k) ∨ ∃ x y, m.LastCompared sink n x y := by
  refine (forall_not_or_exists_lastBefore _ n).imp_right ?_
  rintro ⟨k, hlast⟩
  exact ⟨_, _, k, hlast, rfl⟩

theorem LastCompared.bits_flags (h : m.LastCompared sink n x y) :
    (m.after sink n).1.flags.bits.toNat =
      if x < y then 0b100 else if y < x then 0b010 else 0b001 := by
  obtain ⟨k, hlast, hxy⟩ := h
  have hsince : (m.after sink n).1.flags = (m.after sink (k + 1)).1.flags :=
    hlast.eq (f := fun j => (m.after sink j).1.flags) fun _ => flags_cycle_of_not
  have hbits : (m.after sink (k + 1)).1.flags.bits.toNat = _ := hlast.1.2.bits_flags
  rw [hsince, hbits, hxy]

theorem LastCompared.one_bit (h : m.LastCompared sink n x y) :
    (m.after sink n).1.flags.bits.toNat ∈ [0b001, 0b010, 0b100] := by
  rw [h.bits_flags]
  split
  · decide
  · split <;> decide

theorem flags_after_of_forall_not (h : ∀ k < n, ¬ m.CompletesAt sink .cmp k) :
    (m.after sink n).1.flags = m.flags :=
  eq_of_forall_not (f := fun j => (m.after sink j).1.flags) (fun _ => flags_cycle_of_not)
    (Nat.zero_le n) fun j _ => h j

/-- If the flags were empty at the beginning, they say equal exactly after a comparison of equal
values. -/
theorem equal_after_iff (hempty : m.flags = .empty) :
    (m.after sink n).1.flags.equal = true ↔ ∃ x, m.LastCompared sink n x x := by
  rw [Flags.equal_eq_true_iff]
  constructor
  · intro hodd
    rcases m.forall_not_or_exists_lastCompared sink n with hnone | ⟨x, y, hlast⟩
    · rw [flags_after_of_forall_not hnone, hempty] at hodd
      exact absurd hodd (by decide)
    · have hxy : x = y := by
        rw [hlast.bits_flags] at hodd
        split at hodd
        · omega
        · split at hodd <;> omega
      exact ⟨x, hxy ▸ hlast⟩
  · rintro ⟨x, hlast⟩
    rw [hlast.bits_flags, if_neg (Nat.lt_irrefl x), if_neg (Nat.lt_irrefl x)]

/-- No comparison yet, or the last one found two values that differ. -/
theorem equal_after_eq_false (hempty : m.flags = .empty)
    (h : (∀ k < n, ¬ m.CompletesAt sink .cmp k) ∨ ∃ x y, x ≠ y ∧ m.LastCompared sink n x y) :
    (m.after sink n).1.flags.equal = false := by
  rcases h with hnone | ⟨x, y, hne, hlast⟩
  · rw [flags_after_of_forall_not hnone, hempty]
    rfl
  · rw [← Bool.not_eq_true, Flags.equal_eq_true_iff, hlast.bits_flags]
    rcases Nat.lt_or_gt_of_ne hne with hlt | hgt
    · rw [if_pos hlt]
      decide
    · rw [if_neg (Nat.lt_asymm hgt), if_pos hgt]
      decide

/-- Where a jump goes on: a jump that is not taken ends at the address behind its operand. -/
theorem pc_cycle_jump {c : Condition} {r : Register} (hop : m.opcodeByte = c.opcode.byte)
    (hr : m.operandBytes.1 = r.byte) :
    (m.cycle sink).machine.pc = if c.holds m.flags then m.registers.get r else m.pc + 2 := by
  have hbytes : (Instruction.jump c r).bytes <+:
      [m.opcodeByte, m.operandBytes.1, m.operandBytes.2] := by
    rw [hop, hr]
    exact ⟨[m.operandBytes.2], rfl⟩
  have hnext : m.advance.pc = m.pc + 2 := by
    rw [advance, hop]
    cases c <;> rfl
  rw [cycle_of_bytes hbytes, ← hnext]
  show (if c.holds m.flags then _ else m.advance).pc = _
  split <;> rfl

/-- **The flags tell the last comparison.**  In a run from a new machine, whether or not some of
its cycles fail, the flags are empty until a comparison completes.  From then on they are the one
bit that relates the two values that the last comparison read, whatever the registers hold by
now.  A jump on equality is taken if and only if the last comparison found equal values, and a
jump on inequality if and only if it did not or there was none; one that is not taken goes on
behind its operand. -/
theorem flags_of_last_comparison (memory : Memory) (sink : σ) (n : Nat) :
    let m := new memory
    let now := (m.after sink n).1
    let next := (m.after sink (n + 1)).1
    let never := ∀ k < n, ¬ m.CompletesAt sink .cmp k
    let equal := ∃ x, m.LastCompared sink n x x
    let unequal := ∃ x y, x ≠ y ∧ m.LastCompared sink n x y
    (now.flags = .empty ↔ never) ∧
      (¬ never → ∃ x y, m.LastCompared sink n x y) ∧
      (∀ x y, m.LastCompared sink n x y →
        now.flags.bits.toNat = if x < y then 0b100 else if y < x then 0b010 else 0b001) ∧
      now.flags.bits.toNat ∈ [0b000, 0b001, 0b010, 0b100] ∧
      ∀ r : Register, now.operandBytes.1 = r.byte →
        (now.opcodeByte = Opcode.jeq.byte →
          (equal → next.pc = now.registers.get r) ∧
            (never ∨ unequal → next.pc = now.pc + 2)) ∧
        (now.opcodeByte = Opcode.jne.byte →
          (never ∨ unequal → next.pc = now.registers.get r) ∧
            (equal → next.pc = now.pc + 2)) := by
  intro m now next never equal unequal
  have hcompared : ¬ never → ∃ x y, m.LastCompared sink n x y :=
    (m.forall_not_or_exists_lastCompared sink n).resolve_left
  have hempty : never → now.flags = .empty := flags_after_of_forall_not
  have hequal : equal → now.flags.equal = true := (equal_after_iff rfl).2
  have hunequal : never ∨ unequal → now.flags.equal = false := equal_after_eq_false rfl
  refine ⟨⟨fun hflags => ?_, hempty⟩, hcompared, fun x y hlast => hlast.bits_flags, ?_,
    fun r hr => ⟨fun hop => ?_, fun hop => ?_⟩⟩
  · by_contra hsome
    obtain ⟨x, y, hlast⟩ := hcompared hsome
    have hbit : now.flags.bits.toNat ∈ [0b001, 0b010, 0b100] := hlast.one_bit
    rw [hflags] at hbit
    exact absurd hbit (by decide)
  · by_cases hnever : never
    · rw [hempty hnever]
      decide
    · obtain ⟨x, y, hlast⟩ := hcompared hnever
      exact List.mem_cons_of_mem _ hlast.one_bit
  · have hpc : next.pc = if now.flags.equal then now.registers.get r else now.pc + 2 :=
      pc_cycle_jump (c := .equal) hop hr
    rw [hpc]
    refine ⟨fun h => if_pos (hequal h), fun h => if_neg ?_⟩
    rw [hunequal h]
    exact Bool.false_ne_true
  · have hpc : next.pc = if !now.flags.equal then now.registers.get r else now.pc + 2 :=
      pc_cycle_jump (c := .notEqual) hop hr
    rw [hpc]
    refine ⟨fun h => if_pos ?_, fun h => if_neg ?_⟩
    · rw [hunequal h]
      rfl
    · rw [hequal h]
      exact Bool.false_ne_true

/-- `LDI R0 9`, `CMP R0 R0`, `LDI R0 32` and `JEQ R0`: the register changes after the
comparison. -/
def compareThenLoad : Memory :=
  Memory.zero.writeAll 0 [0x82, 0x00, 0x09, 0xA7, 0x00, 0x00, 0x82, 0x00, 0x20, 0x55, 0x00]

theorem flags_of_last_comparison_compareThenLoad :
    (new compareThenLoad).LastCompared (#[] : Array Byte) 3 9 9 ∧
      ((new compareThenLoad).after (#[] : Array Byte) 3).1.flags.bits.toNat = 0b001 ∧
      ((new compareThenLoad).after (#[] : Array Byte) 4).1.pc = 0x20 := by
  have hcompares : (new compareThenLoad).CompletesAt (#[] : Array Byte) .cmp 1 :=
    ⟨by decide, .compared 0 0 (Flags.compare 9 9), rfl⟩
  have hlast : (new compareThenLoad).LastCompared (#[] : Array Byte) 3 9 9 := by
    refine ⟨1, ⟨⟨by decide, hcompares⟩, fun j hj => ?_⟩, by decide⟩
    obtain ⟨hlt, hop, -⟩ := hj
    by_contra hgt
    obtain rfl : j = 2 := by omega
    exact absurd hop (by decide)
  obtain ⟨-, -, hbits, -, hjump⟩ := flags_of_last_comparison compareThenLoad (#[] : Array Byte) 3
  have htarget : ((new compareThenLoad).after (#[] : Array Byte) 3).1.registers.get 0 = 0x20 := by
    decide
  refine ⟨hlast, hbits 9 9 hlast, ?_⟩
  exact (((hjump 0 (by decide)).1 (by decide)).1 ⟨9, hlast⟩).trans htarget

end Machine

end ByteMachine
