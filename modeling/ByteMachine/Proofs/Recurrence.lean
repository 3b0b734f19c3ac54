/-
Runs that come back to where they were.

How a machine that runs goes on is decided by its `Configuration`: memory, registers, flags and
program counter.  The address fetched last is not a part of it, since a cycle replaces that
address before anything looks at it.

* `Machine.Alike.cycle_eq` — machines that differ in the address fetched last have the same cycle;
* `Machine.Loops.not_ends` — a run that was in one configuration twice goes through the same cycles
  again and again, and so never ends;
* `Configuration.card_eq` — the number of configurations;
* `Machine.exists_loops` — a run that goes on for so many cycles was in one of them twice;
* `Machine.never_ends_iff_loops` — the runs that never end are those that loop.

A sink that refuses values could end a run that loops.  The sink here collects values and takes
them all.
-/
import ByteMachine.Proofs.Output
import Mathlib.Data.FinEnum
import Mathlib.SetTheory.Cardinal.Finite
import Mathlib.Tactic.Ring

namespace ByteMachine

/-- What decides how a machine that runs goes on. -/
structure Configuration where
  memory : Memory
  registers : Registers
  flags : Flags
  pc : Address

/-! ### How many configurations there are -/

theorem Machine.configurations_eq : configurations = 8 * 256 ^ 265 := by
  decide +kernel

/-- A memory is the bytes that its addresses hold. -/
def Memory.equiv : Memory ≃ (Address → Byte) where
  toFun := Memory.read
  invFun f := ⟨Vector.ofFn fun i : Fin 256 => f (UInt8.ofFin i)⟩
  left_inv m := by
    refine Memory.ext_read fun a => ?_
    simp [Memory.read]
  right_inv f := by
    funext a
    simp [Memory.read]

/-- A register file is the bytes that its registers hold. -/
def Registers.equiv : Registers ≃ (Register → Byte) where
  toFun := Registers.get
  invFun f := ⟨Vector.ofFn f⟩
  left_inv rs := by
    refine Registers.ext_get fun r => ?_
    simp [Registers.get]
  right_inv f := by
    funext r
    simp [Registers.get]

def Flags.equiv : Flags ≃ Bool × Bool × Bool where
  toFun f := (f.less, f.greater, f.equal)
  invFun b := ⟨b.1, b.2.1, b.2.2⟩

namespace Configuration

/-- The bytes of memory and registers, three bits of flags and one byte more. -/
def equiv :
    Configuration ≃ (Address → Byte) × (Register → Byte) × (Bool × Bool × Bool) × Address where
  toFun c := (Memory.equiv c.memory, Registers.equiv c.registers, Flags.equiv c.flags, c.pc)
  invFun c := ⟨Memory.equiv.symm c.1, Registers.equiv.symm c.2.1, Flags.equiv.symm c.2.2.1, c.2.2.2⟩
  left_inv c := by simp
  right_inv c := by simp

instance : Finite Configuration := Finite.of_equiv _ equiv.symm

theorem card_eq : Nat.card Configuration = Machine.configurations := by
  have hbyte : Nat.card Byte = 256 := by
    have hfin : Nat.card Byte = Nat.card (Fin UInt8.size) :=
      Nat.card_congr ⟨UInt8.toFin, UInt8.ofFin, fun _ => rfl, fun _ => rfl⟩
    rw [hfin, Nat.card_fin]
  have hflags : Nat.card (Bool × Bool × Bool) = 8 := by simp
  have hproduct : ∀ b : Nat, b ^ 256 * (b ^ 8 * (8 * b)) = 8 * b ^ 265 := by
    intro b
    ring
  rw [Nat.card_congr equiv, Nat.card_prod, Nat.card_prod, Nat.card_prod, Nat.card_fun,
    Nat.card_fun, hbyte, hflags, Nat.card_fin]
  simp only [hproduct, Machine.configurations_eq]

end Configuration

namespace Machine

def configuration (m : Machine) : Configuration := ⟨m.memory, m.registers, m.flags, m.pc⟩

/-- The machines are the same but for the address fetched last. -/
def Alike (m n : Machine) : Prop := ∃ a, n = { m with fetched := a }

/-- The run is in the same configuration after two numbers of cycles, and has not ended by then. -/
def Loops (m : Machine) (values : Array Byte) (i j : Nat) : Prop :=
  i < j ∧ (∀ k < j, ¬ (m.nth values k).Ends) ∧
    (m.after values i).1.configuration = (m.after values j).1.configuration

/-! ### Machines in one configuration -/

namespace Alike

variable {σ τ : Type} [Sink σ] [Sink τ] {m n : Machine}

theorem of_configuration (h : m.configuration = n.configuration) (hstate : m.state = n.state) :
    m.Alike n := by
  refine ⟨n.fetched, ?_⟩
  cases m
  cases n
  cases h
  cases hstate
  rfl

theorem trans {l : Machine} (h : m.Alike n) (h' : n.Alike l) : m.Alike l := by
  obtain ⟨a, rfl⟩ := h
  obtain ⟨b, rfl⟩ := h'
  exact ⟨b, rfl⟩

/-- The address fetched last has no part in a cycle. -/
theorem cycle_eq (h : m.Alike n) (sink : σ) : m.cycle sink = n.cycle sink := by
  obtain ⟨a, rfl⟩ := h
  rfl

theorem offer?_eq (h : m.Alike n) : m.offer? = n.offer? := by
  obtain ⟨a, rfl⟩ := h
  rfl

/-- From the first cycle on, the machines are the same. -/
theorem after (h : m.Alike n) (s : σ) (t : τ) (k : Nat) :
    (m.after s k).1.Alike (n.after t k).1 := by
  cases k with
  | zero => exact h
  | succ k =>
    rw [machine_after_eq m s t, after_succ, after_succ, h.cycle_eq t]
    exact ⟨_, rfl⟩

theorem offers_eq (h : m.Alike n) (sink : σ) (k : Nat) : m.offers sink k = n.offers sink k :=
  List.filterMap_congr fun j _ => (h.after sink sink j).offer?_eq

end Alike

/-! ### Loops -/

namespace Loops

variable {m : Machine} {values : Array Byte} {i j : Nat}

theorem alike (h : m.Loops values i j) (hm : m.state = .running) (k : Nat) :
    (m.after values (i + k)).1.Alike (m.after values (j + k)).1 := by
  obtain ⟨hij, hgoes, hsame⟩ := h
  have hi : (m.after values i).1.state = .running :=
    running_after hm fun k hk => hgoes k (Nat.lt_trans hk hij)
  have hj : (m.after values j).1.state = .running := running_after hm hgoes
  rw [after_add, after_add]
  exact (Alike.of_configuration hsame (hi.trans hj.symm)).after _ _ k

theorem nth_eq (h : m.Loops values i j) (hm : m.state = .running) (k : Nat) :
    (m.nth values (j + k)).machine = (m.nth values (i + k)).machine ∧
      (m.nth values (j + k)).outcome = (m.nth values (i + k)).outcome := by
  rw [nth, nth, ← (h.alike hm k).cycle_eq]
  exact ⟨machine_cycle_eq _ _ _, outcome_cycle_collect _ _ _⟩

/-- Every cycle behind the first time in the configuration is one of those up to the second time. -/
theorem not_ends (h : m.Loops values i j) (hm : m.state = .running) (k : Nat) :
    ¬ (m.nth values k).Ends := by
  induction k using Nat.strongRecOn with
  | ind k ih =>
    by_cases hk : k < j
    · exact h.2.1 k hk
    · have hij := h.1
      obtain ⟨d, rfl⟩ : ∃ d, k = j + d := ⟨k - j, by omega⟩
      obtain ⟨hmachine, houtcome⟩ := h.nth_eq hm d
      rw [Step.Ends, hmachine, houtcome]
      exact ih (i + d) (by omega)

/-- The machine after any number of turns of the loop. -/
theorem alike_turn (h : m.Loops values i j) (hm : m.state = .running) (t : Nat) :
    (m.after values i).1.Alike (m.after values (i + t * (j - i))).1 := by
  induction t with
  | zero =>
    rw [Nat.zero_mul]
    exact ⟨_, rfl⟩
  | succ t ih =>
    have hturn : i + (t + 1) * (j - i) = j + t * (j - i) := by
      have hij := h.1
      rw [Nat.succ_mul]
      omega
    rw [hturn]
    exact ih.trans (h.alike hm _)

/-- Every turn of the loop prints the same values. -/
theorem toList_turn (h : m.Loops values i j) (hm : m.state = .running) (t : Nat) :
    (m.after values (i + (t + 1) * (j - i))).2.toList =
      (m.after values (i + t * (j - i))).2.toList ++
        (m.after values i).1.offers values (j - i) := by
  rw [Nat.succ_mul, ← Nat.add_assoc, toList_after_add, ← (h.alike_turn hm t).offers_eq]

end Loops

variable {m : Machine} {values : Array Byte}

/-- A run of as many cycles as there are configurations was in one of them twice. -/
theorem exists_loops (h : ∀ k < Nat.card Configuration, ¬ (m.nth values k).Ends) :
    ∃ i j, m.Loops values i j := by
  let visit : Fin (Nat.card Configuration + 1) → Configuration :=
    fun k => (m.after values k).1.configuration
  have htwice : ¬ Function.Injective visit := by
    intro hinjective
    have hle := Nat.card_le_card_of_injective visit hinjective
    rw [Nat.card_fin] at hle
    exact Nat.not_succ_le_self _ hle
  have hloops : ∀ a b, a < b → visit a = visit b → m.Loops values a b := by
    intro a b hab hsame
    exact ⟨hab, fun k hk => h k (Nat.lt_of_lt_of_le hk (Nat.le_of_lt_succ b.isLt)), hsame⟩
  obtain ⟨a, b, hsame, hne⟩ := Function.not_injective_iff.1 htwice
  rcases lt_or_gt_of_ne hne with hlt | hgt
  · exact ⟨a, b, hloops a b hlt hsame⟩
  · exact ⟨b, a, hloops b a hgt hsame.symm⟩

/-- A run that ends does so within as many cycles. -/
theorem lt_configurations {k : Nat} (hm : m.state = .running) (h : m.EndsAt values k) :
    k < configurations := by
  refine Nat.lt_of_not_le fun hle => ?_
  rw [← Configuration.card_eq] at hle
  obtain ⟨i, j, hloops⟩ := exists_loops fun n hn => h.2 n (Nat.lt_of_lt_of_le hn hle)
  exact hloops.not_ends hm k h.1

/-- The runs that never end are those of which no cycle is an end. -/
theorem run_eq_none_iff {σ α : Type} [Sink σ] {sink : σ} (see : α → Turn → α)
    (hm : m.state = .running) (seen : α) :
    m.run see sink seen = Part.none ↔ ∀ k, ¬ (m.nth sink k).Ends := by
  constructor
  · intro h k hk
    obtain ⟨j, hj⟩ := exists_endsAt hk
    rw [run_eq_runUpTo see hm hj] at h
    exact Part.some_ne_none _ h
  · intro h
    exact run_eq_none see hm (fun k hk => h k hk.1) seen

/-- **A run never ends if and only if it loops.**  A machine that runs, and prints to a list of
values, goes on for ever exactly if it is in one configuration after `i` and after `j` cycles,
`i < j`, without having ended by then; the address fetched last need not be the same.  What it
prints in the cycles between, it prints again in every further turn of as many cycles.  There are
`8 * 256 ^ 265` configurations, and a run that has not ended after so many cycles never will. -/
theorem never_ends_iff_loops {α : Type} (see : α → Turn → α) (m : Machine)
    (hm : m.state = .running) (values : Array Byte) (seen : α) :
    (m.run see values seen = Part.none ↔ ∃ i j, m.Loops values i j) ∧
      (∀ i j, m.Loops values i j → ∃ block : List Byte,
        (m.after values j).2.toList = (m.after values i).2.toList ++ block ∧
        ∀ t, (m.after values (i + (t + 1) * (j - i))).2.toList =
          (m.after values (i + t * (j - i))).2.toList ++ block) ∧
      Nat.card Configuration = 8 * 256 ^ 265 ∧
      ((∀ k < 8 * 256 ^ 265, ¬ (m.nth values k).Ends) →
        m.run see values seen = Part.none) := by
  have hnone : (∃ i j, m.Loops values i j) → m.run see values seen = Part.none := by
    rintro ⟨i, j, hloops⟩
    exact (run_eq_none_iff see hm seen).2 (hloops.not_ends hm)
  have hcard := Configuration.card_eq.trans configurations_eq
  refine ⟨⟨fun h => ?_, hnone⟩, fun i j hloops => ?_, hcard, fun h => ?_⟩
  · exact exists_loops fun k _ => (run_eq_none_iff see hm seen).1 h k
  · have hturn := hloops.toList_turn hm
    refine ⟨_, ?_, hturn⟩
    have hfirst := hturn 0
    rwa [Nat.zero_add, Nat.one_mul, Nat.zero_mul, Nat.add_zero,
      Nat.add_sub_cancel' (Nat.le_of_lt hloops.1)] at hfirst
  · rw [← hcard] at h
    exact hnone (exists_loops h)

/-- `PRN R7` and `JMP R0`, with 0 in `R0`. -/
def printAgain : Machine := new (Memory.zero.writeAll 0 [0x47, 0x07, 0x54, 0x00])

/-- The loop starts over with another address fetched last. -/
theorem never_ends_iff_loops_printAgain :
    printAgain.state = .running ∧ printAgain.Loops #[] 0 2 ∧
      (printAgain.after (#[] : Array Byte) 0).1.fetched ≠
        (printAgain.after (#[] : Array Byte) 2).1.fetched ∧
      printAgain.run count (#[] : Array Byte) 0 = Part.none ∧
      ∀ t, (printAgain.after (#[] : Array Byte) (0 + (t + 1) * 2)).2.toList =
        (printAgain.after (#[] : Array Byte) (0 + t * 2)).2.toList ++ [0xF4] := by
  have hgoes : ∀ k < 2, ¬ (printAgain.nth (#[] : Array Byte) k).Ends := by
    intro k hk
    obtain rfl | rfl : k = 0 ∨ k = 1 := by omega
    · exact Step.not_ends_iff.2 ⟨⟨.printed 7 0xF4, rfl⟩, rfl⟩
    · exact Step.not_ends_iff.2 ⟨⟨.jumped .always 0 0 true, rfl⟩, rfl⟩
  have hloops : printAgain.Loops #[] 0 2 := ⟨by decide, hgoes, rfl⟩
  obtain ⟨hnever, hprints, -⟩ := never_ends_iff_loops count printAgain rfl #[] 0
  obtain ⟨block, hfirst, hturn⟩ := hprints 0 2 hloops
  have hblock : block = [0xF4] := hfirst.symm
  exact ⟨rfl, hloops, by decide, hnever.2 ⟨0, 2, hloops⟩, hblock ▸ hturn⟩

end Machine

end ByteMachine
