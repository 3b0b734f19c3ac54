/-
What an instruction reads and what it writes.

A machine and its sink have components: each register, the memory, the flags, the program counter,
the run state and the sink.  The footprint of an instruction is told by two lists of components,
and these are all that it has to do with:

* `Machine.component_perform` — a component that is not written is as before;
* `Machine.perform_congr` — whether the instruction succeeds, its effect and what it writes depend
  on the components that are read;
* `Machine.eq_of_component` — the components are all there is, but for the address fetched last,
  which no instruction changes (`Machine.fetched_perform`).

What is changed rather than replaced is read as well: a push reads the memory, a print the sink,
and a jump the program counter, which it keeps if it is not taken.
-/
import ByteMachine.Proofs.Output

namespace ByteMachine

/-- What a register holds after the same write to two register files. -/
theorem Registers.get_set_congr {rs ts : Registers} {r k : Register} (v : Byte)
    (h : r ≠ k → rs.get k = ts.get k) : (rs.set r v).get k = (ts.set r v).get k := by
  rw [get_set, get_set]
  split
  · rfl
  · next hne => exact h hne

/-- A pop into a register leaves the same there, and in the stack pointer, if the stack pointer was
the same. -/
theorem Registers.get_popped_congr {rs ts : Registers} {r k : Register} (h : rs.sp = ts.sp)
    (hk : k = r ∨ k = .stackPointer) (v : Byte) :
    ((rs.set r v).setSp ((rs.set r v).sp + 1)).get k =
      ((ts.set r v).setSp ((ts.set r v).sp + 1)).get k := by
  have hsp : (rs.set r v).sp = (ts.set r v).sp := get_set_congr v fun _ => h
  rw [hsp]
  refine get_set_congr _ fun hne => get_set_congr v fun hne' => ?_
  rcases hk with rfl | rfl
  · exact absurd rfl hne'
  · exact absurd rfl hne

/-- A component of a machine with its sink. -/
inductive Component where
  | register (r : Register)
  | memory | flags | pc | state | sink
deriving DecidableEq

/-- What a component holds. -/
abbrev Component.Content (σ : Type) : Component → Type
  | register _ => Byte
  | memory => Memory
  | flags => Flags
  | pc => Address
  | state => RunState
  | sink => σ

/-- A register that is not in a list keeps its value if one of the list is set. -/
theorem Registers.get_set_of_not_mem (rs : Registers) {r k : Register} (v : Byte)
    {xs : List Component} (hr : .register r ∈ xs) (hk : .register k ∉ xs) :
    (rs.set r v).get k = rs.get k := by
  refine rs.get_set_of_ne v ?_
  rintro rfl
  exact hk hr

namespace Instruction

/-- The components that an instruction depends on. -/
def reads : Instruction → List Component
  | halt | load .. => []
  | print r => [.register r, .sink]
  | push r => [.register r, .register .stackPointer, .memory]
  | pop _ => [.register .stackPointer, .memory]
  | jump .always r => [.register r, .pc]
  | jump .equal r | jump .notEqual r => [.register r, .pc, .flags]
  | compute _ r s | compare r s => [.register r, .register s]

/-- The components that an instruction changes. -/
def writes : Instruction → List Component
  | halt => [.state]
  | load r _ | compute _ r _ => [.register r]
  | print _ => [.sink]
  | push _ => [.register .stackPointer, .memory]
  | pop r => [.register r, .register .stackPointer]
  | jump .. => [.pc]
  | compare .. => [.flags]

end Instruction

namespace Machine

variable {σ : Type}

/-- What a component of a machine with its sink holds. -/
def component (m : Machine) (sink : σ) : (x : Component) → x.Content σ
  | .register r => m.registers.get r
  | .memory => m.memory
  | .flags => m.flags
  | .pc => m.pc
  | .state => m.state
  | .sink => sink

theorem eq_of_component {m n : Machine} {s t : σ} (h : ∀ x, m.component s x = n.component t x)
    (hfetched : m.fetched = n.fetched) : m = n ∧ s = t := by
  have hregisters : m.registers = n.registers := Registers.ext_get fun r => h (.register r)
  have hmemory : m.memory = n.memory := h .memory
  have hflags : m.flags = n.flags := h .flags
  have hpc : m.pc = n.pc := h .pc
  have hstate : m.state = n.state := h .state
  refine ⟨?_, h .sink⟩
  cases m
  cases n
  simp_all

end Machine

/-- What a component holds after a step. -/
def Step.component {σ : Type} (s : Step σ) (x : Component) : x.Content σ :=
  s.machine.component s.sink x

namespace Machine

variable {σ : Type} [Sink σ]

theorem fetched_perform (m : Machine) (sink : σ) (i : Instruction) :
    (m.perform sink i).machine.fetched = m.fetched := by
  cases i with
  | print r => rw [perform_print]
  | jump c r =>
    simp only [perform]
    split <;> rfl
  | compute f r s =>
    simp only [perform]
    split <;> rfl
  | _ => rfl

/-- An instruction leaves alone what it does not write. -/
theorem component_perform (m : Machine) (sink : σ) {i : Instruction} {x : Component}
    (h : x ∉ i.writes) : (m.perform sink i).component x = m.component sink x := by
  cases i with
  | halt =>
    cases x with
    | state => exact absurd (List.mem_singleton_self _) h
    | _ => rfl
  | load r v =>
    cases x with
    | register k => exact m.registers.get_set_of_not_mem v (List.mem_cons_self ..) h
    | _ => rfl
  | print r =>
    rw [perform_print]
    cases x with
    | sink => exact absurd (List.mem_singleton_self _) h
    | _ => rfl
  | push r =>
    cases x with
    | register k => exact m.registers.get_set_of_not_mem _ (List.mem_cons_self ..) h
    | memory => exact absurd (List.mem_cons_of_mem _ (List.mem_singleton_self _)) h
    | _ => rfl
  | pop r =>
    cases x with
    | register k =>
      have hpopped := m.registers.get_set_of_not_mem (m.memory.read m.registers.sp)
        (List.mem_cons_self ..) h
      have hpointer : .register .stackPointer ∈ (Instruction.pop r).writes :=
        List.mem_cons_of_mem _ (List.mem_singleton_self _)
      exact (Registers.get_set_of_not_mem _ _ hpointer h).trans hpopped
    | _ => rfl
  | jump c r =>
    simp only [perform]
    split
    · cases x with
      | pc => exact absurd (List.mem_singleton_self _) h
      | _ => rfl
    · rfl
  | compute f r s =>
    simp only [perform]
    split
    · rfl
    · cases x with
      | register k => exact m.registers.get_set_of_not_mem _ (List.mem_cons_self ..) h
      | _ => rfl
  | compare r s =>
    cases x with
    | flags => exact absurd (List.mem_singleton_self _) h
    | _ => rfl

variable {m n : Machine} {s t : σ} {i : Instruction} {e : Effect}

/-- An instruction does the same on two machines that hold the same where it reads. -/
theorem perform_congr (h : ∀ x ∈ i.reads, m.component s x = n.component t x)
    (he : (m.perform s i).outcome = .ok e) :
    (n.perform t i).outcome = .ok e ∧
      ∀ x ∈ i.writes, (n.perform t i).component x = (m.perform s i).component x := by
  cases i with
  | halt =>
    refine ⟨he, fun x hx => ?_⟩
    obtain rfl := List.mem_singleton.1 hx
    rfl
  | load r v =>
    refine ⟨he, fun x hx => ?_⟩
    obtain rfl := List.mem_singleton.1 hx
    exact (Registers.get_set_self ..).trans (Registers.get_set_self ..).symm
  | print r =>
    have hr : m.registers.get r = n.registers.get r := h (.register r) (List.mem_cons_self ..)
    obtain rfl : s = t := h .sink (by simp [Instruction.reads])
    -- The sink answers for itself, so it is the same that is asked.
    rw [perform_print] at he
    rw [perform_print, perform_print, ← hr]
    refine ⟨?_, fun x hx => ?_⟩
    · cases hanswer : (Sink.emit s (m.registers.get r)).2 with
      | none =>
        rw [hanswer] at he
        rw [← he, printOutcome, printOutcome, hr]
      | some error =>
        rw [hanswer] at he
        cases he
    · obtain rfl := List.mem_singleton.1 hx
      rfl
  | push r =>
    have hr : m.registers.get r = n.registers.get r := h (.register r) (List.mem_cons_self ..)
    have hsp : m.registers.sp = n.registers.sp :=
      h (.register .stackPointer) (by simp [Instruction.reads])
    have hmemory : m.memory = n.memory := h .memory (by simp [Instruction.reads])
    simp only [perform] at he ⊢
    refine ⟨by rw [← he, hr, hsp], fun x hx => ?_⟩
    rcases List.mem_cons.1 hx with rfl | hx
    · show (n.registers.setSp _).sp = (m.registers.setSp _).sp
      rw [Registers.sp_setSp, Registers.sp_setSp, hsp]
    · obtain rfl := List.mem_singleton.1 hx
      show n.memory.write _ _ = m.memory.write _ _
      rw [hmemory, hsp, hr]
  | pop r =>
    have hsp : m.registers.sp = n.registers.sp :=
      h (.register .stackPointer) (List.mem_cons_self ..)
    have hmemory : m.memory = n.memory := h .memory (by simp [Instruction.reads])
    simp only [perform, ← hsp, ← hmemory] at he ⊢
    refine ⟨he, fun x hx => ?_⟩
    rcases List.mem_cons.1 hx with rfl | hx
    · exact Registers.get_popped_congr hsp.symm (.inl rfl) _
    · obtain rfl := List.mem_singleton.1 hx
      exact Registers.get_popped_congr hsp.symm (.inr rfl) _
  | jump c r =>
    have hr : m.registers.get r = n.registers.get r := by
      refine h (.register r) ?_
      cases c <;> exact List.mem_cons_self ..
    have hpc : m.pc = n.pc := by
      refine h .pc ?_
      cases c <;> simp [Instruction.reads]
    have hholds : c.holds m.flags = c.holds n.flags := by
      cases c with
      | always => rfl
      | equal | notEqual =>
        have hflags : m.flags = n.flags := h .flags (by simp [Instruction.reads])
        rw [hflags]
    simp only [perform, ← hr, ← hholds] at he ⊢
    refine ⟨he, fun x hx => ?_⟩
    obtain rfl := List.mem_singleton.1 hx
    split
    · rfl
    · exact hpc.symm
  | compute f r u =>
    have hr : m.registers.get r = n.registers.get r := h (.register r) (List.mem_cons_self ..)
    have hu : m.registers.get u = n.registers.get u :=
      h (.register u) (by simp [Instruction.reads])
    simp only [perform, ← hr, ← hu] at he ⊢
    cases heval : f.eval? (m.registers.get r) (m.registers.get u) with
    | none =>
      rw [heval] at he
      cases he
    | some v =>
      rw [heval] at he
      refine ⟨he, fun x hx => ?_⟩
      obtain rfl := List.mem_singleton.1 hx
      exact (Registers.get_set_self ..).trans (Registers.get_set_self ..).symm
  | compare r u =>
    have hr : m.registers.get r = n.registers.get r := h (.register r) (List.mem_cons_self ..)
    have hu : m.registers.get u = n.registers.get u :=
      h (.register u) (by simp [Instruction.reads])
    simp only [perform, ← hr, ← hu] at he ⊢
    refine ⟨he, fun x hx => ?_⟩
    obtain rfl := List.mem_singleton.1 hx
    rfl

end Machine

end ByteMachine
