/-
Instructions that can be exchanged.

Two instructions that do not meet can be carried out in either order.  That they do not meet is
told by footprints: neither writes a component that the other reads or writes.

* `Machine.perform_comm` — such instructions, one after the other;
* `Call.Independent` — what this comes to for two calls: it is told by the registers that their
  operand bytes name, and by the opcodes for the other components;
* `Call.Independent.disjoint` — the instructions of independent calls do not meet;
* `Machine.callAll_swap` — independent calls that succeed one after the other do so in the other
  order, with the same effects, and leave the same.

Two halts write the same component, and the same to it: they are the one case in which footprints
do not tell what the order is worth.
-/
import ByteMachine.Proofs.Calls
import ByteMachine.Proofs.Footprint

namespace ByteMachine

/-- An instruction carried out on what a step left. -/
def Step.next {σ : Type} [Sink σ] (s : Step σ) (i : Instruction) : Step σ :=
  s.machine.perform s.sink i

namespace Machine

variable {σ : Type} [Sink σ] {m : Machine} {sink : σ} {i j : Instruction} {e f : Effect}

/-- Two instructions with disjoint footprints have the same effects in the other order, and leave
the same. -/
theorem perform_comm (hij : ∀ x ∈ i.writes, x ∉ j.reads ∧ x ∉ j.writes)
    (hji : ∀ x ∈ j.writes, x ∉ i.reads ∧ x ∉ i.writes)
    (hi : (m.perform sink i).outcome = .ok e)
    (hj : ((m.perform sink i).next j).outcome = .ok f) :
    (m.perform sink j).outcome = .ok f ∧ ((m.perform sink j).next i).outcome = .ok e ∧
      ((m.perform sink j).next i).machine = ((m.perform sink i).next j).machine ∧
      ((m.perform sink j).next i).sink = ((m.perform sink i).next j).sink := by
  -- Each instruction meets what it would have met without the other.
  have hwithout : ∀ x ∈ j.reads, (m.perform sink i).component x = m.component sink x :=
    fun x hx => component_perform m sink fun hw => (hij x hw).1 hx
  have hwith : ∀ x ∈ i.reads, m.component sink x = (m.perform sink j).component x :=
    fun x hx => (component_perform m sink fun hw => (hji x hw).1 hx).symm
  obtain ⟨hfirst, hwritten⟩ := perform_congr hwithout hj
  obtain ⟨hsecond, hwritten'⟩ := perform_congr hwith hi
  have hcomponents : ∀ x, ((m.perform sink j).next i).component x =
      ((m.perform sink i).next j).component x := by
    intro x
    by_cases hx : x ∈ i.writes
    · calc ((m.perform sink j).next i).component x
        _ = (m.perform sink i).component x := hwritten' x hx
        _ = ((m.perform sink i).next j).component x := (component_perform _ _ (hij x hx).2).symm
    · by_cases hy : x ∈ j.writes
      · calc ((m.perform sink j).next i).component x
          _ = (m.perform sink j).component x := component_perform _ _ hx
          _ = ((m.perform sink i).next j).component x := hwritten x hy
      · calc ((m.perform sink j).next i).component x
          _ = (m.perform sink j).component x := component_perform _ _ hx
          _ = m.component sink x := component_perform _ _ hy
          _ = (m.perform sink i).component x := (component_perform _ _ hx).symm
          _ = ((m.perform sink i).next j).component x := (component_perform _ _ hy).symm
  have hfetched : ((m.perform sink j).next i).machine.fetched =
      ((m.perform sink i).next j).machine.fetched := by
    simp only [Step.next, fetched_perform]
  obtain ⟨hmachine, hsink⟩ := eq_of_component hcomponents hfetched
  exact ⟨hfirst, hsecond, hmachine, hsink⟩

end Machine

namespace Call

/-- The operand bytes that name a register to read, and 7 if the stack pointer is read. -/
def reads (c : Call) : List Byte :=
  match c.opcode with
  | .push => [c.first, 7]
  | .pop => [7]
  | .add | .mul | .div | .and | .cmp => [c.first, c.second]
  | .prn | .jmp | .jeq | .jne => [c.first]
  | .hlt | .ldi => []

/-- The operand bytes that name a register to write, and 7 if the stack pointer is written. -/
def writes (c : Call) : List Byte :=
  match c.opcode with
  | .push => [7]
  | .pop => [c.first, 7]
  | .ldi | .add | .mul | .div | .and => [c.first]
  | .hlt | .prn | .cmp | .jmp | .jeq | .jne => []

/-- Neither call writes a register that the other reads or writes, and they do not both compare,
print or jump, nor does one compare and the other ask for what was found. -/
structure Independent (c d : Call) : Prop where
  left : ∀ x ∈ c.writes, x ∉ d.reads ∧ x ∉ d.writes
  right : ∀ x ∈ d.writes, x ∉ c.reads ∧ x ∉ c.writes
  compares : ¬ (c.opcode = .cmp ∧ d.opcode = .cmp)
  prints : ¬ (c.opcode = .prn ∧ d.opcode = .prn)
  jumps : ¬ (c.opcode.isJump = true ∧ d.opcode.isJump = true)
  compareLeft : c.opcode = .cmp → d.opcode ≠ .jeq ∧ d.opcode ≠ .jne
  compareRight : d.opcode = .cmp → c.opcode ≠ .jeq ∧ c.opcode ≠ .jne

theorem Independent.symm {c d : Call} (h : c.Independent d) : d.Independent c where
  left := h.right
  right := h.left
  compares := fun ⟨hd, hc⟩ => h.compares ⟨hc, hd⟩
  prints := fun ⟨hd, hc⟩ => h.prints ⟨hc, hd⟩
  jumps := fun ⟨hd, hc⟩ => h.jumps ⟨hc, hd⟩
  compareLeft := h.compareRight
  compareRight := h.compareLeft

end Call

namespace Instruction

variable {i : Instruction}

/-- An instruction that has to do with the memory moves the stack pointer. -/
theorem pointer_mem_writes (h : .memory ∈ i.reads ∨ .memory ∈ i.writes) :
    .register .stackPointer ∈ i.writes := by
  cases i with
  | push r | pop r => simp [writes]
  | jump c r => cases c <;> simp [reads, writes] at h
  | _ => simp [reads, writes] at h

theorem opcode_eq_cmp (h : .flags ∈ i.writes) : i.opcode = .cmp := by
  cases i with
  | compare => rfl
  | _ => simp [writes] at h

theorem opcode_of_flags (h : .flags ∈ i.reads) : i.opcode = .jeq ∨ i.opcode = .jne := by
  cases i with
  | jump c r =>
    cases c with
    | always => simp [reads] at h
    | equal => exact .inl rfl
    | notEqual => exact .inr rfl
  | _ => simp [reads] at h

theorem isJump_opcode (h : .pc ∈ i.reads ∨ .pc ∈ i.writes) : i.opcode.isJump = true := by
  cases i with
  | jump c r => cases c <;> rfl
  | _ => simp [reads, writes] at h

theorem opcode_eq_prn (h : .sink ∈ i.reads ∨ .sink ∈ i.writes) : i.opcode = .prn := by
  cases i with
  | print => rfl
  | jump c r => cases c <;> simp [reads, writes] at h
  | _ => simp [reads, writes] at h

theorem eq_halt (h : .state ∈ i.reads ∨ .state ∈ i.writes) : i = .halt := by
  cases i with
  | halt => rfl
  | jump c r => cases c <;> simp [reads, writes] at h
  | _ => simp [reads, writes] at h

end Instruction

/-- The operand byte that names a component, if the component is a register. -/
def Component.byte? : Component → Option Byte
  | register r => some r.byte
  | memory | flags | pc | state | sink => none

namespace Call

variable {c d : Call} {i j : Instruction} {r : Register}

/-- The registers that an instruction reads are those that the bytes of its call name. -/
theorem reads_eq (hread : c.read = .ok i) : c.reads = i.reads.filterMap Component.byte? := by
  obtain ⟨o, a, b⟩ := c
  obtain ⟨rfl, hoperands⟩ : i.opcode = o ∧ i.operands <+: [a, b] := read_eq_ok_iff.1 hread
  cases i with
  | halt => rfl
  | load r v | print r | push r | pop r =>
    obtain ⟨rfl, -⟩ := List.cons_prefix_cons.1 hoperands
    rfl
  | jump condition r =>
    obtain ⟨rfl, -⟩ := List.cons_prefix_cons.1 hoperands
    cases condition <;> rfl
  | compute f r s =>
    obtain ⟨rfl, hsecond⟩ := List.cons_prefix_cons.1 hoperands
    obtain ⟨rfl, -⟩ := List.cons_prefix_cons.1 hsecond
    cases f <;> rfl
  | compare r s =>
    obtain ⟨rfl, hsecond⟩ := List.cons_prefix_cons.1 hoperands
    obtain ⟨rfl, -⟩ := List.cons_prefix_cons.1 hsecond
    rfl

theorem writes_eq (hread : c.read = .ok i) : c.writes = i.writes.filterMap Component.byte? := by
  obtain ⟨o, a, b⟩ := c
  obtain ⟨rfl, hoperands⟩ : i.opcode = o ∧ i.operands <+: [a, b] := read_eq_ok_iff.1 hread
  cases i with
  | halt | print | push | compare => rfl
  | load r v | pop r =>
    obtain ⟨rfl, -⟩ := List.cons_prefix_cons.1 hoperands
    rfl
  | jump condition r => cases condition <;> rfl
  | compute f r s =>
    obtain ⟨rfl, -⟩ := List.cons_prefix_cons.1 hoperands
    cases f <;> rfl

theorem byte_mem_reads (hread : c.read = .ok i) (h : .register r ∈ i.reads) :
    r.byte ∈ c.reads := by
  rw [reads_eq hread]
  exact List.mem_filterMap.2 ⟨.register r, h, rfl⟩

theorem byte_mem_writes (hread : c.read = .ok i) (h : .register r ∈ i.writes) :
    r.byte ∈ c.writes := by
  rw [writes_eq hread]
  exact List.mem_filterMap.2 ⟨.register r, h, rfl⟩

/-- The instructions of independent calls do not meet, but for two halts. -/
theorem Independent.disjoint (h : c.Independent d) (hc : c.read = .ok i) (hd : d.read = .ok j)
    (hhalt : ¬ (i = .halt ∧ j = .halt)) :
    ∀ x ∈ i.writes, x ∉ j.reads ∧ x ∉ j.writes := by
  have hopc : i.opcode = c.opcode := (read_eq_ok_iff.1 hc).1
  have hopd : j.opcode = d.opcode := (read_eq_ok_iff.1 hd).1
  intro x hx
  rw [← not_or]
  intro hmeet
  cases x with
  | register r =>
    have hr := h.left _ (byte_mem_writes hc hx)
    rcases hmeet with hmeet | hmeet
    · exact hr.1 (byte_mem_reads hd hmeet)
    · exact hr.2 (byte_mem_writes hd hmeet)
  | memory =>
    -- Both move the stack pointer then.
    have hpointer := h.left _ (byte_mem_writes hc (Instruction.pointer_mem_writes (.inr hx)))
    exact hpointer.2 (byte_mem_writes hd (Instruction.pointer_mem_writes hmeet))
  | flags =>
    have hcmp : c.opcode = .cmp := hopc.symm.trans (Instruction.opcode_eq_cmp hx)
    rcases hmeet with hmeet | hmeet
    · obtain ⟨hjeq, hjne⟩ := h.compareLeft hcmp
      rcases Instruction.opcode_of_flags hmeet with hj | hj
      · exact hjeq (hopd.symm.trans hj)
      · exact hjne (hopd.symm.trans hj)
    · exact h.compares ⟨hcmp, hopd.symm.trans (Instruction.opcode_eq_cmp hmeet)⟩
  | pc =>
    have hi := Instruction.isJump_opcode (.inr hx)
    have hj := Instruction.isJump_opcode hmeet
    rw [hopc] at hi
    rw [hopd] at hj
    exact h.jumps ⟨hi, hj⟩
  | state => exact hhalt ⟨Instruction.eq_halt (.inr hx), Instruction.eq_halt hmeet⟩
  | sink =>
    have hi := Instruction.opcode_eq_prn (.inr hx)
    have hj := Instruction.opcode_eq_prn hmeet
    exact h.prints ⟨hopc.symm.trans hi, hopd.symm.trans hj⟩

end Call

namespace Machine

variable {σ : Type} [Sink σ] {m : Machine} {sink : σ} {c d : Call} {i j : Instruction}
  {e f : Effect}

theorem call_of_read (h : c.read = .ok i) (m : Machine) (sink : σ) :
    m.call sink c = m.perform sink i := by
  rw [call_eq_issue, h]
  rfl

/-- Two calls that succeed are two instructions that do. -/
theorem exists_of_succeeds (h : (m.callAll sink [c, d]).Succeeds) :
    ∃ i j e f, c.read = .ok i ∧ d.read = .ok j ∧ (m.perform sink i).outcome = .ok e ∧
      ((m.perform sink i).next j).outcome = .ok f := by
  obtain ⟨e, hc, hrest⟩ := succeeds_callAll_cons.1 h
  obtain ⟨f, hd, -⟩ := succeeds_callAll_cons.1 hrest
  rw [call_eq_issue] at hc
  obtain ⟨i, hi, hissue⟩ := issue_ok hc
  rw [hissue] at hc
  rw [call_of_read hi, call_eq_issue] at hd
  obtain ⟨j, hj, hissue'⟩ := issue_ok hd
  rw [hissue'] at hd
  exact ⟨i, j, e, f, hi, hj, hc, hd⟩

theorem callAll_pair (hc : c.read = .ok i) (hd : d.read = .ok j)
    (hi : (m.perform sink i).outcome = .ok e)
    (hj : ((m.perform sink i).next j).outcome = .ok f) :
    m.callAll sink [c, d] = ⟨((m.perform sink i).next j).machine,
      ((m.perform sink i).next j).sink, [.ok e, .ok f]⟩ := by
  have hfirst : (m.call sink c).outcome = .ok e := by rw [call_of_read hc, hi]
  have hsecond : ((m.perform sink i).machine.call (m.perform sink i).sink d).outcome = .ok f := by
    rw [call_of_read hd]
    exact hj
  rw [callAll_cons_ok hfirst, call_of_read hc, callAll_cons_ok hsecond, call_of_read hd]
  rfl

/-- **Independent instructions commute.**  Let neither of two calls write a register that the other
reads or writes, let them not both compare, print or jump, and let none of them compare if the
other jumps by what was found.  If they succeed one after the other, then they succeed in the other
order as well: each has the effect that it had, and the machine and the sink are the same at the
end. -/
theorem callAll_swap (m : Machine) (sink : σ) (h : c.Independent d)
    (hcd : (m.callAll sink [c, d]).Succeeds) :
    (m.callAll sink [d, c]).Succeeds ∧
      (m.callAll sink [d, c]).machine = (m.callAll sink [c, d]).machine ∧
      (m.callAll sink [d, c]).sink = (m.callAll sink [c, d]).sink ∧
      (m.callAll sink [d, c]).outcomes = (m.callAll sink [c, d]).outcomes.reverse := by
  obtain ⟨i, j, e, f, hc, hd, hi, hj⟩ := exists_of_succeeds hcd
  have hcomm : (m.perform sink j).outcome = .ok f ∧ ((m.perform sink j).next i).outcome = .ok e ∧
      ((m.perform sink j).next i).machine = ((m.perform sink i).next j).machine ∧
      ((m.perform sink j).next i).sink = ((m.perform sink i).next j).sink := by
    by_cases hhalt : i = .halt ∧ j = .halt
    · obtain ⟨rfl, rfl⟩ := hhalt
      cases hi
      cases hj
      exact ⟨rfl, rfl, rfl, rfl⟩
    · have hhalt' : ¬ (j = .halt ∧ i = .halt) := fun hboth => hhalt ⟨hboth.2, hboth.1⟩
      exact perform_comm (h.disjoint hc hd hhalt) (h.symm.disjoint hd hc hhalt') hi hj
  obtain ⟨hfirst, hsecond, hmachine, hsink⟩ := hcomm
  rw [callAll_pair hc hd hi hj, callAll_pair hd hc hfirst hsecond]
  refine ⟨?_, hmachine, hsink, rfl⟩
  intro fault hfault
  simp at hfault

/-- R1 holds 2 and R2 holds 9. -/
def twoAndNine : Machine :=
  { new .zero with registers := ⟨#v[0, 2, 9, 0, 0, 0, 0, 0xF4]⟩ }

/-- A push reads R1 and moves the stack pointer, and a division reads R1 and writes R2. -/
theorem callAll_swap_pushDivide :
    (twoAndNine.callAll (#[] : Array Byte) [⟨.push, 1, 0⟩, ⟨.div, 2, 1⟩]).Succeeds ∧
      (twoAndNine.callAll (#[] : Array Byte) [⟨.div, 2, 1⟩, ⟨.push, 1, 0⟩]).outcomes =
        [.ok (.computed .div 2 1 9 2 4), .ok (.pushed 1 2 0xF3)] := by
  have houtcomes :
      (twoAndNine.callAll (#[] : Array Byte) [⟨.push, 1, 0⟩, ⟨.div, 2, 1⟩]).outcomes =
        [.ok (.pushed 1 2 0xF3), .ok (.computed .div 2 1 9 2 4)] := rfl
  have hsucceeds :
      (twoAndNine.callAll (#[] : Array Byte) [⟨.push, 1, 0⟩, ⟨.div, 2, 1⟩]).Succeeds := by
    intro fault hfault
    rw [houtcomes] at hfault
    simp at hfault
  have hindependent : Call.Independent ⟨.push, 1, 0⟩ ⟨.div, 2, 1⟩ :=
    ⟨List.forall_mem_singleton.2 (by decide), List.forall_mem_singleton.2 (by decide),
      by decide, by decide, by decide, by decide, by decide⟩
  obtain ⟨-, -, -, hswapped⟩ := callAll_swap twoAndNine (#[] : Array Byte) hindependent hsucceeds
  refine ⟨hsucceeds, ?_⟩
  rw [hswapped, houtcomes]
  rfl

end Machine

end ByteMachine
