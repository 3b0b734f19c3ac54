/-
The stack in memory is a list.

A machine is `Stacked` over an address `s` with a list of values if the stack pointer is that
many addresses below `s`, modulo 256, and the values stand there in order.  A push puts a value
in front of the list and a pop takes the first one away:

* `Machine.call_moves` — the three things that a call can do to the stack;
* `Machine.Stacked.push`, `Machine.Stacked.pop` — what they do to the list;
* `Machine.stacked_callAll` — what lies below stays as it is while the calls of a list push
  and pop above it;
* `Machine.callAll_stack` — every pop gets what the push that it matches put there.

The list may be as long as the memory.  With 256 values the stack pointer is where it began
and every address belongs to the stack; one value more would be written over the first.
-/
import ByteMachine.Proofs.Depth
import ByteMachine.Proofs.Placement

namespace ByteMachine

/-- Whether the first operand of an instruction is a register that it stores to. -/
def Opcode.stores : Opcode → Bool
  | ldi | pop | add | mul | div | and => true
  | hlt | prn | push | cmp | jmp | jeq | jne => false

/-- A call that does not store to the stack pointer, which pushes and pops move all the same. -/
def Call.SparesPointer (c : Call) : Prop := c.opcode.stores = true → c.first ≠ 7

instance (c : Call) : Decidable c.SparesPointer :=
  inferInstanceAs (Decidable (c.opcode.stores = true → c.first ≠ 7))

theorem Registers.sp_set_of_ne (rs : Registers) {r : Register} (hr : r.byte ≠ 7) (v : Byte) :
    (rs.set r v).sp = rs.sp := by
  refine rs.get_set_of_ne v fun h => hr ?_
  rw [h]
  rfl

namespace Machine

/-- What a call that spares the stack pointer does to the stack: it pushes the value of a
register, pops a value into one, or leaves the stack alone. -/
inductive Moves (m n : Machine) (c : Call) : Prop
  | push (r : Register) (opcode : c.opcode = .push) (first : c.first = r.byte)
      (pointer : n.registers.sp = m.registers.sp - 1)
      (memory : n.memory = m.memory.write (m.registers.sp - 1) (m.registers.get r))
  | pop (r : Register) (opcode : c.opcode = .pop) (first : c.first = r.byte)
      (pointer : n.registers.sp = m.registers.sp + 1) (memory : n.memory = m.memory)
      (register : n.registers.get r = m.memory.read m.registers.sp)
  | keep (rise : c.opcode.rise = 0) (pointer : n.registers.sp = m.registers.sp)
      (memory : n.memory = m.memory)

/-- The values of a list are on the stack, the last of them right below `s`. -/
structure Stacked (m : Machine) (s : Address) (vs : List Byte) : Prop where
  pointer : m.registers.sp + UInt8.ofNat vs.length = s
  held : m.memory.Holds m.registers.sp vs

variable {σ : Type} [Sink σ] {m n : Machine} {sink : σ} {s : Address} {us vs : List Byte}

theorem call_moves {c : Call} {e : Effect} (hc : c.SparesPointer)
    (h : (m.call sink c).outcome = .ok e) : Moves m (m.call sink c).machine c := by
  obtain ⟨i, hop, hoperands, hcall⟩ := call_ok h
  rw [hcall] at h ⊢
  rw [Call.SparesPointer, ← hop] at hc
  cases i with
  | halt => exact .keep (by rw [← hop]; rfl) rfl rfl
  | load r v =>
    obtain ⟨hr, -⟩ := List.cons_prefix_cons.1 hoperands
    exact .keep (by rw [← hop]; rfl) (Registers.sp_set_of_ne _ (hr ▸ hc rfl) v) rfl
  | print r =>
    rw [(perform_print_ok h).1]
    exact .keep (by rw [← hop]; rfl) rfl rfl
  | push r =>
    obtain ⟨hr, -⟩ := List.cons_prefix_cons.1 hoperands
    exact .push r hop.symm hr.symm (Registers.sp_setSp ..) rfl
  | pop r =>
    obtain ⟨hr, -⟩ := List.cons_prefix_cons.1 hoperands
    have hne : r.byte ≠ 7 := hr ▸ hc rfl
    refine .pop r hop.symm hr.symm ?_ rfl ?_
    · show (Registers.setSp _ ((m.registers.set r _).sp + 1)).sp = _
      rw [Registers.sp_setSp, Registers.sp_set_of_ne _ hne]
    · -- The pointer is moved after the value is stored, but it is another register.
      show ((m.registers.set r _).set .stackPointer _).get r = _
      rw [Registers.get_set_of_ne, Registers.get_set_self]
      rintro rfl
      exact hne rfl
  | jump c r =>
    refine .keep (by rw [← hop]; cases c <;> rfl) ?_ ?_
    · simp only [perform]
      split <;> rfl
    · simp only [perform]
      split <;> rfl
  | compute f r t =>
    obtain ⟨hr, -⟩ := List.cons_prefix_cons.1 hoperands
    obtain ⟨v, -, hmachine, -⟩ := perform_compute_ok h
    have hne : r.byte ≠ 7 := hr ▸ hc (by cases f <;> rfl)
    rw [hmachine]
    exact .keep (by rw [← hop]; cases f <;> rfl) (Registers.sp_set_of_ne _ hne v) rfl
  | compare r t => exact .keep (by rw [← hop]; rfl) rfl rfl

namespace Stacked

theorem nil (m : Machine) : m.Stacked m.registers.sp [] :=
  ⟨UInt8.add_zero _, Memory.holds_nil _ _⟩

theorem toNat_pointer (h : m.Stacked s vs) :
    (m.registers.sp.toNat : Int) = (s.toNat - vs.length) % 256 := by
  rw [← h.pointer, UInt8.toNat_add, UInt8.toNat_ofNat']
  have := m.registers.sp.toNat_lt
  omega

theorem push {v : Byte} (h : m.Stacked s vs) (hroom : vs.length < 256)
    (hpointer : n.registers.sp = m.registers.sp - 1)
    (hmemory : n.memory = m.memory.write (m.registers.sp - 1) v) : n.Stacked s (v :: vs) := by
  have hback : m.registers.sp - 1 + 1 = m.registers.sp := UInt8.sub_add_cancel _ _
  constructor
  · rw [hpointer, List.length_cons, ← add_one_add_ofNat, hback, h.pointer]
  · rw [hpointer, hmemory, Memory.holds_cons, hback]
    refine ⟨Memory.read_write_self .., h.held.write_of_ne (fun i hi => ?_) v⟩
    -- With fewer than 256 values, none of them is where the new one goes.
    have hne : m.registers.sp - 1 + UInt8.ofNat 0 ≠ m.registers.sp - 1 + UInt8.ofNat (i + 1) :=
      add_ofNat_ne_add_ofNat _ (by omega) (by omega) (by omega)
    rwa [← add_one_add_ofNat, hback, show m.registers.sp - 1 + UInt8.ofNat 0 = _ from
      UInt8.add_zero _] at hne

theorem top {v : Byte} (h : m.Stacked s (v :: vs)) : m.memory.read m.registers.sp = v :=
  (Memory.holds_cons.1 h.held).1

theorem pop {v : Byte} (h : m.Stacked s (v :: vs))
    (hpointer : n.registers.sp = m.registers.sp + 1) (hmemory : n.memory = m.memory) :
    n.Stacked s vs := by
  constructor
  · rw [hpointer, add_one_add_ofNat]
    exact h.pointer
  · rw [hpointer, hmemory]
    exact (Memory.holds_cons.1 h.held).2

theorem keep (h : m.Stacked s vs) (hpointer : n.registers.sp = m.registers.sp)
    (hmemory : n.memory = m.memory) : n.Stacked s vs := by
  constructor
  · rw [hpointer]
    exact h.pointer
  · rw [hpointer, hmemory]
    exact h.held

end Stacked

/-- One call on a stack that has `us` above `vs` and neither runs empty of `us` nor full. -/
theorem Moves.stacked {c : Call} (hmoves : Moves m n c) (h : m.Stacked s (us ++ vs))
    (hlow : 0 ≤ us.length + c.opcode.rise)
    (hhigh : us.length + c.opcode.rise ≤ 256 - vs.length) :
    ∃ us', n.Stacked s (us' ++ vs) ∧ (us'.length : Int) = us.length + c.opcode.rise := by
  cases hmoves with
  | push r opcode first pointer memory =>
    rw [opcode, Opcode.rise] at hhigh ⊢
    refine ⟨m.registers.get r :: us, h.push ?_ pointer memory, by simp⟩
    rw [List.length_append]
    omega
  | pop r opcode first pointer memory register =>
    rw [opcode, Opcode.rise] at hlow ⊢
    cases us with
    | nil => simp at hlow
    | cons u us => exact ⟨us, h.pop pointer memory, by rw [List.length_cons]; omega⟩
  | keep rise pointer memory => exact ⟨us, h.keep pointer memory, by omega⟩

/-- Memory changes only where a push puts its value. -/
theorem Moves.read_ne {c : Call} {x : Address} (hmoves : Moves m n c)
    (hx : n.memory.read x ≠ m.memory.read x) :
    c.opcode.rise = 1 ∧ m.registers.sp - 1 = x := by
  cases hmoves with
  | push r opcode first pointer memory =>
    refine ⟨by rw [opcode]; rfl, Decidable.byContradiction fun hne => hx ?_⟩
    rw [memory, Memory.read_write_of_ne _ _ hne]
  | pop r opcode first pointer memory register => exact absurd (by rw [memory]) hx
  | keep rise pointer memory => exact absurd (by rw [memory]) hx

variable {calls : List Call}

/-- Calls on a stack that has `us` above `vs`: if they neither run empty of `us` nor full, they
leave something else above the same `vs`. -/
theorem stacked_callAll (hspare : ∀ c ∈ calls, c.SparesPointer)
    (hok : (m.callAll sink calls).Succeeds) (h : m.Stacked s (us ++ vs))
    (hdepth : Within us.length (256 - vs.length) calls) :
    ∃ us', (m.callAll sink calls).machine.Stacked s (us' ++ vs) ∧
      (us'.length : Int) = us.length + depth calls := by
  induction calls generalizing m sink us with
  | nil => exact ⟨us, h, by simp⟩
  | cons c calls ih =>
    obtain ⟨e, hc, hcalls⟩ := succeeds_callAll_cons.1 hok
    have hmoves := call_moves (hspare c (by simp)) hc
    obtain ⟨us₁, hstacked, hlength⟩ := hmoves.stacked h hdepth.head.1 hdepth.head.2
    have hrest := hdepth.tail
    rw [← hlength] at hrest
    obtain ⟨us₂, hlast, hsum⟩ :=
      ih (fun d hd => hspare d (by simp [hd])) hcalls hstacked hrest
    rw [callAll_cons_ok hc]
    refine ⟨us₂, hlast, ?_⟩
    rw [hsum, hlength, depth_cons, Int.add_assoc]

theorem exists_stacked (hspare : ∀ c ∈ calls, c.SparesPointer)
    (hok : (m.callAll sink calls).Succeeds) (hdepth : Within 0 256 calls) :
    ∃ vs, (m.callAll sink calls).machine.Stacked m.registers.sp vs ∧
      (vs.length : Int) = depth calls := by
  have h : m.Stacked m.registers.sp ([] ++ []) := .nil m
  obtain ⟨vs, hstacked, hlength⟩ := stacked_callAll hspare hok h hdepth
  rw [List.append_nil] at hstacked
  exact ⟨vs, hstacked, by simpa using hlength⟩

theorem stacked_of_balanced (hspare : ∀ c ∈ calls, c.SparesPointer)
    (hok : (m.callAll sink calls).Succeeds) (hbalanced : Balanced calls) (h : m.Stacked s vs)
    (hdepth : Within 0 (256 - vs.length) calls) :
    (m.callAll sink calls).machine.Stacked s vs := by
  have hnone : m.Stacked s ([] ++ vs) := h
  obtain ⟨us, hstacked, hlength⟩ := stacked_callAll hspare hok hnone hdepth
  rw [hbalanced.settled] at hlength
  obtain rfl : us = [] := List.length_eq_zero_iff.1 (by simpa using hlength)
  exact hstacked

/-- The value that a pop finds on top is the one that the push it matches read. -/
theorem get_of_onTop {done before between : List Call} {push pop : Call}
    (hspare : ∀ c ∈ done ++ [pop], c.SparesPointer)
    (hok : (m.callAll sink (done ++ [pop])).Succeeds) (hdepth : Within 0 256 done)
    (hpop : pop.opcode = .pop) (htop : OnTop done before push between) :
    ∃ r r', push.first = Register.byte r ∧ pop.first = Register.byte r' ∧
      (m.callAll sink (done ++ [pop])).machine.registers.get r' =
        (m.callAll sink before).machine.registers.get r := by
  obtain ⟨rfl, hpush, hbetween⟩ := htop
  -- The run in four parts: before the push, the push, between, and the pop.
  rw [List.append_assoc, List.cons_append] at hspare hok ⊢
  obtain ⟨hokBefore, hok⟩ := succeeds_callAll_append.1 hok
  obtain ⟨e, hokPush, hok⟩ := succeeds_callAll_cons.1 hok
  obtain ⟨hokBetween, hok⟩ := succeeds_callAll_append.1 hok
  obtain ⟨e', hokPop, -⟩ := succeeds_callAll_cons.1 hok
  rw [callAll_append hokBefore, callAll_cons_ok hokPush, callAll_append hokBetween,
    callAll_cons_ok hokPop]
  obtain ⟨vs, hbefore, hlength⟩ :=
    exists_stacked (fun c hc => hspare c (by simp [hc])) hokBefore hdepth.left
  have hroom := hdepth.right
  rw [Int.zero_add, ← hlength] at hroom
  have hrise : push.opcode.rise = 1 := by rw [hpush]; rfl
  cases call_moves (hspare push (by simp)) hokPush with
  | pop r opcode first pointer memory register => simp [hpush] at opcode
  | keep rise pointer memory => simp [hrise] at rise
  | push r opcode first pointer memory =>
    have hfull : vs.length < 256 := by
      have := hroom.head
      omega
    have hstacked := hbefore.push hfull pointer memory
    -- The calls between begin one deeper, and never come below that.
    have habove : ∀ v : Byte, Within 0 (256 - (v :: vs).length) between := by
      intro v k
      have := hbetween.nonneg k
      have := hroom.tail k
      rw [List.length_cons]
      omega
    have hlater := stacked_of_balanced (fun c hc => hspare c (by simp [hc])) hokBetween hbetween
      hstacked (habove _)
    cases call_moves (hspare pop (by simp)) hokPop with
    | push r' opcode => simp [hpop] at opcode
    | keep rise => simp [hpop, Opcode.rise] at rise
    | pop r' opcode' first' pointer' memory' register =>
      exact ⟨r, r', first, first', register.trans hlater.top⟩

theorem read_callAll_ne (hspare : ∀ c ∈ calls, c.SparesPointer)
    (hok : (m.callAll sink calls).Succeeds) (h : m.Stacked s us)
    (hdepth : Within us.length 256 calls) {x : Address}
    (hx : (m.callAll sink calls).machine.memory.read x ≠ m.memory.read x) :
    ∃ k i : Nat, 1 ≤ i ∧ (i : Int) ≤ us.length + depth (calls.take k) ∧ x = s - UInt8.ofNat i := by
  induction calls generalizing m sink us with
  | nil => exact absurd rfl hx
  | cons c calls ih =>
    obtain ⟨e, hc, hcalls⟩ := succeeds_callAll_cons.1 hok
    have hmoves := call_moves (hspare c (by simp)) hc
    -- The byte was changed by this call, or by a later one.
    by_cases hfirst : (m.call sink c).machine.memory.read x = m.memory.read x
    · rw [← hfirst, callAll_cons_ok hc] at hx
      rw [← us.append_nil] at h
      obtain ⟨us₁, hstacked, hlength⟩ := hmoves.stacked h hdepth.head.1 hdepth.head.2
      rw [List.append_nil] at hstacked
      have hrest := hdepth.tail
      rw [← hlength] at hrest
      obtain ⟨k, i, hi, hle, hxi⟩ :=
        ih (fun d hd => hspare d (by simp [hd])) hcalls hstacked hrest hx
      refine ⟨k + 1, i, hi, ?_, hxi⟩
      rw [List.take_succ_cons, depth_cons]
      omega
    · obtain ⟨hrise, hx⟩ := hmoves.read_ne hfirst
      refine ⟨1, us.length + 1, by omega, by simp [hrise], ?_⟩
      rw [← hx, UInt8.eq_sub_iff_add_eq, ← add_one_add_ofNat, UInt8.sub_add_cancel, h.pointer]

/-- A push or a pop of a register does not fail. -/
theorem call_ok_of_register (m : Machine) (sink : σ) {c : Call} (hrise : c.opcode.rise ≠ 0)
    (hfirst : c.first.toNat < 8) : ∃ e, (m.call sink c).outcome = .ok e := by
  obtain ⟨r, hr⟩ : ∃ r : Register, r.byte = c.first :=
    ⟨⟨_, hfirst⟩, UInt8.toNat_inj.1 (Register.toNat_byte _)⟩
  have hread : ∀ i : Instruction, i.opcode = c.opcode → i.operands <+: [c.first, c.second] →
      m.call sink c = m.perform sink i := by
    intro i hop hoperands
    rw [call_eq_issue, Call.read_eq_ok_iff.2 ⟨hop, hoperands⟩]
    rfl
  by_cases hpush : c.opcode = .push
  · rw [hread (.push r) hpush.symm ⟨[c.second], by rw [← hr]; rfl⟩]
    exact ⟨_, rfl⟩
  · by_cases hpop : c.opcode = .pop
    · rw [hread (.pop r) hpop.symm ⟨[c.second], by rw [← hr]; rfl⟩]
      exact ⟨_, rfl⟩
    · exact absurd (Opcode.rise_of_ne hpush hpop) hrise

/-- If only a push or a pop could have failed, and these name registers, no call did. -/
theorem succeeds_of_register (hregister : ∀ c ∈ calls, c.opcode.rise ≠ 0 → c.first.toNat < 8)
    (hothers : ∀ c f, (c, .error f) ∈ calls.zip (m.callAll sink calls).outcomes →
      c.opcode.rise ≠ 0) : (m.callAll sink calls).Succeeds := by
  induction calls generalizing m sink with
  | nil => exact fun f hf => absurd hf List.not_mem_nil
  | cons c calls ih =>
    rw [succeeds_callAll_cons]
    cases hc : (m.call sink c).outcome with
    | error f =>
      rw [callAll_cons_error hc] at hothers
      have hrise := hothers c f (by simp)
      obtain ⟨e, he⟩ := m.call_ok_of_register sink hrise (hregister c (by simp) hrise)
      rw [hc] at he
      cases he
    | ok e =>
      rw [callAll_cons_ok hc] at hothers
      refine ⟨e, rfl, ih (fun d hd => hregister d (by simp [hd])) fun d f hd => ?_⟩
      exact hothers d f (List.mem_cons_of_mem _ hd)

/-- **The stack is last in, first out.**  Let the pushes and pops of a list of calls name
registers and keep the depth from 0 to 256, and let the calls between them succeed and spare
the stack pointer.  Then all of them succeed; every pop has a push that it matches, and stores
the value that this push read from its register, be it the stack pointer before it moved; after
any number of calls the stack pointer is their depth below where it began, modulo 256; memory is
as it was but for the addresses below the stack pointer that the depth has reached; and a list
of depth 0 restores the stack pointer. -/
theorem callAll_stack (m : Machine) (sink : σ)
    (hregister : ∀ c ∈ calls, c.opcode.rise ≠ 0 → c.first.toNat < 8)
    (hspare : ∀ c ∈ calls, c.SparesPointer) (hdepth : Within 0 256 calls)
    (hothers : ∀ c f, (c, .error f) ∈ calls.zip (m.callAll sink calls).outcomes →
      c.opcode.rise ≠ 0) :
    let after := fun (part : List Call) => (m.callAll sink part).machine
    (m.callAll sink calls).Succeeds ∧
      (∀ done pop, done ++ [pop] <+: calls → pop.opcode = .pop →
        (∃ before push between, OnTop done before push between) ∧
        ∀ before push between, OnTop done before push between →
          ∃ r r', push.first = Register.byte r ∧ pop.first = Register.byte r' ∧
            (after (done ++ [pop])).registers.get r' = (after before).registers.get r) ∧
      (∀ k, ((after (calls.take k)).registers.sp.toNat : Int) =
        (m.registers.sp.toNat - depth (calls.take k)) % 256) ∧
      (∀ x, (after calls).memory.read x ≠ m.memory.read x →
        ∃ k i : Nat, 1 ≤ i ∧ (i : Int) ≤ depth (calls.take k) ∧
          x = m.registers.sp - UInt8.ofNat i) ∧
      (depth calls = 0 → (after calls).registers.sp = m.registers.sp) := by
  intro after
  have hok := succeeds_of_register hregister hothers
  have hprefix : ∀ part, part <+: calls → (∀ c ∈ part, c.SparesPointer) ∧
      (m.callAll sink part).Succeeds ∧ Within 0 256 part := by
    rintro part ⟨rest, rfl⟩
    exact ⟨fun c hc => hspare c (List.mem_append_left _ hc), (succeeds_callAll_append.1 hok).1,
      hdepth.left⟩
  have hpointer : ∀ k, ((after (calls.take k)).registers.sp.toNat : Int) =
      (m.registers.sp.toNat - depth (calls.take k)) % 256 := by
    intro k
    obtain ⟨hspare, hok, hdepth⟩ := hprefix _ (List.take_prefix k calls)
    obtain ⟨vs, hstacked, hlength⟩ := exists_stacked hspare hok hdepth
    rw [← hlength]
    exact hstacked.toNat_pointer
  refine ⟨hok, fun done pop hdone hpop => ⟨?_, fun before push between htop => ?_⟩, hpointer,
    fun x hx => ?_, fun hzero => ?_⟩
  · -- The depth after the pop is not negative, so the depth before it is positive.
    obtain ⟨-, -, hwithin⟩ := hprefix _ hdone
    have hlow := hwithin.whole.1
    rw [depth_append, depth_cons, hpop, depth_nil, Opcode.rise] at hlow
    exact exists_onTop (by omega)
  · obtain ⟨hspare, hok, hdepth⟩ := hprefix _ hdone
    exact get_of_onTop hspare hok hdepth.left hpop htop
  · obtain ⟨k, i, hi, hle, hxi⟩ :=
      read_callAll_ne hspare hok (Stacked.nil m) hdepth hx
    exact ⟨k, i, hi, by simpa using hle, hxi⟩
  · have hend := hpointer calls.length
    rw [List.take_length, hzero] at hend
    have := m.registers.sp.toNat_lt
    exact UInt8.toNat_inj.1 (by omega)

end Machine

/-- The stack pointer and a value are pushed across address 0, and popped into R1 and R2. -/
def acrossZero : List Call :=
  [⟨.ldi, 0, 5⟩, ⟨.push, 7, 0⟩, ⟨.push, 0, 0⟩, ⟨.add, 0, 0⟩, ⟨.prn, 0, 0⟩, ⟨.pop, 1, 0⟩,
    ⟨.pop, 2, 0⟩]

namespace Machine

/-- A machine whose stack has one address left before it wraps. -/
def nearZero : Machine := { new .zero with registers := Registers.initial.setSp 1 }

theorem callAll_stack_acrossZero :
    (∀ c ∈ acrossZero, c.opcode.rise ≠ 0 → c.first.toNat < 8) ∧
      (∀ c ∈ acrossZero, c.SparesPointer) ∧ Within 0 256 acrossZero ∧
      (nearZero.callAll (#[] : Array Byte) acrossZero).Succeeds ∧
      (nearZero.callAll (#[] : Array Byte) acrossZero).machine.registers.get 2 = 1 ∧
      (nearZero.callAll (#[] : Array Byte) acrossZero).machine.registers.sp = 1 := by
  have hregister : ∀ c ∈ acrossZero, c.opcode.rise ≠ 0 → c.first.toNat < 8 := by decide
  have hspare : ∀ c ∈ acrossZero, c.SparesPointer := by decide
  have hdepth : Within 0 256 acrossZero := by decide
  have houtcomes : (nearZero.callAll (#[] : Array Byte) acrossZero).outcomes =
      [.ok (.loaded 0 5), .ok (.pushed 7 1 0), .ok (.pushed 0 5 0xFF),
        .ok (.computed .add 0 0 5 5 10), .ok (.printed 0 10), .ok (.popped 1 5 0xFF),
        .ok (.popped 2 1 0)] := rfl
  have hothers : ∀ c f, (c, .error f) ∈
      acrossZero.zip (nearZero.callAll (#[] : Array Byte) acrossZero).outcomes →
      c.opcode.rise ≠ 0 := by
    intro c f hf
    rw [houtcomes] at hf
    simp [acrossZero] at hf
  obtain ⟨hok, hvalue, -, -, hrestored⟩ :=
    callAll_stack nearZero (#[] : Array Byte) hregister hspare hdepth hothers
  have hbetween : Balanced [⟨.push, 0, 0⟩, ⟨.add, 0, 0⟩, ⟨.prn, 0, 0⟩, ⟨.pop, 1, 0⟩] :=
    Balanced.wrap rfl rfl ((balanced_singleton rfl).append (balanced_singleton rfl))
  obtain ⟨r, r', hr, hr', hget⟩ := (hvalue (acrossZero.take 6) ⟨.pop, 2, 0⟩ List.prefix_rfl rfl).2
    [⟨.ldi, 0, 5⟩] ⟨.push, 7, 0⟩ _ ⟨rfl, rfl, hbetween⟩
  obtain rfl : 7 = r := Register.byte_inj.1 hr
  obtain rfl : 2 = r' := Register.byte_inj.1 hr'
  exact ⟨hregister, hspare, hdepth, hok, hget, hrestored rfl⟩

end Machine

end ByteMachine
