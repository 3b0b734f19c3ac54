/-
A stored program runs as the list of its instructions.

A list of calls is stored as their bytes in a row, each with as many operand bytes as its
opcode has (`Call.encodeAll`).  Cycles over the stored bytes then do what the units do when
they are given the calls directly:

* `Machine.cycle_eq_call` — one cycle over the bytes of a call is that call, moved to where
  the bytes stand;
* `Machine.runCycles_encoded` — so are the cycles of a run, as long as nothing is pushed over
  the bytes that are still to come;
* `Machine.runCycles_stored` — the same for a list that was written to memory, with what each
  number of cycles leaves behind.

The list is free of jumps, but it may be written around the end of the memory and may halt
before its end: a cycle does not ask for the run state.
-/
import ByteMachine.Proofs.Calls
import ByteMachine.Proofs.Iteration
import ByteMachine.Proofs.Placement

namespace ByteMachine

namespace Call

/-- The bytes of a call in memory. -/
def encode (c : Call) : List Byte :=
  c.opcode.byte :: [c.first, c.second].take (operandCount c.opcode.byte).toNat

def encodeAll (cs : List Call) : List Byte := cs.flatMap encode

/-- Where the call with an index begins if a list is stored from an address on. -/
def address (p : Address) (cs : List Call) (k : Nat) : Address :=
  p + UInt8.ofNat (encodeAll (cs.take k)).length

theorem address_zero (p : Address) (cs : List Call) : address p cs 0 = p := by
  simp [address, encodeAll]

theorem address_cons_succ (p : Address) (c : Call) (cs : List Call) (k : Nat) :
    address p (c :: cs) (k + 1) = address (p + UInt8.ofNat c.encode.length) cs k := by
  rw [address, address, UInt8.add_assoc, ← UInt8.ofNat_add]
  simp [encodeAll]

theorem length_encode (c : Call) :
    c.encode.length = 1 + (operandCount c.opcode.byte).toNat := by
  have hcount : ∀ o : Opcode, (operandCount o.byte).toNat ≤ 2 := by
    intro o
    cases o <;> decide
  have := hcount c.opcode
  simp [encode]
  omega

theorem ofNat_length_encode (c : Call) :
    UInt8.ofNat c.encode.length = 1 + operandCount c.opcode.byte := by
  rw [length_encode, UInt8.ofNat_add, UInt8.ofNat_toNat]
  rfl

end Call

/-- Nothing is pushed to one of the `n` addresses from `p` on. -/
def Spares (outcomes : List (Except Fault Effect)) (p : Address) (n : Nat) : Prop :=
  ∀ r v top, .ok (.pushed r v top) ∈ outcomes → ∀ i < n, top ≠ p + UInt8.ofNat i

theorem Spares.mono {outcomes part : List (Except Fault Effect)} {p : Address} {n : Nat}
    (h : Spares outcomes p n) (hsub : part ⊆ outcomes) : Spares part p n :=
  fun r v top hmem => h r v top (hsub hmem)

theorem Spares.drop {outcomes : List (Except Fault Effect)} {p : Address} {n k : Nat}
    (h : Spares outcomes p (n + k)) : Spares outcomes (p + UInt8.ofNat n) k := by
  intro r v top hmem i hi
  rw [UInt8.add_assoc, ← UInt8.ofNat_add]
  exact h r v top hmem (n + i) (by omega)

/-- The onlooker that keeps the outcomes. -/
def keepOutcomes (seen : List (Except Fault Effect)) (t : Turn) : List (Except Fault Effect) :=
  seen ++ [t.outcome]

namespace Machine

variable {σ α : Type} [Sink σ]

theorem runCycles_succ_ok {m : Machine} {sink : σ} {e : Effect}
    (h : (m.cycle sink).outcome = .ok e) (see : α → Turn → α) (n : Nat) (seen : α) :
    m.runCycles see (n + 1) sink seen = (m.cycle sink).machine.runCycles see n
      (m.cycle sink).sink (see seen ⟨m.snapshot, .ok e⟩) := by
  rw [← h]
  exact runUntil_succ_ok see rfl h n seen

theorem runCycles_succ_error {m : Machine} {sink : σ} {f : Fault}
    (h : (m.cycle sink).outcome = .error f) (see : α → Turn → α) (n : Nat) (seen : α) :
    m.runCycles see (n + 1) sink seen = ⟨(m.cycle sink).machine, (m.cycle sink).sink,
      .failed f, see seen ⟨m.snapshot, .error f⟩⟩ := by
  rw [← h]
  exact runUntil_succ_error see rfl h n seen

/-- The bytes of a call in memory are read as that call. -/
theorem decode_of_holds {m : Machine} {c : Call} (h : m.memory.Holds m.pc c.encode) :
    Instruction.decode m.opcodeByte m.operandBytes.1 m.operandBytes.2 = c.read := by
  have hbyte : ∀ i (hi : i < c.encode.length), m.memory.read (m.pc + UInt8.ofNat i) = c.encode[i] :=
    fun i hi => h i hi
  have hlen := c.length_encode
  have hop : m.opcodeByte = c.opcode.byte := by
    have h0 := hbyte 0 (by omega)
    rwa [show m.pc + UInt8.ofNat 0 = m.pc from UInt8.add_zero m.pc] at h0
  rw [hop, ← c.decode_eq_read]
  refine Instruction.decode_congr (fun h1 => ?_) fun h2 => ?_
  · rw [operandBytes, show m.pc + 1 = m.pc + UInt8.ofNat 1 from rfl, hbyte 1 (by omega)]
    simp [Call.encode]
  · rw [operandBytes, show m.pc + 2 = m.pc + UInt8.ofNat 2 from rfl, hbyte 2 (by omega)]
    simp [Call.encode]

/-- One cycle over the bytes of a call is that call. -/
theorem cycle_eq_call {m : Machine} {sink : σ} {p a : Address} {c : Call}
    (hc : c.opcode.isJump = false) (h : m.memory.Holds p c.encode) :
    (m.moveTo p a).cycle sink =
      (m.call sink c).moveTo (p + UInt8.ofNat c.encode.length) p := by
  have hop : (m.moveTo p a).opcodeByte = c.opcode.byte := by
    have h0 := h 0 (by simp [Call.encode])
    rwa [show p + UInt8.ofNat 0 = p from UInt8.add_zero p] at h0
  -- Without a jump, it makes no difference that the program counter has moved already.
  have hjump : ∀ i, c.read = .ok i → i.opcode.isJump = false := by
    intro i hi
    rw [(Call.read_eq_ok_iff.1 hi).1]
    exact hc
  have hadvance : (m.moveTo p a).advance = m.moveTo (p + UInt8.ofNat c.encode.length) p := by
    rw [advance_eq_moveTo, hop, ← c.ofNat_length_encode]
    rfl
  rw [cycle, decode_of_holds h, hadvance, call_eq_issue]
  exact issue_moveTo hjump m sink _ _

/-- A call that pushes nothing over a row of bytes leaves the row in place. -/
theorem holds_call {m : Machine} {sink : σ} {c : Call} {p : Address} {bs : List Byte}
    (h : m.memory.Holds p bs) (hpush : Spares [(m.call sink c).outcome] p bs.length) :
    (m.call sink c).machine.memory.Holds p bs := by
  rw [call_eq_issue] at hpush ⊢
  cases hread : c.read with
  | error cause => exact h
  | ok i =>
    rw [hread] at hpush
    rcases m.memory_perform sink i with hsame | ⟨r, v, top, hout, hwrite⟩
    · show (m.perform sink i).machine.memory.Holds p bs
      rwa [hsame]
    · show (m.perform sink i).machine.memory.Holds p bs
      rw [hwrite]
      exact h.write_of_ne (hpush r v top (by simp [issue, hout])) v

/-- Cycles over the bytes of a list of calls, wherever the program counter was before: the
outcomes are those of the calls, each fault placed where its bytes begin. -/
theorem runCycles_encoded {m : Machine} {sink : σ} {p a : Address} {cs : List Call}
    (hjump : ∀ c ∈ cs, c.opcode.isJump = false)
    (hheld : m.memory.Holds p (Call.encodeAll cs))
    (hpush : Spares (m.callAll sink cs).outcomes p (Call.encodeAll cs).length)
    {k : Nat} (hk : k ≤ cs.length) (seen : List (Except Fault Effect)) :
    let run := (m.moveTo p a).runCycles keepOutcomes k sink seen
    let direct := m.callAll sink (cs.take k)
    run.sink = direct.sink ∧
      run.seen = seen ++ direct.outcomes.mapIdx
        (fun j o => o.mapError fun f => f.moveTo (Call.address p cs j)) ∧
      ∃ b, run.machine = direct.machine.moveTo (Call.address p cs direct.outcomes.length) b := by
  -- The program counter is always at the bytes of the next call, and these are still in place.
  induction k generalizing m sink p a cs seen with
  | zero =>
    refine ⟨rfl, by simp [runCycles, runUntil, callAll], a, ?_⟩
    show m.moveTo p a = m.moveTo (Call.address p cs 0) a
    rw [Call.address_zero]
  | succ k ih =>
    cases cs with
    | nil => simp at hk
    | cons c cs =>
      have hc := hjump c (by simp)
      rw [Call.encodeAll, List.flatMap_cons] at hheld hpush
      rw [List.length_append] at hpush
      obtain ⟨hhere, hrest⟩ := Memory.holds_append.1 hheld
      have hcycle : (m.moveTo p a).cycle sink = _ := cycle_eq_call hc hhere
      cases hout : (m.call sink c).outcome with
      | error f =>
        -- The fault ends both, and it is placed at the bytes of this call.
        have hfault : ((m.moveTo p a).cycle sink).outcome = .error (f.moveTo p) := by
          rw [hcycle, Step.moveTo, hout]
          rfl
        rw [List.take_succ_cons, callAll_cons_error hout, runCycles_succ_error hfault, hcycle]
        refine ⟨rfl, ?_, p, ?_⟩
        · simp only [keepOutcomes, List.mapIdx_cons, List.mapIdx_nil, Call.address_zero]
          rfl
        · simp [Call.address_cons_succ, Call.address_zero, Step.moveTo]
      | ok e =>
        -- The rest is a list of its own, stored behind the bytes of this call.
        have hok : ((m.moveTo p a).cycle sink).outcome = .ok e := by
          rw [hcycle, Step.moveTo, hout]
          rfl
        rw [callAll_cons_ok hout] at hpush
        have hspared : Spares [(m.call sink c).outcome] (p + UInt8.ofNat c.encode.length)
            (Call.encodeAll cs).length := hpush.drop.mono (by simp [Calls.after, hout])
        have hspareds : Spares (callAll (m.call sink c).machine (m.call sink c).sink cs).outcomes
            (p + UInt8.ofNat c.encode.length) (Call.encodeAll cs).length :=
          hpush.drop.mono (by simp [Calls.after])
        obtain ⟨hsink, hseen, b, hmachine⟩ := ih (a := p) (fun d hd => hjump d (by simp [hd]))
          (holds_call hrest hspared) hspareds (by simpa using hk) (seen ++ [.ok e])
        rw [List.take_succ_cons, callAll_cons_ok hout, runCycles_succ_ok hok, hcycle]
        refine ⟨hsink, hseen.trans ?_, b, hmachine.trans ?_⟩
        · simp only [Calls.after, List.singleton_append, List.mapIdx_cons,
            Call.address_cons_succ, List.append_assoc]
          rfl
        · simp [Calls.after, Call.address_cons_succ]

/-- The machine with a list of calls written to memory, about to fetch the first. -/
def store (m : Machine) (p : Address) (calls : List Call) : Machine :=
  { m with memory := m.memory.writeAll p (Call.encodeAll calls), pc := p }

/-- **A stored program is its list of instructions.**  Let a list of calls without jumps take
at most 256 bytes, and let no call push over one of them.  Then any number of cycles up to the
length of the list leaves the memory, registers, flags, run state and sink of the same number
of calls; the outcomes are the same, stopping at the first fault, but for the address of that
fault, which is where the bytes of its call begin; and if there is no fault, the program
counter is behind the bytes of the calls that were made. -/
theorem runCycles_stored (m : Machine) (sink : σ) (p : Address) (calls : List Call)
    (hjump : ∀ c ∈ calls, c.opcode.isJump = false)
    (hlen : (Call.encodeAll calls).length ≤ 256)
    (hpush : Spares ((m.store p calls).callAll sink calls).outcomes p
      (Call.encodeAll calls).length)
    (k : Nat) (hk : k ≤ calls.length) :
    let start := m.store p calls
    let run := start.runCycles keepOutcomes k sink []
    let direct := start.callAll sink (calls.take k)
    run.machine.memory = direct.machine.memory ∧
      run.machine.registers = direct.machine.registers ∧
      run.machine.flags = direct.machine.flags ∧
      run.machine.state = direct.machine.state ∧
      run.sink = direct.sink ∧
      run.seen = direct.outcomes.mapIdx
        (fun j o => o.mapError fun f => f.moveTo (Call.address p calls j)) ∧
      (direct.Succeeds → run.machine.pc = Call.address p calls k) := by
  intro start run direct
  have hheld : start.memory.Holds p (Call.encodeAll calls) := m.memory.holds_writeAll p hlen
  obtain ⟨hsink, hseen, b, hmachine⟩ :=
    runCycles_encoded (a := start.fetched) hjump hheld hpush hk []
  have hrun : run.machine =
      direct.machine.moveTo (Call.address p calls direct.outcomes.length) b := hmachine
  refine ⟨?_, ?_, ?_, ?_, hsink, hseen.trans (List.nil_append _),
    fun hok => ?_⟩
  · rw [hrun]; rfl
  · rw [hrun]; rfl
  · rw [hrun]; rfl
  · rw [hrun]; rfl
  · have hlength : direct.outcomes.length = k := by
      rw [length_outcomes_callAll hok, List.length_take, Nat.min_eq_left hk]
    rw [hrun, ← hlength]
    rfl

/-- Load, push and print a value, then divide by zero. -/
def pushPrintDivide : List Call :=
  [⟨.ldi, 0, 8⟩, ⟨.push, 0, 0⟩, ⟨.prn, 0, 0⟩, ⟨.div, 0, 1⟩]

theorem outcomes_pushPrintDivide :
    (((new .zero).store 0xFC pushPrintDivide).callAll (#[] : Array Byte) pushPrintDivide).outcomes =
      [.ok (.loaded 0 8), .ok (.pushed 0 8 0xF3), .ok (.printed 0 8),
        .error ⟨.divisionByZero, 0⟩] := rfl

theorem runCycles_stored_pushPrintDivide :
    Spares (((new .zero).store 0xFC pushPrintDivide).callAll
        (#[] : Array Byte) pushPrintDivide).outcomes 0xFC 10 ∧
      (((new .zero).store 0xFC pushPrintDivide).runCycles keepOutcomes 4
          (#[] : Array Byte) []).seen =
        [.ok (.loaded 0 8), .ok (.pushed 0 8 0xF3), .ok (.printed 0 8),
          .error ⟨.divisionByZero, 0x03⟩] := by
  have hpush : Spares (((new .zero).store 0xFC pushPrintDivide).callAll
      (#[] : Array Byte) pushPrintDivide).outcomes 0xFC 10 := by
    intro r v top hmem
    rw [outcomes_pushPrintDivide] at hmem
    simp at hmem
    obtain ⟨-, -, rfl⟩ := hmem
    decide
  obtain ⟨-, -, -, -, -, hseen, -⟩ :=
    runCycles_stored (new .zero) (#[] : Array Byte) 0xFC pushPrintDivide (by decide)
      (by decide) hpush 4 (by decide)
  refine ⟨hpush, hseen.trans ?_⟩
  show List.mapIdx _ (callAll _ _ pushPrintDivide).outcomes = _
  rw [outcomes_pushPrintDivide]
  rfl

end Machine

end ByteMachine
