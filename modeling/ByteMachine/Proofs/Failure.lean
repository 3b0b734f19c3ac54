/-
What a failure leaves behind.

The machine can be asked for a cycle, or one of its units for an instruction with any operand
bytes; either is a `Request`.  A request that fails is without effect, whatever the cause:

* `LeftIntact` — memory, registers, flags and run state are as before, the program counter is
  past the opcode that was fetched, if one was, and nothing is put on record but that a cycle
  began;
* `Machine.serve_error` — a request that fails leaves the machine intact, and touches the sink
  only if the sink refused a value;
* `Printer.emit_refused` — a printer that refuses a value has written less than its line;
* `Machine.serve_error_sinks` — the two together, for collected values and for printed text.
-/
import ByteMachine.Log
import ByteMachine.Proofs.Step

namespace ByteMachine

/-- What the machine can be asked for. -/
inductive Request where
  | cycle
  /-- An instruction for the control unit. -/
  | control (opcode : Opcode) (first second : Byte)
  /-- An instruction for the arithmetic unit. -/
  | calculate (opcode : Opcode) (first second : Byte)

namespace Request

/-- The machine that carries the instruction out. -/
def start (m : Machine) : Request → Machine
  | cycle => m.advance
  | control .. | calculate .. => m

/-- The instruction that a machine is asked for. -/
def read (m : Machine) : Request → Except Cause Instruction
  | cycle => Instruction.decode m.opcodeByte m.operandBytes.1 m.operandBytes.2
  | control o a b => Instruction.ofControl o a b
  | calculate o a b => Instruction.ofArithmetic o a b

/-- The program counter if the request fails. -/
def nextPc (m : Machine) : Request → Nat
  | cycle => (m.pc.toNat + 1 + m.opcodeByte.toNat >>> 6) % 256
  | control .. | calculate .. => m.pc.toNat

/-- The address fetched last, once the request was served. -/
def lastFetched (m : Machine) : Request → Address
  | cycle => m.pc
  | control .. | calculate .. => m.fetched

/-- What a request puts on record. -/
def records (m : Machine) (outcome : Except Fault Effect) : Request → List Record
  | cycle => (Turn.mk m.snapshot outcome).records
  | control .. | calculate .. => outcomeRecords outcome

end Request

/-- The step of a request that has changed nothing, but that a cycle has fetched. -/
structure LeftIntact {σ : Type} (m : Machine) (q : Request) (step : Step σ) : Prop where
  memory : step.machine.memory = m.memory
  registers : step.machine.registers = m.registers
  flags : step.machine.flags = m.flags
  state : step.machine.state = m.state
  pc : step.machine.pc.toNat = q.nextPc m
  fetched : step.machine.fetched = q.lastFetched m
  records : ∀ record ∈ q.records m step.outcome, record.level ≠ .debug

namespace Request

variable {m : Machine} {q : Request}

theorem toNat_pc_start (m : Machine) (q : Request) : (q.start m).pc.toNat = q.nextPc m := by
  cases q with
  | cycle => exact m.toNat_pc_advance
  | control o a b | calculate o a b => rfl

theorem leftIntact {σ : Type} {step : Step σ} {f : Fault} (hmachine : step.machine = q.start m)
    (houtcome : step.outcome = .error f) : LeftIntact m q step where
  memory := by
    rw [hmachine]
    cases q <;> rfl
  registers := by
    rw [hmachine]
    cases q <;> rfl
  flags := by
    rw [hmachine]
    cases q <;> rfl
  state := by
    rw [hmachine]
    cases q <;> rfl
  pc := by
    rw [hmachine]
    exact toNat_pc_start m q
  fetched := by
    rw [hmachine]
    cases q <;> rfl
  records := by
    rw [houtcome]
    cases q with
    | cycle =>
      -- That the cycle began is on record, one level below.
      intro record hrecord
      obtain rfl := List.mem_singleton.1 hrecord
      exact Level.noConfusion
    | control o a b | calculate o a b =>
      intro record hrecord
      cases hrecord

theorem read_ne_output (error : IoError) : q.read m ≠ .error (.output error) := by
  intro h
  cases q with
  | cycle => rcases Instruction.decode_error h with h | h | h <;> cases h
  | control o a b => rcases Instruction.ofControl_error h with h | h <;> cases h
  | calculate o a b => rcases Instruction.ofArithmetic_error h with h | h | h <;> cases h

end Request

namespace Machine

variable {σ : Type} [Sink σ]

def serve (m : Machine) (sink : σ) : Request → Step σ
  | .cycle => m.cycle sink
  | .control o a b => m.control sink o a b
  | .calculate o a b => m.calculate sink o a b

theorem serve_eq_issue (m : Machine) (sink : σ) (q : Request) :
    m.serve sink q = (q.start m).issue sink (q.read m) := by
  cases q <;> rfl

/-- A request that fails leaves the machine intact.  The sink is as it was, unless the request
was to print a value and the sink refused it. -/
theorem serve_error {m : Machine} {sink : σ} {q : Request} {f : Fault}
    (h : (m.serve sink q).outcome = .error f) :
    LeftIntact m q (m.serve sink q) ∧
      (((m.serve sink q).sink = sink ∧ ∀ error, f.cause ≠ .output error) ∨
        ∃ r error, q.read m = .ok (.print r) ∧ f.cause = .output error ∧
          Sink.emit sink (m.registers.get r) = ((m.serve sink q).sink, some error)) := by
  have hissue := m.serve_eq_issue sink q
  rw [hissue] at h ⊢
  refine ⟨Request.leftIntact (issue_error h).1 h, ?_⟩
  -- It failed while it was read, or while it was carried out.
  cases hread : q.read m with
  | error cause =>
    rw [hread] at h
    left
    refine ⟨rfl, fun error hcause => ?_⟩
    have hf : f.cause = cause := congrArg Fault.cause (Except.error.inj h).symm
    rw [← hf, hcause] at hread
    exact Request.read_ne_output error hread
  | ok i =>
    rw [hread] at h
    rcases perform_fault h with ⟨r, error, rfl, hcause, hemit⟩ | ⟨hcause, hsink⟩
    · right
      have hregisters : (q.start m).registers = m.registers := by cases q <;> rfl
      rw [hregisters] at hemit
      exact ⟨r, error, rfl, hcause, hemit⟩
    · left
      refine ⟨hsink, fun error herror => ?_⟩
      rw [hcause] at herror
      cases herror

end Machine

/-- A printer that refuses a value has written less than its line. -/
theorem Printer.emit_refused {p out : Printer} {v : Byte} {error : IoError}
    (h : p.emit v = (out, some error)) :
    ∃ part rest, v.line = part ++ rest ∧ rest ≠ "" ∧ out = { p with text := p.text ++ part } := by
  unfold emit at h
  split at h
  · cases h
  · next l hl =>
    split at h
    · cases h
    · next hroom =>
      refine ⟨String.ofList (v.line.toList.take (p.room l)),
        String.ofList (v.line.toList.drop (p.room l)), ?_, ?_, (congrArg Prod.fst h).symm⟩
      · rw [← String.ofList_append, List.take_append_drop, String.ofList_toList]
      · intro hrest
        have hdrop := congrArg String.toList hrest
        rw [String.toList_ofList, String.toList_empty, List.drop_eq_nil_iff,
          String.length_toList] at hdrop
        exact hroom hdrop

namespace Machine

/-- **A failure leaves the machine intact.**  If a cycle, or a unit that is given an instruction
with any operand bytes, ends with a fault, then nothing has changed but that a cycle has moved
past what it fetched, and nothing is on record at the level `debug`.  Collected values are the
same as before.  Printed text is the same unless the fault is that of the output; then a value
was to be printed, and less than its line was added. -/
theorem serve_error_sinks (m : Machine) (q : Request) :
    (∀ (sink : Array Byte) (f : Fault), (m.serve sink q).outcome = .error f →
      LeftIntact m q (m.serve sink q) ∧
        (m.serve sink q).sink = sink ∧ ∀ error, f.cause ≠ .output error) ∧
      ∀ (sink : Printer) (f : Fault), (m.serve sink q).outcome = .error f →
        LeftIntact m q (m.serve sink q) ∧
          (((m.serve sink q).sink = sink ∧ ∀ error, f.cause ≠ .output error) ∨
            ∃ r error part rest, q.read m = .ok (.print r) ∧ f.cause = .output error ∧
              (m.registers.get r).line = part ++ rest ∧ rest ≠ "" ∧
              (m.serve sink q).sink = { sink with text := sink.text ++ part }) := by
  refine ⟨fun sink f h => ?_, fun sink f h => ?_⟩
  · obtain ⟨hintact, hsink | ⟨r, error, -, -, hemit⟩⟩ := serve_error h
    · exact ⟨hintact, hsink⟩
    · cases congrArg Prod.snd hemit
  · obtain ⟨hintact, hsink | ⟨r, error, hread, hcause, hemit⟩⟩ := serve_error h
    · exact ⟨hintact, .inl hsink⟩
    · obtain ⟨part, rest, hline, hrest, hout⟩ := Printer.emit_refused hemit
      exact ⟨hintact, .inr ⟨r, error, part, rest, hread, hcause, hline, hrest, hout⟩⟩

/-- `PRN R7` at address 0. -/
def printPointer : Machine := new (Memory.zero.writeAll 0 [0x47, 0x07])

/-- A printer that takes two of the four characters of `244` and its newline. -/
def twoCharacters : Printer := { limit := some ⟨2, .brokenPipe⟩ }

theorem serve_error_sinks_printPointer :
    (printPointer.serve twoCharacters .cycle).outcome = .error ⟨.output .brokenPipe, 0⟩ ∧
      LeftIntact printPointer .cycle (printPointer.serve twoCharacters .cycle) ∧
      ∃ part rest, "244\n" = part ++ rest ∧ rest ≠ "" ∧
        (printPointer.serve twoCharacters .cycle).sink = { twoCharacters with text := part } := by
  have h : (printPointer.serve twoCharacters .cycle).outcome =
      .error ⟨.output .brokenPipe, 0⟩ := by
    rfl
  obtain ⟨hintact, ⟨-, hcause⟩ | ⟨r, error, part, rest, hread, -, hline, hrest, hsink⟩⟩ :=
    (serve_error_sinks printPointer .cycle).2 twoCharacters _ h
  · exact absurd rfl (hcause .brokenPipe)
  · have hr : (7 : Register) = r := by
      have := hread.symm.trans (rfl : Request.cycle.read printPointer = .ok (.print 7))
      cases this
      rfl
    subst hr
    refine ⟨h, hintact, part, rest, ?_, hrest, ?_⟩
    · rw [← hline]
      decide
    · rw [hsink]
      rfl

end Machine

end ByteMachine
