/-
The log as an account of the run.

A record is made from what an instruction reports, and an instruction reports at its end, when a
value that it read may be overwritten already.  The account is told here by the machine before a
cycle and the machine after it, whatever was reported, and the log of a run says the same:

* `Machine.account` — what is to be told of an opcode by the machines before and after it;
* `Machine.message_cycle` — a cycle that succeeds reports just this;
* `Machine.Tells`, `Machine.tells_turn` — the lines of the log about one cycle;
* `Machine.exists_cycles` — the cycles of a run that ends, and how it ends, whatever is seen of it;
* `Machine.log_tells_run` — the log of a run tells of these cycles and of its end, in their order,
  and a threshold leaves out records and changes nothing else.
-/
import ByteMachine.Proofs.Frame
import ByteMachine.Proofs.Output
import ByteMachine.Proofs.Thresholds

namespace ByteMachine

/-- An operand byte as the name of a register. -/
def Byte.registerName (b : Byte) : String := "R" ++ b.decimal

theorem Register.registerName_byte (r : Register) : r.byte.registerName = r.name := by
  rw [Byte.registerName, Byte.decimal, Register.toNat_byte, Register.name]

/-- A record as a line of the log: its level and its text. -/
def Record.entry (r : Record) : Level × String := (r.level, r.message)

/-- How two numbers relate, by the name of the flag. -/
def relation (x y : Nat) : String := if x < y then "LESS" else if y < x then "GREATER" else "EQUAL"

theorem Flags.describe_compare (x y : Byte) :
    (Flags.compare x y).describe = relation x.toNat y.toNat := by
  have hflags : Flags.compare x y =
      ⟨x.toNat < y.toNat, y.toNat < x.toNat, x.toNat = y.toNat⟩ := by
    simp only [Flags.compare, UInt8.lt_iff_toNat_lt, ← UInt8.toNat_inj]
  rw [hflags, relation]
  rcases Nat.lt_trichotomy x.toNat y.toNat with h | h | h
  · rw [decide_eq_true h, decide_eq_false (Nat.lt_asymm h), decide_eq_false (Nat.ne_of_lt h),
      if_pos h]
    rfl
  · rw [h, decide_eq_false (Nat.lt_irrefl _), decide_eq_true rfl, if_neg (Nat.lt_irrefl _),
      if_neg (Nat.lt_irrefl _)]
    rfl
  · rw [decide_eq_true h, decide_eq_false (Nat.lt_asymm h), decide_eq_false (Nat.ne_of_gt h),
      if_neg (Nat.lt_asymm h), if_pos h]
    rfl

namespace Threshold

theorem select_append (t : Threshold) (records others : List Record) :
    t.select (records ++ others) = t.select records ++ t.select others :=
  List.filter_append ..

theorem select_off (records : List Record) : off.select records = [] :=
  List.filter_eq_nil_iff.2 fun _ _ => Bool.false_ne_true

theorem select_trace (records : List Record) : (upTo .trace).select records = records :=
  List.filter_eq_self.2 fun r _ => admits_trace r.level

end Threshold

/-- Records can be left out as they come, or afterwards. -/
theorem foldl_keep (t : Threshold) (turns : List Turn) (log : List Record) :
    turns.foldl (keep t) log = log ++ t.select (turns.flatMap Turn.records) := by
  induction turns generalizing log with
  | nil => exact (List.append_nil log).symm
  | cons turn turns ih =>
    rw [List.foldl_cons, ih, keep, List.flatMap_cons, Threshold.select_append, List.append_assoc]

/-- The record of the end, as a line. -/
theorem Run.entry_closing {σ α : Type} (r : Run σ α) :
    r.closing.map Record.entry = if r.ending = .stopped then
      [(.info, "Program halted at 0x" ++ r.machine.fetched.hex)] else [] := by
  unfold Run.closing
  cases r.ending <;> rfl

namespace Machine

/-- The register that the first operand names. -/
def firstName (m : Machine) : String := " " ++ m.operandBytes.1.registerName

/-- The registers that the two operands name. -/
def bothNames (m : Machine) : String := m.firstName ++ " " ++ m.operandBytes.2.registerName

/-- Where a jump leads. -/
def destination (m : Machine) : String :=
  m.firstName ++ ": 0x" ++ Byte.hex (UInt8.ofNat m.operandNumbers.1)

/-- A computation on the values before it, with the value stored after it. -/
def computation (before after : Machine) (symbol : String) : String :=
  before.bothNames ++ ": " ++ Nat.repr before.operandNumbers.1 ++ " " ++ symbol ++ " " ++
    Nat.repr before.operandNumbers.2 ++ " = " ++ Nat.repr (after.number before.operandBytes.1)

/-- Whether a conditional jump is taken. -/
def decision (taken : Bool) : String := " (taken: " ++ (if taken then "true" else "false") ++ ")"

/-- What is to be told of an opcode that was carried out: the operands it has, what it read in the
machine before, and what it stored in the machine after it. -/
def account (before after : Machine) (o : Opcode) : String :=
  match o with
  | .hlt => ""
  | .ldi => before.firstName ++ " " ++ before.operandBytes.2.decimal
  | .prn => before.firstName ++ ": " ++ Nat.repr before.operandNumbers.1
  | .push =>
    before.firstName ++ ": " ++ Nat.repr before.operandNumbers.1 ++ " -> 0x" ++
      after.registers.sp.hex
  | .pop =>
    before.firstName ++ ": " ++ (before.memory.read before.registers.sp).decimal ++ " <- 0x" ++
      before.registers.sp.hex
  | .add => before.computation after "+"
  | .mul => before.computation after "*"
  | .div => before.computation after "/"
  | .and => before.computation after "&"
  | .cmp =>
    before.bothNames ++ ": " ++ relation before.operandNumbers.1 before.operandNumbers.2
  | .jmp => before.destination
  | .jeq => before.destination ++ decision before.flags.equal
  | .jne => before.destination ++ decision !before.flags.equal

variable {σ : Type} [Sink σ] {m : Machine} {sink : σ}

/-- The lines about one cycle: a trace of the machine before it and, if the cycle completes an
instruction, the mnemonic of the opcode that was fetched with the account of it. -/
inductive Tells (m : Machine) (sink : σ) : List (Level × String) → Prop
  | done {o : Opcode} (h : m.Completes sink o) : Tells m sink
      [(.trace, m.snapshot.message), (.debug, o.mnemonic ++ m.account (m.cycle sink).machine o)]
  | failed {f : Fault} (h : (m.cycle sink).outcome = .error f) :
      Tells m sink [(.trace, m.snapshot.message)]

/-- The lines about a cycle that completes an instruction. -/
theorem Tells.eq_of_completes {lines : List (Level × String)} {o : Opcode}
    (h : Tells m sink lines) (ho : m.Completes sink o) : lines =
      [(.trace, m.snapshot.message), (.debug, o.mnemonic ++ m.account (m.cycle sink).machine o)] := by
  cases h with
  | @done p hp =>
    obtain rfl : o = p := Opcode.byte_inj.1 (ho.1.symm.trans hp.1)
    rfl
  | failed hf =>
    obtain ⟨-, e, he⟩ := ho
    cases hf.symm.trans he

/-! ### One cycle -/

section

variable {r s : Register} {n : Machine}

theorem firstName_eq (ha : r.byte = m.operandBytes.1) : m.firstName = " " ++ r.name := by
  rw [firstName, ← ha, Register.registerName_byte]

theorem bothNames_eq (ha : r.byte = m.operandBytes.1) (hb : s.byte = m.operandBytes.2) :
    m.bothNames = " " ++ r.name ++ " " ++ s.name := by
  rw [bothNames, firstName_eq ha, ← hb, Register.registerName_byte]

theorem operandNumbers_fst (ha : r.byte = m.operandBytes.1) :
    m.operandNumbers.1 = (m.registers.get r).toNat := by
  rw [operandNumbers, ← ha, number_byte]

theorem operandNumbers_snd (hb : s.byte = m.operandBytes.2) :
    m.operandNumbers.2 = (m.registers.get s).toNat := by
  rw [operandNumbers, ← hb, number_byte]

theorem account_jump (ha : r.byte = m.operandBytes.1) (n : Machine) (c : Condition) :
    m.account n c.opcode = (Effect.jumped c r (m.registers.get r) (c.holds m.flags)).details := by
  have hdestination : m.destination = " " ++ r.name ++ ": 0x" ++ (m.registers.get r).hex := by
    rw [destination, firstName_eq ha, operandNumbers_fst ha, UInt8.ofNat_toNat]
  have hconditional : ∀ taken, m.destination ++ decision taken =
      " " ++ r.name ++ ": 0x" ++ (m.registers.get r).hex ++ " (taken: " ++
        (if taken then "true" else "false") ++ ")" := by
    intro taken
    rw [hdestination, decision, ← String.append_assoc, ← String.append_assoc]
  cases c with
  | always => exact hdestination
  | equal => exact hconditional m.flags.equal
  | notEqual => exact hconditional !m.flags.equal

theorem account_compute {v : Byte} (ha : r.byte = m.operandBytes.1)
    (hb : s.byte = m.operandBytes.2) (hv : n.registers.get r = v) (f : Arith) :
    m.account n f.opcode =
      (Effect.computed f r s (m.registers.get r) (m.registers.get s) v).details := by
  have hcomputation : m.computation n f.symbol =
      (Effect.computed f r s (m.registers.get r) (m.registers.get s) v).details := by
    rw [computation, bothNames_eq ha hb, operandNumbers_fst ha, operandNumbers_snd hb, ← ha,
      number_byte, hv]
    rfl
  cases f <;> exact hcomputation

/-- An instruction that succeeds reports what is to be told of it. -/
theorem details_perform {i : Instruction} {e : Effect}
    (hab : i.operands <+: [m.operandBytes.1, m.operandBytes.2])
    (h : (m.advance.perform sink i).outcome = .ok e) :
    e.opcode = i.opcode ∧
      e.details = m.account (m.advance.perform sink i).machine i.opcode := by
  cases i with
  | halt =>
    cases h
    exact ⟨rfl, rfl⟩
  | load r v =>
    obtain ⟨ha, hb⟩ : r.byte = m.operandBytes.1 ∧ v = m.operandBytes.2 := by
      simpa [Instruction.operands] using hab
    cases h
    refine ⟨rfl, ?_⟩
    show _ = m.firstName ++ " " ++ m.operandBytes.2.decimal
    rw [firstName_eq ha, ← hb]
    rfl
  | print r =>
    have ha : r.byte = m.operandBytes.1 := by simpa [Instruction.operands] using hab
    obtain rfl : e = .printed r (m.registers.get r) := by
      simp only [perform] at h
      split at h
      · cases h
        rfl
      · cases h
    refine ⟨rfl, ?_⟩
    show _ = m.firstName ++ ": " ++ Nat.repr m.operandNumbers.1
    rw [firstName_eq ha, operandNumbers_fst ha]
    rfl
  | push r =>
    have ha : r.byte = m.operandBytes.1 := by simpa [Instruction.operands] using hab
    have htop : (m.advance.perform sink (.push r)).machine.registers.sp = m.registers.sp - 1 :=
      Registers.sp_setSp ..
    cases h
    refine ⟨rfl, ?_⟩
    show _ = m.firstName ++ ": " ++ Nat.repr m.operandNumbers.1 ++ " -> 0x" ++ Byte.hex _
    rw [firstName_eq ha, operandNumbers_fst ha, htop]
    rfl
  | pop r =>
    have ha : r.byte = m.operandBytes.1 := by simpa [Instruction.operands] using hab
    cases h
    refine ⟨rfl, ?_⟩
    show _ = m.firstName ++ ": " ++ _ ++ " <- 0x" ++ _
    rw [firstName_eq ha]
    rfl
  | jump c r =>
    have ha : r.byte = m.operandBytes.1 := by simpa [Instruction.operands] using hab
    cases h
    exact ⟨rfl, (account_jump ha _ c).symm⟩
  | compute f r s =>
    obtain ⟨ha, hb⟩ : r.byte = m.operandBytes.1 ∧ s.byte = m.operandBytes.2 := by
      simpa [Instruction.operands] using hab
    obtain ⟨v, hv, hmachine, -⟩ := perform_compute_ok h
    obtain rfl : e = .computed f r s (m.registers.get r) (m.registers.get s) v := by
      simp only [perform, hv] at h
      cases h
      rfl
    have hstored : (m.advance.perform sink (.compute f r s)).machine.registers.get r = v := by
      rw [hmachine]
      exact Registers.get_set_self ..
    exact ⟨rfl, (account_compute ha hb hstored f).symm⟩
  | compare r s =>
    obtain ⟨ha, hb⟩ : r.byte = m.operandBytes.1 ∧ s.byte = m.operandBytes.2 := by
      simpa [Instruction.operands] using hab
    cases h
    refine ⟨rfl, ?_⟩
    show _ = m.bothNames ++ ": " ++ relation _ _
    rw [bothNames_eq ha hb, operandNumbers_fst ha, operandNumbers_snd hb, ← Flags.describe_compare]
    rfl

end

theorem message_cycle {e : Effect} (h : (m.cycle sink).outcome = .ok e) :
    ∃ o, m.Completes sink o ∧ e.message = o.mnemonic ++ m.account (m.cycle sink).machine o := by
  obtain ⟨i, hi, hcycle⟩ := cycle_ok h
  obtain ⟨hop, hab⟩ := List.cons_prefix_cons.1 hi
  refine ⟨i.opcode, ⟨hop.symm, e, h⟩, ?_⟩
  rw [hcycle] at h ⊢
  obtain ⟨hopcode, hdetails⟩ := details_perform hab h
  rw [Effect.message, hopcode, hdetails]

/-- The records of a cycle are the lines that tell of it. -/
theorem tells_turn (m : Machine) (sink : σ) :
    Tells m sink ((Turn.records ⟨m.snapshot, (m.cycle sink).outcome⟩).map Record.entry) := by
  cases hout : (m.cycle sink).outcome with
  | ok e =>
    obtain ⟨o, ho, hmessage⟩ := message_cycle hout
    have hdone := Tells.done ho
    rw [← hmessage] at hdone
    exact hdone
  | error f => exact .failed hout

/-! ### The cycles of a run -/

theorem reaches_iff_of_endsAt {k : Nat} (hm : m.state = .running) (h : m.EndsAt sink k) (j : Nat) :
    m.Reaches sink j ↔ j < k + 1 := by
  constructor
  · intro hj
    by_contra hlt
    exact hj.2 k (by omega) h.1
  · intro hj
    exact ⟨hm, fun i hi => h.2 i (by omega)⟩

/-- A run that ends consists of a number of cycles, of which only the last can have failed.  It is
the same whatever is seen of it. -/
theorem exists_cycles {α : Type} {see : α → Turn → α} {seen : α} {r : Run σ α}
    (h : m.run see sink seen = Part.some r) :
    ∃ n, (∀ k, m.Reaches sink k ↔ k < n) ∧ m.after sink n = (r.machine, r.sink) ∧
      (∀ k < n, ∀ f, (m.nth sink k).outcome = .error f → k + 1 = n ∧ r.ending = .failed f) ∧
      r.ending ≠ .unfinished ∧ ∀ (β : Type) (see : β → Turn → β) (seen : β),
        m.run see sink seen =
          Part.some ⟨r.machine, r.sink, r.ending, (m.turns sink n).foldl see seen⟩ := by
  cases hm : m.state with
  | halted =>
    rw [run_of_halted see hm] at h
    cases Part.some_injective h
    have hnot : ∀ k, ¬ m.Reaches sink k := by
      rintro k ⟨hrunning, -⟩
      cases hm.symm.trans hrunning
    refine ⟨0, fun k => iff_of_false (hnot k) (Nat.not_lt_zero k), rfl,
      fun k hk => absurd hk (Nat.not_lt_zero k), Ending.noConfusion, fun β see' seen' => ?_⟩
    exact run_of_halted see' hm seen'
  | running =>
    obtain ⟨k, hk, rfl⟩ := exists_runUpTo see hm h
    refine ⟨k + 1, reaches_iff_of_endsAt hm hk, rfl, fun j hj f hf => ?_,
      Step.ending_ne_unfinished _, fun β see' seen' => run_eq_runUpTo see' hm hk seen'⟩
    -- A cycle that fails ends the run.
    have hkj : ¬ j < k := fun hlt => hk.2 j hlt (.inl ⟨f, hf⟩)
    obtain rfl : j = k := by omega
    refine ⟨rfl, ?_⟩
    show (m.nth sink j).ending = _
    rw [Step.ending, hf]

/-! ### The log -/

theorem logged_eq {n : Nat} {last : Machine} {out : σ} {ending : Ending}
    (hrun : ∀ (β : Type) (see : β → Turn → β) (seen : β), m.run see sink seen =
      Part.some ⟨last, out, ending, (m.turns sink n).foldl see seen⟩) (t : Threshold) :
    m.logged t sink = Part.some ⟨last, out, ending,
      t.select ((m.turns sink n).flatMap Turn.records ++
        Run.closing (⟨last, out, ending, []⟩ : Run σ (List Record)))⟩ := by
  rw [logged, hrun, Part.map_some, foldl_keep, List.nil_append, Threshold.select_append]
  rfl

/-- **The log tells of the run.**  Take a run to the halt that ends, with any sink.  At the
threshold `trace` its log has, for each of its cycles in order, a `TRACE` line with the trace of the
machine before the cycle and, if the cycle succeeded, one `DEBUG` line: the mnemonic of the opcode
that was fetched, the operands, and the values that the machines before and after the cycle hold.
A cycle that fails has no such line and is the last.  Then there is one `INFO` line with the address
fetched last, if the run ended with the machine halted, and nothing otherwise.  At any other
threshold the log has those of its records whose levels are shown, in their order, and at the
threshold `off` it has none; the machine, the sink and the result are the same at every
threshold. -/
theorem log_tells_run {r : Run σ Unit} (h : m.run (fun _ _ => ()) sink () = Part.some r) :
    ∃ n, (∀ k, m.Reaches sink k ↔ k < n) ∧ m.after sink n = (r.machine, r.sink) ∧
      (∀ k < n, ∀ f, (m.nth sink k).outcome = .error f → k + 1 = n ∧ r.ending = .failed f) ∧
      ∃ (log : List Record) (told : Nat → List (Level × String)),
        (∀ k < n, Tells (m.after sink k).1 (m.after sink k).2 (told k)) ∧
        log.map Record.entry = (List.range n).flatMap told ++ (if r.ending = .stopped then
          [(.info, "Program halted at 0x" ++ r.machine.fetched.hex)] else []) ∧
        m.logged (.upTo .trace) sink = Part.some ⟨r.machine, r.sink, r.ending, log⟩ ∧
        m.logged .off sink = Part.some ⟨r.machine, r.sink, r.ending, []⟩ ∧
        ∀ t : Threshold, m.logged t sink = Part.some ⟨r.machine, r.sink, r.ending,
          log.filter fun record => record.level ∈ t.levels⟩ := by
  obtain ⟨n, hcycles, hafter, hfailed, -, hrun⟩ := exists_cycles h
  have hlogged := logged_eq hrun
  refine ⟨n, hcycles, hafter, hfailed, (m.turns sink n).flatMap Turn.records ++
      Run.closing (⟨r.machine, r.sink, r.ending, []⟩ : Run σ (List Record)),
    fun k => (Turn.records ⟨(m.after sink k).1.snapshot, (m.nth sink k).outcome⟩).map Record.entry,
    fun k _ => tells_turn _ _, ?_, ?_, ?_, fun t => ?_⟩
  · rw [List.map_append, Run.entry_closing, turns, List.flatMap_map, List.map_flatMap]
  · rw [hlogged, Threshold.select_trace]
  · rw [hlogged, Threshold.select_off]
  · rw [hlogged, Threshold.select_eq_filter]

/-- `POP R7` and `HLT`, with a 9 on the stack. -/
def popAndHalt : Machine := new ((Memory.zero.writeAll 0 [0x46, 0x07, 0x01]).write 0xF4 9)

theorem log_tells_run_popAndHalt :
    ∃ r, popAndHalt.run (fun _ _ => ()) (#[] : Array Byte) () = Part.some r ∧
      popAndHalt.logged .off (#[] : Array Byte) =
        Part.some ⟨r.machine, r.sink, r.ending, []⟩ ∧
      ∀ shown ∈ [(Threshold.upTo .warn, []),
          (.upTo .info, [(Level.info, "Program halted at 0x02")]),
          (.upTo .debug, [(.debug, "POP R7: 9 <- 0xF4"), (.debug, "HLT"),
            (.info, "Program halted at 0x02")]),
          (.upTo .trace, [(.trace, "TRACE: 00 | 46 07 01 | 00 00 00 00 00 00 00 F4"),
            (.debug, "POP R7: 9 <- 0xF4"),
            (.trace, "TRACE: 02 | 01 00 00 | 00 00 00 00 00 00 00 0A"), (.debug, "HLT"),
            (.info, "Program halted at 0x02")])],
        ∃ log, popAndHalt.logged shown.1 (#[] : Array Byte) =
            Part.some ⟨r.machine, r.sink, r.ending, log⟩ ∧
          log.map Record.entry = shown.2 := by
  have hends : popAndHalt.EndsAt (#[] : Array Byte) 1 := by
    refine ⟨.inr rfl, fun j hj => ?_⟩
    obtain rfl : j = 0 := Nat.lt_one_iff.1 hj
    exact Step.not_ends_iff.2 ⟨⟨.popped 7 9 0xF4, rfl⟩, rfl⟩
  have hrun := run_eq_runUpTo (fun _ _ => ()) rfl hends ()
  obtain ⟨n, hcycles, -, -, log, told, htold, hentries, -, hoff, hlogged⟩ := log_tells_run hrun
  obtain rfl : n = 2 := by
    have hiff := fun k => (hcycles k).symm.trans (reaches_iff_of_endsAt rfl hends k)
    have hone := hiff 1
    have htwo := hiff 2
    omega
  have hpop := (htold 0 (by decide)).eq_of_completes (o := .pop) ⟨rfl, _, rfl⟩
  have hhalt := (htold 1 (by decide)).eq_of_completes (o := .hlt) ⟨rfl, _, rfl⟩
  have hall : log.map Record.entry =
      [(.trace, "TRACE: 00 | 46 07 01 | 00 00 00 00 00 00 00 F4"), (.debug, "POP R7: 9 <- 0xF4"),
        (.trace, "TRACE: 02 | 01 00 00 | 00 00 00 00 00 00 00 0A"), (.debug, "HLT"),
        (.info, "Program halted at 0x02")] := by
    rw [hentries]
    show told 0 ++ (told 1 ++ []) ++ _ = _
    rw [hpop, hhalt]
    decide
  refine ⟨_, hrun, hoff, fun shown hshown => ⟨_, hlogged shown.1, ?_⟩⟩
  -- The levels of the lines decide, and they are those of the records.
  have hlevels : (log.filter fun record => record.level ∈ shown.1.levels).map Record.entry =
      (log.map Record.entry).filter fun line => line.1 ∈ shown.1.levels := by
    rw [List.filter_map]
    rfl
  rw [hlevels, hall]
  clear hlevels
  revert shown
  decide

end Machine

end ByteMachine
