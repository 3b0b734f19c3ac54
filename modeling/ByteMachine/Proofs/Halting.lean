/-
The run to the halt.

`Machine.run` goes on until the machine halts or a cycle fails, and that may never happen.  Its
limited form `Machine.runToHalt` is the same run looked at after so many cycles:

* `Machine.run_eq_some_iff` — what a run that ends comes to, a limit that is large enough finds;
* `Machine.settled_runToHalt` — how a run leaves the machine: halted behind the instruction
  `HLT`, or running behind the one that failed;
* `Machine.run_iterates_cycles` — the run is the sequence of cycles up to the first one that
  fails or halts the machine.

A program may write to the cells that it runs from.  What makes the statement on `HLT` true is
that the instruction itself writes nothing, so that its byte is still there at the end.
-/
import ByteMachine.Machine.Unlimited
import ByteMachine.Proofs.Iteration
import ByteMachine.Proofs.Step

namespace ByteMachine

variable {σ α : Type}

/-- What is true of the machine at the end of a run to the halt, by how it ended. -/
def Run.Settled (r : Run σ α) : Prop :=
  match r.ending with
  | .stopped => r.machine.state = .halted ∧
      r.machine.memory.read r.machine.fetched = Opcode.hlt.byte ∧
      r.machine.pc = r.machine.fetched + 1
  | .failed f => r.machine.state = .running ∧ f.address = r.machine.fetched
  | .unfinished => r.machine.state = .running

namespace Machine

variable [Sink σ]

variable {m : Machine} {sink : σ}

/-- Only the instruction `HLT` halts a machine that runs, and it leaves its own byte alone. -/
theorem cycle_halted {e : Effect} (hm : m.state = .running)
    (hout : (m.cycle sink).outcome = .ok e) (h : (m.cycle sink).machine.state = .halted) :
    let n := (m.cycle sink).machine
    n.memory.read n.fetched = Opcode.hlt.byte ∧ n.pc = n.fetched + 1 := by
  obtain ⟨i, hi, hcycle⟩ := cycle_ok hout
  have hhalt : i = .halt := by
    rw [hcycle, state_perform] at h
    by_cases hi : i = .halt
    · exact hi
    · rw [if_neg hi] at h
      cases hm.symm.trans h
  subst hhalt
  have hop : Opcode.hlt.byte = m.opcodeByte := (List.cons_prefix_cons.1 hi).1
  rw [hcycle]
  refine ⟨hop.symm, ?_⟩
  show m.pc + (1 + operandCount m.opcodeByte) = m.pc + 1
  rw [← hop]
  rfl

/-- A cycle that fails leaves the machine running if it was. -/
theorem cycle_failed {f : Fault} (h : (m.cycle sink).outcome = .error f) :
    (m.cycle sink).machine.state = m.state ∧ f.address = (m.cycle sink).machine.fetched := by
  obtain ⟨hmachine, haddress⟩ := issue_error h
  have hcycle : (m.cycle sink).machine = m.advance := hmachine
  rw [hcycle]
  exact ⟨rfl, haddress⟩

variable (see : α → Turn → α)

/-- A run from a machine that runs leaves it as its ending tells. -/
theorem settled_runToHalt (hm : m.state = .running) (limit : Nat) (seen : α) :
    (m.runToHalt see limit sink seen).Settled := by
  induction limit generalizing m sink seen with
  | zero =>
    rw [runToHalt, runUntil_zero see (by simp [isRunning, hm])]
    exact hm
  | succ limit ih =>
    by_cases hends : (m.cycle sink).Ends
    · rw [runToHalt_of_ends see hm hends]
      rcases Step.ends_iff.1 hends with ⟨f, hout⟩ | ⟨⟨e, hout⟩, hhalted⟩
      · obtain ⟨hstate, haddress⟩ := cycle_failed hout
        simp only [Run.Settled, Step.ending, hout]
        exact ⟨hstate.trans hm, haddress⟩
      · simp only [Run.Settled, Step.ending, hout]
        exact ⟨hhalted, cycle_halted hm hout hhalted⟩
    · rw [runToHalt_succ see hm hends]
      exact ih (Step.not_ends_iff.1 hends).2 _

variable {seen : α} {r : Run σ α}

/-- A limited run goes through the same turns. -/
theorem runToHalt_succ_loop (limit : Nat) : m.runToHalt see (limit + 1) sink seen =
    match loop see (m, sink, seen) with
    | .inl r => r
    | .inr (n, out, seen) => n.runToHalt see limit out seen := by
  cases hm : m.state with
  | halted => simp [runToHalt_of_halted hm, loop, isRunning, hm]
  | running =>
    have hgo : (!m.isRunning) = false := by simp [isRunning, hm]
    cases hout : (m.cycle sink).outcome with
    | error f =>
      rw [runToHalt, runUntil_succ_error see hgo hout]
      simp [loop, isRunning, hm, hout]
    | ok e =>
      rw [runToHalt, runUntil_succ_ok see hgo hout]
      simp [loop, isRunning, hm, hout, runToHalt]

theorem ending_ne_of_loop (h : loop see (m, sink, seen) = .inl r) : r.ending ≠ .unfinished := by
  simp only [loop] at h
  split at h
  · split at h
    · cases h
      exact Ending.noConfusion
    · cases h
  · cases h
    exact Ending.noConfusion

theorem run_of_inl (h : loop see (m, sink, seen) = .inl r) :
    m.run see sink seen = Part.some r :=
  Part.eq_some_iff.2 (PFun.fix_stop (Part.mem_some_iff.2 h.symm))

theorem run_of_inr {n : Machine} {out : σ} {seen' : α}
    (h : loop see (m, sink, seen) = .inr (n, out, seen')) :
    m.run see sink seen = n.run see out seen' :=
  PFun.fix_fwd_eq (Part.mem_some_iff.2 h.symm)

theorem run_of_halted (hm : m.state = .halted) (seen : α) :
    m.run see sink seen = Part.some ⟨m, sink, .stopped, seen⟩ :=
  run_of_inl see (by simp [loop, isRunning, hm])

/-- A run that ends does so within some limit. -/
theorem exists_runToHalt_of_run (h : r ∈ m.run see sink seen) :
    ∃ limit, m.runToHalt see limit sink seen = r ∧ r.ending ≠ .unfinished := by
  -- By induction on the turns that were made before the result was there.
  refine PFun.fixInduction' (C := fun c => ∃ limit,
    c.1.runToHalt see limit c.2.1 c.2.2 = r ∧ r.ending ≠ .unfinished) h ?_ ?_
  · rintro ⟨m, sink, seen⟩ hlast
    have hloop := (Part.mem_some_iff.1 hlast).symm
    refine ⟨1, ?_, ending_ne_of_loop see hloop⟩
    rw [runToHalt_succ_loop, hloop]
  · rintro ⟨m, sink, seen⟩ ⟨n, out, seen'⟩ - hnext ⟨limit, hrun, hending⟩
    have hloop := (Part.mem_some_iff.1 hnext).symm
    refine ⟨limit + 1, ?_, hending⟩
    rw [runToHalt_succ_loop, hloop]
    exact hrun

/-- A run that ends within a limit ends without one, in the same way. -/
theorem run_of_runToHalt {limit : Nat} (h : m.runToHalt see limit sink seen = r)
    (hending : r.ending ≠ .unfinished) : m.run see sink seen = Part.some r := by
  induction limit generalizing m sink seen with
  | zero =>
    cases hm : m.state with
    | halted => rw [run_of_halted see hm, ← h, runToHalt_of_halted hm]
    | running =>
      rw [runToHalt, runUntil_zero see (by simp [isRunning, hm])] at h
      exact absurd (congrArg Run.ending h).symm hending
  | succ limit ih =>
    rw [runToHalt_succ_loop] at h
    cases hloop : loop see (m, sink, seen) with
    | inl last =>
      rw [hloop] at h
      rw [run_of_inl see hloop, show last = r from h]
    | inr next =>
      rw [hloop] at h
      rw [run_of_inr see hloop]
      exact ih h

/-- A run ends exactly if it ends within some limit, and then it is the same run. -/
theorem run_eq_some_iff : m.run see sink seen = Part.some r ↔
    ∃ limit, m.runToHalt see limit sink seen = r ∧ r.ending ≠ .unfinished := by
  constructor
  · intro h
    exact exists_runToHalt_of_run see (Part.eq_some_iff.1 h)
  · rintro ⟨limit, h, hending⟩
    exact run_of_runToHalt see h hending

/-- A run that ends leaves the machine as its ending tells, and the ending is not a limit. -/
theorem settled_run (hm : m.state = .running) (h : m.run see sink seen = Part.some r) :
    r.ending ≠ .unfinished ∧ r.Settled := by
  obtain ⟨limit, hrun, hending⟩ := (run_eq_some_iff see).1 h
  exact ⟨hending, hrun ▸ settled_runToHalt see hm limit seen⟩

theorem run_eq_runUpTo {k : Nat} (hm : m.state = .running) (h : m.EndsAt sink k) (seen : α) :
    m.run see sink seen = Part.some (runUpTo see m sink seen k) := by
  rw [run_eq_some_iff]
  exact ⟨k + 1, runToHalt_eq_runUpTo see hm h (Nat.lt_succ_self k), Step.ending_ne_unfinished _⟩

theorem run_eq_none (hm : m.state = .running) (h : ∀ k, ¬ m.EndsAt sink k) (seen : α) :
    m.run see sink seen = Part.none := by
  have hnever : ∀ k, ¬ (m.nth sink k).Ends := by
    intro k hends
    obtain ⟨j, hj⟩ := exists_endsAt hends
    exact h j hj
  refine Part.eq_none_iff.2 fun r hr => ?_
  -- Within any limit it would have gone on to the end of the limit.
  obtain ⟨limit, hlimit, hending⟩ := exists_runToHalt_of_run see hr
  rw [runToHalt_eq_unfinished see hm fun k _ => hnever k] at hlimit
  exact absurd (congrArg Run.ending hlimit).symm hending

/-- A run that has a result, from a machine that runs, ends with one of its cycles. -/
theorem exists_runUpTo (hm : m.state = .running) (h : m.run see sink seen = Part.some r) :
    ∃ k, m.EndsAt sink k ∧ r = runUpTo see m sink seen k := by
  by_cases hends : ∃ k, m.EndsAt sink k
  · obtain ⟨k, hk⟩ := hends
    exact ⟨k, hk, Part.some_injective (h.symm.trans (run_eq_runUpTo see hm hk seen))⟩
  · rw [run_eq_none see hm fun k hk => hends ⟨k, hk⟩] at h
    exact absurd h.symm (Part.some_ne_none r)

/-- **The run to the halt is the sequence of its cycles.**  From a halted machine it does nothing.
From a machine that runs it goes on up to the first cycle that fails or halts the machine, with
the machine, the sink and the result of that cycle and all cycles seen on the way; if there is no
such cycle, it does not end.  It leaves the machine halted behind the byte of `HLT`, or running
with the fault at the address fetched last.  With a limit it is the same run if the limit is
large enough, and otherwise as many cycles as the limit allows; so a run that ended is the same
with every larger limit, and one that did not end can be resumed. -/
theorem run_iterates_cycles (see : α → Turn → α) (m : Machine) (sink : σ) (seen : α) :
    (m.state = .halted →
      m.run see sink seen = Part.some ⟨m, sink, .stopped, seen⟩ ∧
      ∀ limit, m.runToHalt see limit sink seen = ⟨m, sink, .stopped, seen⟩) ∧
    (m.state = .running →
      (∀ k, m.EndsAt sink k →
        m.run see sink seen = Part.some (m.runUpTo see sink seen k) ∧
        ∀ limit, k < limit → m.runToHalt see limit sink seen = m.runUpTo see sink seen k) ∧
      ((∀ k, ¬ m.EndsAt sink k) → m.run see sink seen = Part.none) ∧
      (∀ limit, (∀ k < limit, ¬ (m.nth sink k).Ends) →
        m.runToHalt see limit sink seen = ⟨(m.after sink limit).1, (m.after sink limit).2,
          .unfinished, (m.turns sink limit).foldl see seen⟩) ∧
      ∀ r, m.run see sink seen = Part.some r →
        (r.ending = .stopped ∧ r.machine.state = .halted ∧
          r.machine.memory.read r.machine.fetched = 0x01 ∧
          r.machine.pc = r.machine.fetched + 1) ∨
        ∃ f, r.ending = .failed f ∧ r.machine.state = .running ∧
          f.address = r.machine.fetched) ∧
    (∀ limit limit', limit ≤ limit' → (m.runToHalt see limit sink seen).ending ≠ .unfinished →
      m.runToHalt see limit' sink seen = m.runToHalt see limit sink seen) ∧
    ∀ limit more, (m.runToHalt see limit sink seen).ending = .unfinished →
      m.runToHalt see (limit + more) sink seen =
        let first := m.runToHalt see limit sink seen
        first.machine.runToHalt see more first.sink first.seen := by
  refine ⟨fun hm => ⟨run_of_halted see hm seen, fun limit => ?_⟩, fun hm => ⟨fun k hk => ?_, ?_,
    fun limit => runToHalt_eq_unfinished see hm, fun r hr => ?_⟩, fun limit limit' hle h => ?_,
    fun limit more h => ?_⟩
  · exact runToHalt_of_halted hm see limit sink seen
  · exact ⟨run_eq_runUpTo see hm hk seen, fun limit => runToHalt_eq_runUpTo see hm hk⟩
  · exact fun hnone => run_eq_none see hm hnone seen
  · obtain ⟨hending, hsettled⟩ := settled_run see hm hr
    unfold Run.Settled at hsettled
    cases hr : r.ending with
    | stopped => rw [hr] at hsettled; exact .inl ⟨rfl, hsettled⟩
    | failed f => rw [hr] at hsettled; exact .inr ⟨f, rfl, hsettled⟩
    | unfinished => exact absurd hr hending
  · exact runUntil_of_le see hle h
  · exact runUntil_add see h more

/-- `JMP R0` at address 0, with 0 in `R0`: a cycle that changes nothing. -/
def jumpToItself : Machine := new (Memory.zero.writeAll 0 [0x54, 0x00])

/-- `PRN R7` and then `HLT`. -/
def printAndHalt : Machine := new (Memory.zero.writeAll 0 [0x47, 0x07, 0x01])

theorem not_endsAt_jumpToItself (k : Nat) : ¬ jumpToItself.EndsAt (#[] : Array Byte) k := by
  have hcycle : jumpToItself.cycle (#[] : Array Byte) =
      ⟨jumpToItself, #[], .ok (.jumped .always 0 0 true)⟩ := rfl
  have hafter : ∀ n, jumpToItself.after (#[] : Array Byte) n = (jumpToItself, #[]) := by
    intro n
    induction n with
    | zero => rfl
    | succ n ih =>
      rw [after, ih]
      simp only [hcycle]
  rintro ⟨hends, -⟩
  rw [nth, hafter, hcycle] at hends
  exact Step.not_ends_iff.2 ⟨⟨_, rfl⟩, rfl⟩ hends

theorem endsAt_printAndHalt : printAndHalt.EndsAt (#[] : Array Byte) 1 := by
  refine ⟨.inr rfl, fun j hj => ?_⟩
  obtain rfl : j = 0 := by omega
  exact Step.not_ends_iff.2 ⟨⟨.printed 7 0xF4, rfl⟩, rfl⟩

/-- An onlooker that counts the cycles. -/
def count (n : Nat) (_ : Turn) : Nat := n + 1

theorem foldl_count (turns : List Turn) (n : Nat) : turns.foldl count n = n + turns.length := by
  induction turns generalizing n with
  | nil => rfl
  | cons turn turns ih =>
    rw [List.foldl_cons, ih, count, List.length_cons]
    omega

theorem run_iterates_cycles_printAndHalt :
    (printAndHalt.EndsAt (#[] : Array Byte) 1 ∧
      ∃ r, printAndHalt.run count (#[] : Array Byte) 0 = Part.some r ∧
        r.ending = .stopped ∧ r.sink = #[0xF4] ∧ r.machine.pc = 3 ∧ r.seen = 2) ∧
      ((∀ k, ¬ jumpToItself.EndsAt (#[] : Array Byte) k) ∧
        jumpToItself.run count (#[] : Array Byte) 0 = Part.none) ∧
      ((printAndHalt.runToHalt count 1 (#[] : Array Byte) 0).ending = .unfinished ∧
        let first := printAndHalt.runToHalt count 1 (#[] : Array Byte) 0
        first.machine.runToHalt count 1 first.sink first.seen =
          printAndHalt.runToHalt count 2 (#[] : Array Byte) 0) ∧
      (printAndHalt.runToHalt count 2 (#[] : Array Byte) 0).ending ≠ .unfinished ∧
        ∀ limit, 2 ≤ limit → (printAndHalt.runToHalt count limit (#[] : Array Byte) 0).seen = 2 := by
  obtain ⟨-, hprint, hlarger, hresumed⟩ :=
    run_iterates_cycles count printAndHalt (#[] : Array Byte) 0
  obtain ⟨-, hloop, -⟩ := run_iterates_cycles count jumpToItself (#[] : Array Byte) 0
  have hended := ((hprint rfl).1 1 endsAt_printAndHalt).1
  refine ⟨⟨endsAt_printAndHalt, _, hended, rfl, rfl, rfl, rfl⟩,
    ⟨not_endsAt_jumpToItself, (hloop rfl).2.1 not_endsAt_jumpToItself⟩,
    ⟨rfl, (hresumed 1 1 rfl).symm⟩, Ending.noConfusion, fun limit hle => ?_⟩
  rw [hlarger 2 limit hle Ending.noConfusion]
  rfl

end Machine

end ByteMachine
