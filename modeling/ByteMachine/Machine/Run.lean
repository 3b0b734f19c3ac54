/-
Runs: cycles one after the other.

A run goes on until the machine is where it should stop, a cycle fails, or a limit
on the number of cycles is spent, whichever comes first.  An onlooker sees each
cycle as a `Turn` and keeps of it what it likes.

* `Machine.runUntil` — the general run;
* `Machine.runToHalt`, `Machine.runCycles` — until the machine halts, and for a
  number of cycles whatever its run state is;
* `Machine.configurations` — how many cycles a machine that halts can need at most;
* `Machine.runUntil_of_stop` — a machine that is where it should stop does nothing.
-/
import ByteMachine.Machine.Cycle

namespace ByteMachine

/-- One cycle as an onlooker sees it: the machine before it, and what came of it. -/
structure Turn where
  before : Snapshot
  outcome : Except Fault Effect

/-- How a run ended. -/
inductive Ending where
  /-- The machine is where it should stop. -/
  | stopped
  | failed (fault : Fault)
  /-- The limit is spent. -/
  | unfinished
deriving DecidableEq

/-- The machine and the sink after a run, how it ended and what was seen of it. -/
structure Run (σ α : Type) where
  machine : Machine
  sink : σ
  ending : Ending
  seen : α

namespace Machine

variable {σ α : Type} [Sink σ]

/-- Runs cycles until the machine is where it should stop, a cycle fails or the
limit is spent.  Each cycle is shown to the onlooker. -/
def runUntil (stop : Machine → Bool) (see : α → Turn → α) :
    Nat → Machine → σ → α → Run σ α
  | limit, m, sink, seen =>
    if stop m then ⟨m, sink, .stopped, seen⟩
    else match limit with
      | 0 => ⟨m, sink, .unfinished, seen⟩
      | limit + 1 =>
        let before := m.snapshot
        let step := m.cycle sink
        let seen := see seen ⟨before, step.outcome⟩
        match step.outcome with
        | .error fault => ⟨step.machine, step.sink, .failed fault, seen⟩
        | .ok _ => runUntil stop see limit step.machine step.sink seen

def runToHalt (see : α → Turn → α) (limit : Nat) (m : Machine) (sink : σ) (seen : α) :
    Run σ α :=
  runUntil (fun m => !m.isRunning) see limit m sink seen

/-- Runs a number of cycles, whether the machine has halted or not. -/
def runCycles (see : α → Turn → α) (count : Nat) (m : Machine) (sink : σ) (seen : α) :
    Run σ α :=
  runUntil (fun _ => false) see count m sink seen

/-- The number of values that memory, registers, flags and program counter of a
running machine can have together: 265 bytes, and three bits of flags. -/
def configurations : Nat := 8 * Nat.pow 256 265

theorem runUntil_of_stop {stop : Machine → Bool} {m : Machine} (h : stop m = true)
    (see : α → Turn → α) (limit : Nat) (sink : σ) (seen : α) :
    runUntil stop see limit m sink seen = ⟨m, sink, .stopped, seen⟩ := by
  cases limit <;> simp [runUntil, h]

theorem runToHalt_of_halted {m : Machine} (h : m.state = .halted) (see : α → Turn → α)
    (limit : Nat) (sink : σ) (seen : α) :
    m.runToHalt see limit sink seen = ⟨m, sink, .stopped, seen⟩ :=
  runUntil_of_stop (by simp [isRunning, h]) see limit sink seen

end Machine

end ByteMachine
