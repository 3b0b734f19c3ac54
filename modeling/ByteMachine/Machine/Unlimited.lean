/-
Runs without a limit.

A run goes on until the machine halts or a cycle fails, and that may never happen.  What it comes
to is a partial value, which a run that never ends does not have.

* `Machine.run` — the run to the halt, shown to an onlooker cycle by cycle;
* `Machine.logged` — the run to the halt with its log.
-/
import ByteMachine.Log
import Mathlib.Data.PFun

namespace ByteMachine.Machine

variable {σ α : Type} [Sink σ]

/-- One turn of the loop: the run is over, or it goes on. -/
def loop (see : α → Turn → α) : Machine × σ × α → Run σ α ⊕ Machine × σ × α
  | (m, sink, seen) =>
    if m.isRunning then
      let step := m.cycle sink
      let seen := see seen ⟨m.snapshot, step.outcome⟩
      match step.outcome with
      | .error fault => .inl ⟨step.machine, step.sink, .failed fault, seen⟩
      | .ok _ => .inr (step.machine, step.sink, seen)
    else .inl ⟨m, sink, .stopped, seen⟩

/-- Runs until the machine halts or a cycle fails, however long that takes.  A run that never
ends comes to nothing. -/
def run (see : α → Turn → α) (m : Machine) (sink : σ) (seen : α) : Part (Run σ α) :=
  PFun.fix (fun c => Part.some (loop see c)) (m, sink, seen)

/-- The log of the run to the halt at a threshold, if the run ends. -/
def logged (t : Threshold) (m : Machine) (sink : σ) : Part (Run σ (List Record)) :=
  (m.run (keep t) sink []).map (Run.close t)

end ByteMachine.Machine
