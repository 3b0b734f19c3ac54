/-
Cycles one after the other, and the runs made of them.

`Machine.after` goes on whatever happens: a cycle that fails is followed by the next one, and
so is one that halts the machine.  A run is such a sequence up to its first end:

* `Machine.runToHalt_add` — cycles that do not end the run are cycles of the sequence;
* `Machine.runToHalt_eq_unfinished`, `Machine.runToHalt_eq_runUpTo` — what is left when the limit
  is spent, and when a cycle ends the run before;
* `Machine.runUntil_of_le`, `Machine.runUntil_add` — a larger limit changes nothing about a run
  that ended, and a run that did not can be resumed.
-/
import ByteMachine.Machine.Run

namespace ByteMachine

variable {σ α : Type}

/-- Whether a cycle ends a run to the halt: it fails, or leaves the machine halted. -/
def Step.Ends (s : Step σ) : Prop := (∃ f, s.outcome = .error f) ∨ s.machine.state = .halted

/-- How a run ends with a cycle that ends it. -/
def Step.ending (s : Step σ) : Ending :=
  match s.outcome with
  | .error f => .failed f
  | .ok _ => .stopped

theorem Step.not_ends_iff {s : Step σ} :
    ¬ s.Ends ↔ (∃ e, s.outcome = .ok e) ∧ s.machine.state = .running := by
  have hstate : s.machine.state ≠ .halted ↔ s.machine.state = .running := by
    cases s.machine.state <;> simp
  rw [Ends, not_or, ← hstate]
  refine and_congr_left fun _ => ?_
  cases s.outcome <;> simp

/-- A cycle that ends a run either fails, or succeeds and leaves the machine halted. -/
theorem Step.ends_iff {s : Step σ} :
    s.Ends ↔ (∃ f, s.outcome = .error f) ∨
      (∃ e, s.outcome = .ok e) ∧ s.machine.state = .halted := by
  rw [Ends]
  cases s.outcome <;> simp

/-- A cycle that ends a run is not a limit to it. -/
theorem Step.ending_ne_unfinished (s : Step σ) : s.ending ≠ .unfinished := by
  unfold ending
  split <;> exact Ending.noConfusion

namespace Machine

variable [Sink σ]

/-- The machine and the sink after a number of cycles, whatever came of them. -/
def after (m : Machine) (sink : σ) : Nat → Machine × σ
  | 0 => (m, sink)
  | n + 1 =>
    let (m, sink) := after m sink n
    ((m.cycle sink).machine, (m.cycle sink).sink)

/-- The cycle with a number, counted from 0. -/
def nth (m : Machine) (sink : σ) (n : Nat) : Step σ :=
  (m.after sink n).1.cycle (m.after sink n).2

/-- A number of cycles as an onlooker sees them. -/
def turns (m : Machine) (sink : σ) (n : Nat) : List Turn :=
  (List.range n).map fun k => ⟨(m.after sink k).1.snapshot, (m.nth sink k).outcome⟩

variable {m : Machine} {sink : σ}

theorem after_succ (m : Machine) (sink : σ) (n : Nat) :
    m.after sink (n + 1) = (m.cycle sink).machine.after (m.cycle sink).sink n := by
  induction n with
  | zero => rfl
  | succ n ih => rw [after, ih, after]

theorem nth_succ (m : Machine) (sink : σ) (n : Nat) :
    m.nth sink (n + 1) = (m.cycle sink).machine.nth (m.cycle sink).sink n := by
  rw [nth, after_succ, nth]

/-- The machine and the sink are what the last cycle left. -/
theorem after_succ_eq (m : Machine) (sink : σ) (n : Nat) :
    m.after sink (n + 1) = ((m.nth sink n).machine, (m.nth sink n).sink) := rfl

theorem after_add (m : Machine) (sink : σ) (i n : Nat) :
    m.after sink (i + n) = (m.after sink i).1.after (m.after sink i).2 n := by
  induction n with
  | zero => rfl
  | succ n ih => rw [← Nat.add_assoc, after_succ_eq, after_succ_eq, nth, ih, nth]

theorem nth_add (m : Machine) (sink : σ) (i n : Nat) :
    m.nth sink (i + n) = (m.after sink i).1.nth (m.after sink i).2 n := by
  rw [nth, after_add, nth]

theorem turns_succ (m : Machine) (sink : σ) (n : Nat) :
    m.turns sink (n + 1) = ⟨m.snapshot, (m.cycle sink).outcome⟩ ::
      (m.cycle sink).machine.turns (m.cycle sink).sink n := by
  simp only [turns, List.range_succ_eq_map, List.map_cons, List.map_map]
  refine congrArg (List.cons _) (List.map_congr_left fun k _ => ?_)
  rw [Function.comp_apply, after_succ, nth_succ]

/-- Whether the cycle with a number, counted from 0, is the first that ends a run. -/
def EndsAt (m : Machine) (sink : σ) (k : Nat) : Prop :=
  (m.nth sink k).Ends ∧ ∀ j < k, ¬ (m.nth sink j).Ends

/-- The run that goes on up to the cycle with a number, counted from 0, and ends as it does. -/
def runUpTo (see : α → Turn → α) (m : Machine) (sink : σ) (seen : α) (k : Nat) : Run σ α :=
  let last := m.nth sink k
  ⟨last.machine, last.sink, last.ending, (m.turns sink (k + 1)).foldl see seen⟩

theorem exists_endsAt {k : Nat} (h : (m.nth sink k).Ends) : ∃ k, m.EndsAt sink k := by
  induction k using Nat.strongRecOn with
  | ind k ih =>
    by_cases hfirst : ∃ j < k, (m.nth sink j).Ends
    · obtain ⟨j, hj, hends⟩ := hfirst
      exact ih j hj hends
    · exact ⟨k, h, fun j hj hends => hfirst ⟨j, hj, hends⟩⟩

/-- Cycles that end nothing can be put before the ones that do. -/
theorem EndsAt.add {i k : Nat} (h : (m.after sink i).1.EndsAt (m.after sink i).2 k)
    (hfirst : ∀ j < i, ¬ (m.nth sink j).Ends) : m.EndsAt sink (i + k) := by
  refine ⟨?_, fun j hj => ?_⟩
  · rw [nth_add]
    exact h.1
  · by_cases hlt : j < i
    · exact hfirst j hlt
    · obtain ⟨j, rfl⟩ : ∃ n, j = i + n := ⟨j - i, by omega⟩
      rw [nth_add]
      exact h.2 j (by omega)

theorem running_after {n : Nat} (hm : m.state = .running)
    (h : ∀ k < n, ¬ (m.nth sink k).Ends) : (m.after sink n).1.state = .running := by
  cases n with
  | zero => exact hm
  | succ n => exact (Step.not_ends_iff.1 (h n (Nat.lt_succ_self n))).2

section

variable {stop : Machine → Bool} (see : α → Turn → α)

theorem runUntil_zero (hstop : stop m = false) (seen : α) :
    runUntil stop see 0 m sink seen = ⟨m, sink, .unfinished, seen⟩ := by
  simp [runUntil, hstop]

theorem runUntil_succ_ok {e : Effect} (hstop : stop m = false)
    (h : (m.cycle sink).outcome = .ok e) (limit : Nat) (seen : α) :
    runUntil stop see (limit + 1) m sink seen = runUntil stop see limit (m.cycle sink).machine
      (m.cycle sink).sink (see seen ⟨m.snapshot, (m.cycle sink).outcome⟩) := by
  simp [runUntil, hstop, h]

theorem runUntil_succ_error {f : Fault} (hstop : stop m = false)
    (h : (m.cycle sink).outcome = .error f) (limit : Nat) (seen : α) :
    runUntil stop see (limit + 1) m sink seen = ⟨(m.cycle sink).machine, (m.cycle sink).sink,
      .failed f, see seen ⟨m.snapshot, (m.cycle sink).outcome⟩⟩ := by
  simp [runUntil, hstop, h]

/-- A run that did not end within a limit can be resumed. -/
theorem runUntil_add {limit : Nat} {seen : α}
    (h : (runUntil stop see limit m sink seen).ending = .unfinished) (more : Nat) :
    runUntil stop see (limit + more) m sink seen =
      let first := runUntil stop see limit m sink seen
      runUntil stop see more first.machine first.sink first.seen := by
  induction limit generalizing m sink seen with
  | zero =>
    cases hstop : stop m with
    | true => rw [runUntil_of_stop hstop] at h; cases h
    | false => rw [runUntil_zero see hstop, Nat.zero_add]
  | succ limit ih =>
    cases hstop : stop m with
    | true => rw [runUntil_of_stop hstop] at h; cases h
    | false =>
      rw [Nat.succ_add]
      cases hout : (m.cycle sink).outcome with
      | error f => rw [runUntil_succ_error see hstop hout] at h; cases h
      | ok e =>
        rw [runUntil_succ_ok see hstop hout] at h
        rw [runUntil_succ_ok see hstop hout, runUntil_succ_ok see hstop hout, ih h]

/-- A run that ended within a limit is the same within a larger one. -/
theorem runUntil_of_le {limit limit' : Nat} {seen : α} (hle : limit ≤ limit')
    (h : (runUntil stop see limit m sink seen).ending ≠ .unfinished) :
    runUntil stop see limit' m sink seen = runUntil stop see limit m sink seen := by
  induction limit generalizing m sink seen limit' with
  | zero =>
    cases hstop : stop m with
    | true => rw [runUntil_of_stop hstop, runUntil_of_stop hstop]
    | false => rw [runUntil_zero see hstop] at h; exact absurd rfl h
  | succ limit ih =>
    obtain ⟨limit', rfl⟩ : ∃ n, limit' = n + 1 := ⟨limit' - 1, by omega⟩
    cases hstop : stop m with
    | true => rw [runUntil_of_stop hstop, runUntil_of_stop hstop]
    | false =>
      cases hout : (m.cycle sink).outcome with
      | error f => rw [runUntil_succ_error see hstop hout, runUntil_succ_error see hstop hout]
      | ok e =>
        rw [runUntil_succ_ok see hstop hout] at h
        rw [runUntil_succ_ok see hstop hout, runUntil_succ_ok see hstop hout,
          ih (by omega) h]

variable {seen : α}

/-- One cycle of a run to the halt that does not end it. -/
theorem runToHalt_succ (hm : m.state = .running) (h : ¬ (m.cycle sink).Ends) (limit : Nat) :
    m.runToHalt see (limit + 1) sink seen = (m.cycle sink).machine.runToHalt see limit
      (m.cycle sink).sink (see seen ⟨m.snapshot, (m.cycle sink).outcome⟩) := by
  obtain ⟨⟨e, hok⟩, -⟩ := Step.not_ends_iff.1 h
  exact runUntil_succ_ok see (by simp [isRunning, hm]) hok limit seen

/-- The cycle that ends it. -/
theorem runToHalt_of_ends (hm : m.state = .running) (h : (m.cycle sink).Ends) (limit : Nat) :
    m.runToHalt see (limit + 1) sink seen = ⟨(m.cycle sink).machine, (m.cycle sink).sink,
      (m.cycle sink).ending, see seen ⟨m.snapshot, (m.cycle sink).outcome⟩⟩ := by
  have hgo : (!m.isRunning) = false := by simp [isRunning, hm]
  rw [runToHalt]
  rcases Step.ends_iff.1 h with ⟨f, hout⟩ | ⟨⟨e, hout⟩, hhalted⟩
  · rw [runUntil_succ_error see hgo hout, Step.ending, hout]
  · rw [runUntil_succ_ok see hgo hout, Step.ending, hout]
    exact runToHalt_of_halted hhalted see limit _ _

/-- Cycles that do not end a run to the halt are the cycles of the sequence. -/
theorem runToHalt_add {n : Nat} (hm : m.state = .running)
    (h : ∀ k < n, ¬ (m.nth sink k).Ends) (limit : Nat) :
    m.runToHalt see (n + limit) sink seen = (m.after sink n).1.runToHalt see limit
      (m.after sink n).2 ((m.turns sink n).foldl see seen) := by
  induction n generalizing m sink seen with
  | zero =>
    rw [Nat.zero_add]
    rfl
  | succ n ih =>
    have hfirst : ¬ (m.cycle sink).Ends := h 0 (Nat.succ_pos n)
    have hrest : ∀ k < n, ¬ ((m.cycle sink).machine.nth (m.cycle sink).sink k).Ends := by
      intro k hk
      rw [← nth_succ]
      exact h (k + 1) (Nat.succ_lt_succ hk)
    rw [Nat.succ_add, runToHalt_succ see hm hfirst, after_succ, turns_succ, List.foldl_cons]
    exact ih (Step.not_ends_iff.1 hfirst).2 hrest

/-- If no cycle ends the run before the limit is spent, as many cycles are made as it allows. -/
theorem runToHalt_eq_unfinished {limit : Nat} (hm : m.state = .running)
    (h : ∀ k < limit, ¬ (m.nth sink k).Ends) :
    m.runToHalt see limit sink seen = ⟨(m.after sink limit).1, (m.after sink limit).2,
      .unfinished, (m.turns sink limit).foldl see seen⟩ := by
  have hrunning := running_after hm h
  rw [← Nat.add_zero limit, runToHalt_add see hm h 0]
  exact runUntil_zero see (by simp [isRunning, hrunning]) _

/-- Otherwise the run goes on up to the first cycle that ends it. -/
theorem runToHalt_eq_runUpTo {limit k : Nat} (hm : m.state = .running) (h : m.EndsAt sink k)
    (hk : k < limit) : m.runToHalt see limit sink seen = runUpTo see m sink seen k := by
  obtain ⟨rest, rfl⟩ : ∃ rest, limit = k + (rest + 1) := ⟨limit - k - 1, by omega⟩
  have hseen : (m.turns sink (k + 1)).foldl see seen =
      see ((m.turns sink k).foldl see seen)
        ⟨(m.after sink k).1.snapshot, (m.nth sink k).outcome⟩ := by
    simp [turns, List.range_succ]
  rw [runToHalt_add see hm h.2, runUpTo, hseen]
  exact runToHalt_of_ends see (running_after hm h.2) h.1 rest

end

end Machine

end ByteMachine
