/-
What a run hands to its sink.

A cycle asks the sink in one place only: a print offers it a value, and the sink takes the value
or fails.  Whatever it answers, the machine has moved past the print and is the same otherwise:

* `Machine.offer?_eq_some_iff_prints` — the value that the next cycle offers, if it is a print;
* `Machine.machine_cycle_eq`, `Machine.machine_after_eq` — the machine does not depend on the sink,
  after a cycle or a number of them;
* `Machine.outcome_cycle_congr` — nor does the outcome, as long as the sinks answer alike;
* `Machine.sink_after` — the sink has taken in the values offered and nothing else;
* `Machine.run_mapSink` — two runs to the halt whose cycles are the same but for the sink.
-/
import ByteMachine.Proofs.Failure
import ByteMachine.Proofs.Halting
import Mathlib.Data.List.Basic

namespace ByteMachine

variable {σ τ α : Type}

/-- The same step with another sink. -/
def Step.mapSink (φ : σ → τ) (s : Step σ) : Step τ := ⟨s.machine, φ s.sink, s.outcome⟩

/-- The same run with another sink. -/
def Run.mapSink (φ : σ → τ) (r : Run σ α) : Run τ α := ⟨r.machine, φ r.sink, r.ending, r.seen⟩

namespace Machine

/-- The value that the next cycle offers to the sink: that of the register that a print names. -/
def offer? (m : Machine) : Option Byte :=
  match Instruction.decode m.opcodeByte m.operandBytes.1 m.operandBytes.2 with
  | .ok (.print r) => some (m.registers.get r)
  | _ => none

/-- The next cycle fetches `PRN` with an operand that names a register, and this holds the value. -/
def Prints (m : Machine) (v : Byte) : Prop :=
  m.opcodeByte = Opcode.prn.byte ∧ ∃ r : Register, m.operandBytes.1 = r.byte ∧ m.registers.get r = v

/-- What comes of a print, by the answer of the sink. -/
def printOutcome (m : Machine) (r : Register) : Option IoError → Except Fault Effect
  | none => .ok (.printed r (m.registers.get r))
  | some error => .error ⟨.output error, m.fetched⟩

variable [Sink σ] [Sink τ] {m : Machine} {v : Byte}

/-- The run to the halt makes the cycle with a number, counted from 0. -/
def Reaches (m : Machine) (sink : σ) (k : Nat) : Prop :=
  m.state = .running ∧ ∀ j < k, ¬ (m.nth sink j).Ends

/-- The values that a number of cycles offer to the sink. -/
def offers (m : Machine) (sink : σ) (n : Nat) : List Byte :=
  (List.range n).filterMap fun k => (m.after sink k).1.offer?

/-! ### One cycle -/

theorem perform_print (m : Machine) (sink : σ) (r : Register) :
    m.perform sink (.print r) = ⟨m, (Sink.emit sink (m.registers.get r)).1,
      m.printOutcome r (Sink.emit sink (m.registers.get r)).2⟩ := by
  simp only [perform]
  split
  · next he =>
    rw [he]
    rfl
  · next he =>
    rw [he]
    rfl

/-- No instruction but a print looks at the sink. -/
theorem perform_of_ne_print {i : Instruction} (hi : ∀ r, i ≠ .print r) (m : Machine) (s : σ)
    (t : τ) : m.perform s i = ⟨(m.perform t i).machine, s, (m.perform t i).outcome⟩ := by
  cases i with
  | print r => exact absurd rfl (hi r)
  | compute f a b =>
    simp only [perform]
    split <;> rfl
  | _ => rfl

theorem offer?_eq_some_iff : m.offer? = some v ↔
    ∃ r, Instruction.decode m.opcodeByte m.operandBytes.1 m.operandBytes.2 = .ok (.print r) ∧
      m.registers.get r = v := by
  unfold offer?
  split
  · next r hr => simp [hr]
  · next hne =>
    constructor
    · intro h
      cases h
    · rintro ⟨r, hr, -⟩
      exact absurd hr (hne r)

theorem offer?_eq_some_iff_prints : m.offer? = some v ↔ m.Prints v := by
  have hdecode : ∀ r : Register,
      Instruction.decode m.opcodeByte m.operandBytes.1 m.operandBytes.2 = .ok (.print r) ↔
        m.opcodeByte = Opcode.prn.byte ∧ m.operandBytes.1 = r.byte := by
    intro r
    rw [Instruction.decode_eq_ok_iff]
    show [Opcode.prn.byte, r.byte] <+: _ ↔ _
    rw [List.cons_prefix_cons, List.cons_prefix_cons, eq_comm, eq_comm (a := r.byte)]
    exact and_congr_right fun _ => and_iff_left List.nil_prefix
  rw [offer?_eq_some_iff]
  constructor
  · rintro ⟨r, hr, hv⟩
    obtain ⟨hop, ha⟩ := (hdecode r).1 hr
    exact ⟨hop, r, ha, hv⟩
  · rintro ⟨hop, r, ha, hv⟩
    exact ⟨r, (hdecode r).2 ⟨hop, ha⟩, hv⟩

/-- A cycle that offers nothing is the same with every sink, and leaves the sink alone. -/
theorem cycle_of_offer?_eq_none (h : m.offer? = none) (s : σ) (t : τ) :
    m.cycle s = ⟨(m.cycle t).machine, s, (m.cycle t).outcome⟩ := by
  unfold offer? at h
  unfold cycle
  cases hread : Instruction.decode m.opcodeByte m.operandBytes.1 m.operandBytes.2 with
  | error cause => rfl
  | ok i =>
    refine perform_of_ne_print (fun r hr => ?_) m.advance s t
    rw [hread, hr] at h
    cases h

/-- A cycle that offers a value does what the sink makes of it. -/
theorem cycle_of_offer?_eq_some (h : m.offer? = some v) : ∃ r, m.registers.get r = v ∧
    ∀ (σ : Type) [Sink σ] (sink : σ), m.cycle sink = ⟨m.advance, (Sink.emit sink v).1,
      m.advance.printOutcome r (Sink.emit sink v).2⟩ := by
  obtain ⟨r, hread, rfl⟩ := offer?_eq_some_iff.1 h
  refine ⟨r, rfl, fun σ _ sink => ?_⟩
  rw [cycle, hread]
  exact perform_print m.advance sink r

theorem machine_cycle_eq (m : Machine) (s : σ) (t : τ) :
    (m.cycle s).machine = (m.cycle t).machine := by
  cases h : m.offer? with
  | none => rw [cycle_of_offer?_eq_none h s t]
  | some v =>
    obtain ⟨r, -, hcycle⟩ := cycle_of_offer?_eq_some h
    rw [hcycle σ s, hcycle τ t]

theorem outcome_cycle_congr {s : σ} {t : τ}
    (h : ∀ v, m.offer? = some v → (Sink.emit s v).2 = (Sink.emit t v).2) :
    (m.cycle s).outcome = (m.cycle t).outcome := by
  cases hoffer : m.offer? with
  | none => rw [cycle_of_offer?_eq_none hoffer s t]
  | some v =>
    obtain ⟨r, -, hcycle⟩ := cycle_of_offer?_eq_some hoffer
    rw [hcycle σ s, hcycle τ t, h v hoffer]

/-- A print that the sink refuses fails with the error of the sink, at its own address. -/
theorem outcome_cycle_of_refused {s : σ} {error : IoError} (h : m.offer? = some v)
    (he : (Sink.emit s v).2 = some error) :
    (m.cycle s).outcome = .error ⟨.output error, m.pc⟩ := by
  obtain ⟨r, -, hcycle⟩ := cycle_of_offer?_eq_some h
  rw [hcycle σ s, he]
  rfl

theorem sink_cycle (m : Machine) (s : σ) :
    (m.cycle s).sink = m.offer?.elim s fun v => (Sink.emit s v).1 := by
  cases h : m.offer? with
  | none =>
    rw [cycle_of_offer?_eq_none h s s]
    rfl
  | some v =>
    obtain ⟨r, -, hcycle⟩ := cycle_of_offer?_eq_some h
    rw [hcycle σ s]
    rfl

/-- A fault of the output is the answer of the sink to the value offered. -/
theorem exists_offer?_of_output {s : σ} {f : Fault} {error : IoError}
    (h : (m.cycle s).outcome = .error f) (hf : f.cause = .output error) :
    ∃ v, m.offer? = some v ∧ (Sink.emit s v).2 = some error := by
  obtain ⟨-, ⟨-, hne⟩ | ⟨r, error', hread, hcause, hemit⟩⟩ := serve_error (q := .cycle) h
  · exact absurd hf (hne error)
  · cases hf.symm.trans hcause
    exact ⟨_, offer?_eq_some_iff.2 ⟨r, hread, rfl⟩, congrArg Prod.snd hemit⟩

/-- A cycle that succeeds tells the value that it offered as the one printed. -/
theorem printed?_eq_offer? {s : σ} {e : Effect} (h : (m.cycle s).outcome = .ok e) :
    e.printed? = m.offer? := by
  obtain ⟨i, hbytes, hcycle⟩ := cycle_ok h
  rw [hcycle] at h
  rw [offer?, Instruction.decode_eq_ok_iff.2 hbytes]
  cases i with
  | print r =>
    rw [perform_print] at h
    cases hanswer : (Sink.emit s (m.advance.registers.get r)).2 with
    | none =>
      rw [hanswer] at h
      cases h
      rfl
    | some error =>
      rw [hanswer] at h
      cases h
  | compute f a b =>
    simp only [perform] at h
    split at h
    · cases h
    · cases h
      rfl
  | _ =>
    cases h
    rfl

/-! ### Cycles one after the other -/

theorem machine_after_eq (m : Machine) (s : σ) (t : τ) (n : Nat) :
    (m.after s n).1 = (m.after t n).1 := by
  induction n with
  | zero => rfl
  | succ n ih =>
    rw [after_succ_eq, after_succ_eq, nth, nth, ih]
    exact machine_cycle_eq _ _ _

theorem offers_eq (m : Machine) (s : σ) (t : τ) (n : Nat) : m.offers s n = m.offers t n := by
  refine List.filterMap_congr fun k _ => ?_
  rw [machine_after_eq m s t]

theorem offers_succ (m : Machine) (s : σ) (n : Nat) :
    m.offers s (n + 1) = m.offers s n ++ (m.after s n).1.offer?.toList := by
  rw [offers, List.range_succ, List.filterMap_append]
  cases h : (m.after s n).1.offer? <;> simp [offers, h]

theorem sink_after_succ (m : Machine) (s : σ) (n : Nat) : (m.after s (n + 1)).2 =
    (m.after s n).1.offer?.elim (m.after s n).2 fun v => (Sink.emit (m.after s n).2 v).1 :=
  sink_cycle _ _

/-- The sink after a number of cycles has taken in the values that they offered. -/
theorem sink_after (m : Machine) (s : σ) (n : Nat) :
    (m.after s n).2 = (m.offers s n).foldl (fun s v => (Sink.emit s v).1) s := by
  induction n with
  | zero => rfl
  | succ n ih =>
    rw [sink_after_succ, offers_succ, List.foldl_append, ← ih]
    cases (m.after s n).1.offer? <;> rfl

/-! ### Collected values -/

theorem outcome_cycle_collect (m : Machine) (values others : Array Byte) :
    (m.cycle values).outcome = (m.cycle others).outcome :=
  outcome_cycle_congr fun _ _ => rfl

/-- A list refuses nothing, so that a cycle that fails did not print. -/
theorem offer?_eq_none_of_error {values : Array Byte} {f : Fault}
    (h : (m.cycle values).outcome = .error f) : m.offer? = none := by
  cases hoffer : m.offer? with
  | none => rfl
  | some v =>
    obtain ⟨r, -, hcycle⟩ := cycle_of_offer?_eq_some hoffer
    rw [hcycle (Array Byte) values] at h
    cases h

/-- The values collected are those offered, in their order. -/
theorem toList_after (m : Machine) (values : Array Byte) (n : Nat) :
    (m.after values n).2.toList = values.toList ++ m.offers values n := by
  rw [sink_after]
  show (List.foldl Array.push values (m.offers values n)).toList = _
  rw [List.foldl_push_eq_append', Array.toList_append]

theorem toList_after_add (m : Machine) (values : Array Byte) (i n : Nat) :
    (m.after values (i + n)).2.toList =
      (m.after values i).2.toList ++ (m.after values i).1.offers values n := by
  rw [after_add, toList_after, offers_eq _ _ values]

/-! ### One sink as an image of another -/

section

variable {s : σ} {t : τ} {k : Nat}

theorem turns_congr {n : Nat} (h : ∀ k < n, (m.nth t k).outcome = (m.nth s k).outcome) :
    m.turns t n = m.turns s n := by
  refine List.map_congr_left fun k hk => ?_
  rw [h k (List.mem_range.1 hk), machine_after_eq m t s]

/-- What a cycle leaves and what comes of it make up the step. -/
theorem nth_eq_mapSink {φ : σ → τ}
    (hafter : m.after t (k + 1) = ((m.after s (k + 1)).1, φ (m.after s (k + 1)).2))
    (houtcome : (m.nth t k).outcome = (m.nth s k).outcome) :
    m.nth t k = (m.nth s k).mapSink φ := by
  have hmachine : (m.nth t k).machine = (m.nth s k).machine := congrArg Prod.fst hafter
  have hsink : (m.nth t k).sink = φ (m.nth s k).sink := congrArg Prod.snd hafter
  rw [Step.mapSink, ← hmachine, ← hsink, ← houtcome]

variable (φ : σ → τ)

/-- A sink that changes as the image of another one is the image after every cycle. -/
theorem after_map (hφ : ∀ s v, (Sink.emit (φ s) v).1 = φ (Sink.emit s v).1) (m : Machine) (s : σ)
    (n : Nat) : m.after (φ s) n = ((m.after s n).1, φ (m.after s n).2) := by
  refine Prod.ext (machine_after_eq m _ _ n) ?_
  rw [sink_after, sink_after, offers_eq m (φ s) s]
  show _ = φ (List.foldl (fun s v => (Sink.emit s v).1) s (m.offers s n))
  rw [List.foldl_hom φ hφ]

/-- So is the cycle, if both sinks give the same answer to the value that it offers. -/
theorem nth_mapSink (hφ : ∀ s v, (Sink.emit (φ s) v).1 = φ (Sink.emit s v).1)
    (h : ∀ v, (m.after s k).1.offer? = some v →
      (Sink.emit (φ (m.after s k).2) v).2 = (Sink.emit (m.after s k).2 v).2) :
    m.nth (φ s) k = (m.nth s k).mapSink φ := by
  refine nth_eq_mapSink (after_map φ hφ m s (k + 1)) ?_
  rw [nth, after_map φ hφ]
  exact outcome_cycle_congr h

/-- Two runs to the halt whose cycles are the same but for the sink, up to the end of the first, are
the same but for the sink. -/
theorem run_mapSink (h : ∀ k, m.Reaches s k → m.nth (φ s) k = (m.nth s k).mapSink φ)
    (see : α → Turn → α) (seen : α) :
    m.run see (φ s) seen = (m.run see s seen).map (Run.mapSink φ) := by
  cases hm : m.state with
  | halted =>
    rw [run_of_halted see hm, run_of_halted see hm, Part.map_some]
    rfl
  | running =>
    by_cases hends : ∃ k, m.EndsAt s k
    · -- The first cycle that ends the one run is the first that ends the other.
      obtain ⟨k, hk⟩ := hends
      have hnth : ∀ j ≤ k, m.nth (φ s) j = (m.nth s j).mapSink φ := by
        intro j hj
        exact h j ⟨hm, fun i hi => hk.2 i (Nat.lt_of_lt_of_le hi hj)⟩
      have hk' : m.EndsAt (φ s) k := by
        refine ⟨?_, fun j hj => ?_⟩
        · rw [hnth k (Nat.le_refl k)]
          exact hk.1
        · rw [hnth j (Nat.le_of_lt hj)]
          exact hk.2 j hj
      have hturns : m.turns (φ s) (k + 1) = m.turns s (k + 1) := by
        refine turns_congr fun j hj => ?_
        rw [hnth j (Nat.le_of_lt_succ hj)]
        rfl
      rw [run_eq_runUpTo see hm hk, run_eq_runUpTo see hm hk', Part.map_some, runUpTo, runUpTo,
        hnth k (Nat.le_refl k), hturns]
      rfl
    · have hnever : ∀ k, ¬ (m.nth s k).Ends := by
        intro k hk
        exact hends (exists_endsAt hk)
      have hnever' : ∀ k, ¬ m.EndsAt (φ s) k := by
        rintro k ⟨hk, -⟩
        rw [h k ⟨hm, fun j _ => hnever j⟩] at hk
        exact hnever k hk
      rw [run_eq_none see hm fun k hk => hends ⟨k, hk⟩, run_eq_none see hm hnever',
        Part.map_none]

end

end Machine

end ByteMachine
