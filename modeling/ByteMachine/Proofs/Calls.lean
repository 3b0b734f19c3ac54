/-
Direct calls of the units.

A call that is given to its unit does what the instruction does that its bytes are read as
(`Machine.call_eq_issue`).  A list of calls is worked off up to the first that fails:

* `Machine.callAll_cons_ok`, `Machine.callAll_cons_error` — one call at a time;
* `Machine.callAll_append` — two lists one after the other, if the first succeeds;
* `Machine.succeeds_callAll_append` — both succeed if the whole does;
* `Machine.outcomes_callAll_take` — the outcomes of a shorter list are the first of all.
-/
import ByteMachine.Machine.Call
import ByteMachine.Proofs.Step

namespace ByteMachine

namespace Call

theorem decode_eq_read (c : Call) : Instruction.decode c.opcode.byte c.first c.second = c.read := by
  simp [Instruction.decode, read]

theorem read_eq_ok_iff {c : Call} {i : Instruction} :
    c.read = .ok i ↔ i.opcode = c.opcode ∧ i.operands <+: [c.first, c.second] := by
  -- The call is what a cycle would read from its three bytes.
  rw [← decode_eq_read, Instruction.decode_eq_ok_iff, Instruction.bytes, List.cons_prefix_cons]
  exact and_congr_left fun _ => Opcode.byte_inj

end Call

variable {σ : Type}

def Calls.Succeeds (r : Calls σ) : Prop := ∀ f, .error f ∉ r.outcomes

@[simp] theorem Calls.succeeds_after {r : Calls σ} {outcomes : List (Except Fault Effect)} :
    (r.after outcomes).Succeeds ↔ (∀ f, .error f ∉ outcomes) ∧ r.Succeeds := by
  simp [Succeeds, after, forall_and]

namespace Machine

variable [Sink σ]

theorem call_eq_issue (m : Machine) (sink : σ) (c : Call) :
    m.call sink c = m.issue sink c.read := by
  unfold call Call.read
  split <;> rfl

theorem call_ok {m : Machine} {sink : σ} {c : Call} {e : Effect}
    (h : (m.call sink c).outcome = .ok e) :
    ∃ i : Instruction, i.opcode = c.opcode ∧ i.operands <+: [c.first, c.second] ∧
      m.call sink c = m.perform sink i := by
  rw [call_eq_issue] at h ⊢
  obtain ⟨i, hread, hissue⟩ := issue_ok h
  obtain ⟨hop, hoperands⟩ := Call.read_eq_ok_iff.1 hread
  exact ⟨i, hop, hoperands, hissue⟩

theorem callAll_cons_ok {m : Machine} {sink : σ} {c : Call} {e : Effect}
    (h : (m.call sink c).outcome = .ok e) (cs : List Call) :
    m.callAll sink (c :: cs) =
      (callAll (m.call sink c).machine (m.call sink c).sink cs).after [.ok e] := by
  simp only [callAll, h]

theorem callAll_cons_error {m : Machine} {sink : σ} {c : Call} {f : Fault}
    (h : (m.call sink c).outcome = .error f) (cs : List Call) :
    m.callAll sink (c :: cs) = ⟨(m.call sink c).machine, (m.call sink c).sink, [.error f]⟩ := by
  simp only [callAll, h]

theorem succeeds_callAll_cons {m : Machine} {sink : σ} {c : Call} {cs : List Call} :
    (m.callAll sink (c :: cs)).Succeeds ↔ ∃ e, (m.call sink c).outcome = .ok e ∧
      (callAll (m.call sink c).machine (m.call sink c).sink cs).Succeeds := by
  cases h : (m.call sink c).outcome with
  | error f => simp [callAll_cons_error h, Calls.Succeeds]
  | ok e => simp [callAll_cons_ok h]

theorem length_outcomes_callAll {m : Machine} {sink : σ} {cs : List Call}
    (h : (m.callAll sink cs).Succeeds) : (m.callAll sink cs).outcomes.length = cs.length := by
  induction cs generalizing m sink with
  | nil => rfl
  | cons c cs ih =>
    obtain ⟨e, hc, hcs⟩ := succeeds_callAll_cons.1 h
    simp [callAll_cons_ok hc, Calls.after, ih hcs]

theorem callAll_append {m : Machine} {sink : σ} {cs : List Call}
    (h : (m.callAll sink cs).Succeeds) (ds : List Call) :
    m.callAll sink (cs ++ ds) =
      (callAll (m.callAll sink cs).machine (m.callAll sink cs).sink ds).after
        (m.callAll sink cs).outcomes := by
  induction cs generalizing m sink with
  | nil => rfl
  | cons c cs ih =>
    obtain ⟨e, hc, hcs⟩ := succeeds_callAll_cons.1 h
    rw [List.cons_append, callAll_cons_ok hc, callAll_cons_ok hc, ih hcs]
    simp [Calls.after]

theorem outcomes_callAll_take (m : Machine) (sink : σ) (cs : List Call) (k : Nat) :
    (m.callAll sink (cs.take k)).outcomes = (m.callAll sink cs).outcomes.take k := by
  induction cs generalizing m sink k with
  | nil => simp [callAll]
  | cons c cs ih =>
    cases k with
    | zero => rfl
    | succ k =>
      rw [List.take_succ_cons]
      cases h : (m.call sink c).outcome with
      | error f => simp [callAll_cons_error h]
      | ok e => simp [callAll_cons_ok h, Calls.after, ih]

theorem succeeds_callAll_append {m : Machine} {sink : σ} {cs ds : List Call} :
    (m.callAll sink (cs ++ ds)).Succeeds ↔ (m.callAll sink cs).Succeeds ∧
      (callAll (m.callAll sink cs).machine (m.callAll sink cs).sink ds).Succeeds := by
  constructor
  · intro h
    have hcs : (m.callAll sink cs).Succeeds := by
      -- Its outcomes are among those of the whole list.
      intro f hf
      have hfirst := m.outcomes_callAll_take sink (cs ++ ds) cs.length
      rw [List.take_append_length] at hfirst
      rw [hfirst] at hf
      exact h f (List.mem_of_mem_take hf)
    rw [callAll_append hcs, Calls.succeeds_after] at h
    exact ⟨hcs, h.2⟩
  · rintro ⟨hcs, hds⟩
    rw [callAll_append hcs, Calls.succeeds_after]
    exact ⟨hcs, hds⟩

end Machine

end ByteMachine
