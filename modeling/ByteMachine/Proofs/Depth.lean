/-
How deep a list of calls leaves the stack.

The depth counts pushes minus pops (`depth`), and it keeps to its bounds over a list if it does
so after any number of the calls (`Within`).  A list that comes out where it began and never
goes below it is `Balanced`, and such a list stands between a push and the pop that matches it:

* `Balanced.append`, `Balanced.wrap` — balanced lists one after the other, and inside one
  another;
* `exists_onTop` — a list of positive depth has a push that is still on top at its end, so
  every pop has one to match.
-/
import ByteMachine.Proofs.Calls

namespace ByteMachine

/-- How much an instruction raises the depth of the stack. -/
def Opcode.rise : Opcode → Int
  | push => 1
  | pop => -1
  | hlt | ldi | prn | add | mul | div | cmp | and | jmp | jeq | jne => 0

theorem Opcode.rise_of_ne {o : Opcode} (hpush : o ≠ .push) (hpop : o ≠ .pop) : o.rise = 0 := by
  cases o with
  | push => exact absurd rfl hpush
  | pop => exact absurd rfl hpop
  | _ => rfl

/-- Pushes minus pops. -/
def depth : List Call → Int
  | [] => 0
  | c :: calls => c.opcode.rise + depth calls

/-- From a depth of `start`, the calls keep the depth from 0 to `high`. -/
def Within (start high : Int) (calls : List Call) : Prop :=
  ∀ k, 0 ≤ start + depth (calls.take k) ∧ start + depth (calls.take k) ≤ high

/-- The calls come out at the depth where they began, and never go below it. -/
structure Balanced (calls : List Call) : Prop where
  settled : depth calls = 0
  nonneg : ∀ k, 0 ≤ depth (calls.take k)

/-- At the end of `calls`, the value on top of the stack is the one that was put there by
`push`, which comes behind `before`. -/
structure OnTop (calls before : List Call) (push : Call) (between : List Call) : Prop where
  split : calls = before ++ push :: between
  opcode : push.opcode = .push
  balanced : Balanced between

@[simp] theorem depth_nil : depth [] = 0 := rfl

@[simp] theorem depth_cons (c : Call) (calls : List Call) :
    depth (c :: calls) = c.opcode.rise + depth calls := rfl

@[simp] theorem depth_append (calls others : List Call) :
    depth (calls ++ others) = depth calls + depth others := by
  induction calls with
  | nil => simp
  | cons c calls ih => rw [List.cons_append, depth_cons, depth_cons, ih, Int.add_assoc]

namespace Within

variable {start high : Int} {c : Call} {calls others : List Call}

theorem whole (h : Within start high calls) :
    0 ≤ start + depth calls ∧ start + depth calls ≤ high := by
  have := h calls.length
  rwa [List.take_length] at this

theorem head (h : Within start high (c :: calls)) :
    0 ≤ start + c.opcode.rise ∧ start + c.opcode.rise ≤ high := by
  have := h 1
  rwa [List.take_succ_cons, List.take_zero, depth_cons, depth_nil, Int.add_zero] at this

theorem tail (h : Within start high (c :: calls)) :
    Within (start + c.opcode.rise) high calls := by
  intro k
  have := h (k + 1)
  rwa [List.take_succ_cons, depth_cons, ← Int.add_assoc] at this

theorem left (h : Within start high (calls ++ others)) : Within start high calls := by
  intro k
  have hk : (calls ++ others).take (min k calls.length) = calls.take k := by
    rw [List.take_append_of_le_length (by omega), ← List.take_eq_take_min]
  rw [← hk]
  exact h _

theorem right (h : Within start high (calls ++ others)) :
    Within (start + depth calls) high others := by
  intro k
  have := h (calls.length + k)
  rwa [List.take_length_add_append, depth_append, ← Int.add_assoc] at this

/-- Nothing changes after the last call. -/
theorem iff_forall_le_length : Within start high calls ↔ ∀ k < calls.length + 1,
    0 ≤ start + depth (calls.take k) ∧ start + depth (calls.take k) ≤ high := by
  refine ⟨fun h k _ => h k, fun h k => ?_⟩
  rw [List.take_eq_take_min]
  exact h _ (by omega)

instance (calls : List Call) : Decidable (Within start high calls) :=
  decidable_of_iff _ iff_forall_le_length.symm

end Within

theorem balanced_nil : Balanced [] := ⟨rfl, fun k => by simp⟩

theorem balanced_singleton {c : Call} (hc : c.opcode.rise = 0) : Balanced [c] := by
  refine ⟨by simp [hc], fun k => ?_⟩
  cases k with
  | zero => simp
  | succ k => simp [hc]

theorem Balanced.append {calls others : List Call} (h : Balanced calls) (h' : Balanced others) :
    Balanced (calls ++ others) := by
  refine ⟨?_, fun k => ?_⟩
  · rw [depth_append, h.settled, h'.settled]
    rfl
  · rw [List.take_append, depth_append]
    exact Int.add_nonneg (h.nonneg k) (h'.nonneg _)

/-- The calls from a push to the pop that matches it. -/
theorem Balanced.wrap {push pop : Call} {between : List Call} (hpush : push.opcode = .push)
    (hpop : pop.opcode = .pop) (h : Balanced between) :
    Balanced (push :: (between ++ [pop])) := by
  have hrise : push.opcode.rise = 1 := by
    rw [hpush]
    rfl
  have hfall : pop.opcode.rise = -1 := by
    rw [hpop]
    rfl
  refine ⟨by simp [hrise, hfall, h.settled], fun k => ?_⟩
  cases k with
  | zero => simp
  | succ k =>
    have hlast : -1 ≤ depth ([pop].take (k - between.length)) := by
      cases k - between.length with
      | zero => simp
      | succ j => simp [hfall]
    have := h.nonneg k
    rw [List.take_succ_cons, List.take_append, depth_cons, depth_append, hrise]
    omega

/-- A list that raises the depth has a push that is still on top at its end. -/
theorem exists_onTop {calls : List Call} (h : 1 ≤ depth calls) :
    ∃ before push between, OnTop calls before push between := by
  -- By the last call.  Behind a pop, the push is the one below the one that the pop matches.
  rcases List.eq_nil_or_concat calls with rfl | ⟨done, c, rfl⟩
  · simp at h
  · rw [List.concat_eq_append] at h ⊢
    rw [depth_append, depth_cons, depth_nil] at h
    by_cases hpush : c.opcode = .push
    · exact ⟨done, c, [], rfl, hpush, balanced_nil⟩
    · by_cases hpop : c.opcode = .pop
      · rw [hpop, Opcode.rise] at h
        have hdone : 1 ≤ depth done := by omega
        obtain ⟨lower, top, inner, rfl, htop, hinner⟩ := exists_onTop hdone
        have hlower : 1 ≤ depth lower := by
          simp only [depth_append, depth_cons, htop, Opcode.rise, hinner.settled] at h
          omega
        obtain ⟨before, push, between, rfl, hopcode, hbetween⟩ := exists_onTop hlower
        exact ⟨before, push, between ++ top :: (inner ++ [c]), by simp, hopcode,
          hbetween.append (hinner.wrap htop hpop)⟩
      · have hrise := Opcode.rise_of_ne hpush hpop
        have hdone : 1 ≤ depth done := by omega
        obtain ⟨before, push, between, rfl, hopcode, hbetween⟩ := exists_onTop hdone
        exact ⟨before, push, between ++ [c], by simp, hopcode,
          hbetween.append (balanced_singleton hrise)⟩
termination_by calls.length

end ByteMachine
