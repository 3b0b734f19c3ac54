/-
Sums and products in eight bits.

A sum or a product is stored without the bits that do not fit its register, and the next operation
goes on from there.  Leaving these bits out is a homomorphism, so that it makes no difference when
it is done:

* `RingStep.evalAll` — a list of sums and products of registers, over values of any kind;
* `evalAll_map` — a homomorphism may be applied before the list or after it;
* `Machine.callAll_ring` — given to the arithmetic unit, such a list is computed over bytes, and
  nothing but registers is touched;
* `Machine.callAll_exact` — every register is the exact result over the natural numbers, cut to
  eight bits at the end.

Quotients and bitwise products are no such operations: they do look at the bits that are gone.
-/
import ByteMachine.Proofs.Calls
import Mathlib.Logic.Function.Basic

namespace ByteMachine

/-- The operations of the arithmetic unit that every ring has. -/
inductive RingOp where
  | add | mul
deriving DecidableEq

namespace RingOp

def arith : RingOp → Arith
  | add => .add
  | mul => .mul

def eval {R : Type} [Add R] [Mul R] (f : RingOp) (x y : R) : R :=
  match f with
  | add => x + y
  | mul => x * y

/-- Over bytes it is the operation of the unit, which always has a result. -/
theorem eval?_arith (f : RingOp) (x y : Byte) : f.arith.eval? x y = some (f.eval x y) := by
  cases f <;> rfl

end RingOp

/-- A sum or a product of two registers, the same one maybe, that goes to the first of them. -/
structure RingStep where
  operation : RingOp
  left : Register
  right : Register
deriving DecidableEq

namespace RingStep

variable {R S : Type} [Add R] [Mul R] [Add S] [Mul S]

/-- What the arithmetic unit is given. -/
def call (s : RingStep) : Call := ⟨s.operation.arith.opcode, s.left.byte, s.right.byte⟩

/-- The values of the registers after a step. -/
def eval (s : RingStep) (values : Register → R) : Register → R :=
  Function.update values s.left (s.operation.eval (values s.left) (values s.right))

/-- The values of the registers after some steps, one after the other. -/
def evalAll (steps : List RingStep) (values : Register → R) : Register → R :=
  steps.foldl (fun values s => s.eval values) values

variable {f : R → S}

theorem eval_map (hadd : ∀ x y, f (x + y) = f x + f y) (hmul : ∀ x y, f (x * y) = f x * f y)
    (s : RingStep) (values : Register → R) : s.eval (f ∘ values) = f ∘ s.eval values := by
  have hoperation : ∀ x y, s.operation.eval (f x) (f y) = f (s.operation.eval x y) := by
    intro x y
    cases s.operation with
    | add => exact (hadd x y).symm
    | mul => exact (hmul x y).symm
  rw [eval, eval, Function.comp_update, ← hoperation]
  rfl

theorem evalAll_map (hadd : ∀ x y, f (x + y) = f x + f y) (hmul : ∀ x y, f (x * y) = f x * f y)
    (steps : List RingStep) (values : Register → R) :
    evalAll steps (f ∘ values) = f ∘ evalAll steps values := by
  induction steps generalizing values with
  | nil => rfl
  | cons s steps ih =>
    show evalAll steps (s.eval (f ∘ values)) = f ∘ evalAll steps (s.eval values)
    rw [eval_map hadd hmul, ih]

/-- Over bytes, the result is that over the natural numbers without the bits that do not fit. -/
theorem evalAll_toNat (steps : List RingStep) (values : Register → Byte) (r : Register) :
    (evalAll steps values r).toNat = evalAll steps (fun k => (values k).toNat) r % 256 := by
  have hcut : (UInt8.ofNat ∘ fun k => (values k).toNat) = values := by
    funext k
    exact UInt8.ofNat_toNat
  have hmap := evalAll_map UInt8.ofNat_add UInt8.ofNat_mul steps fun k => (values k).toNat
  rw [hcut] at hmap
  rw [hmap, Function.comp_apply, UInt8.toNat_ofNat']

end RingStep

/-- A register that is written, as an update of what the registers hold. -/
theorem Registers.get_set_eq_update (rs : Registers) (r : Register) (v : Byte) :
    (rs.set r v).get = Function.update rs.get r v := by
  funext k
  rw [get_set, Function.update_apply]
  simp only [eq_comm]

namespace Machine

variable {σ : Type} [Sink σ] (m : Machine) (sink : σ)

theorem call_ring (s : RingStep) :
    let x := m.registers.get s.left
    let y := m.registers.get s.right
    let v := s.operation.eval x y
    m.call sink s.call = ⟨{ m with registers := m.registers.set s.left v }, sink,
      .ok (.computed s.operation.arith s.left s.right x y v)⟩ := by
  intro x y v
  have hread : s.call.read = .ok (.compute s.operation.arith s.left s.right) :=
    Call.read_eq_ok_iff.2 ⟨rfl, List.prefix_rfl⟩
  rw [call_eq_issue, hread]
  show m.perform sink (.compute _ _ _) = _
  simp only [perform, RingOp.eval?_arith]
  rfl

/-- The arithmetic unit computes a list of sums and products, and touches nothing else. -/
theorem callAll_ring (steps : List RingStep) :
    let done := m.callAll sink (steps.map RingStep.call)
    done.Succeeds ∧ done.sink = sink ∧
      done.machine = { m with registers := done.machine.registers } ∧
      done.machine.registers.get = RingStep.evalAll steps m.registers.get := by
  induction steps generalizing m with
  | nil => exact ⟨fun f hf => absurd hf List.not_mem_nil, rfl, rfl, rfl⟩
  | cons s steps ih =>
    have hcall := m.call_ring sink s
    have hok : (m.call sink s.call).outcome = .ok _ := congrArg Step.outcome hcall
    rw [List.map_cons, callAll_cons_ok hok, hcall]
    obtain ⟨hsucceeds, hsink, hmachine, hget⟩ := ih { m with
      registers := m.registers.set s.left
        (s.operation.eval (m.registers.get s.left) (m.registers.get s.right)) }
    refine ⟨Calls.succeeds_after.2 ⟨?_, hsucceeds⟩, hsink, hmachine, ?_⟩
    · intro f hf
      cases List.mem_singleton.1 hf
    · refine hget.trans ?_
      rw [Registers.get_set_eq_update]
      rfl

/-- **Eight-bit sums and products are exact ones, cut at the end.**  A list of additions and
multiplications on any registers, of whatever length, is given to the arithmetic unit.  None of
them fails, and every register is left with the value that the same list has over the natural
numbers, where nothing is ever cut, modulo 256.  Memory, flags, program counter, run state and sink
are as they were. -/
theorem callAll_exact (steps : List RingStep) :
    let done := m.callAll sink (steps.map RingStep.call)
    (done.Succeeds ∧ done.outcomes.length = steps.length) ∧
      (∀ r, (done.machine.registers.get r).toNat =
        RingStep.evalAll steps (fun k => (m.registers.get k).toNat) r % 256) ∧
      done.machine.memory = m.memory ∧ done.machine.flags = m.flags ∧
      done.machine.pc = m.pc ∧ done.machine.fetched = m.fetched ∧
      done.machine.state = m.state ∧ done.sink = sink := by
  intro done
  obtain ⟨hsucceeds, hsink, hmachine, hget⟩ := m.callAll_ring sink steps
  have hlength : done.outcomes.length = (steps.map RingStep.call).length :=
    length_outcomes_callAll hsucceeds
  refine ⟨⟨hsucceeds, by rw [hlength, List.length_map]⟩, fun r => ?_, ?_⟩
  · have hr : done.machine.registers.get r = RingStep.evalAll steps m.registers.get r :=
      congrFun hget r
    rw [hr, RingStep.evalAll_toNat]
  · have hsame : done.machine = { m with registers := done.machine.registers } := hmachine
    rw [hsame]
    exact ⟨rfl, rfl, rfl, rfl, rfl, hsink⟩

/-- Eight squarings of 2 make a number that leaves nothing in eight bits. -/
example : RingStep.evalAll (List.replicate 8 ⟨.mul, 0, 0⟩) (fun _ => 2) 0 = 2 ^ 256 := by decide

end Machine

end ByteMachine
