/-
What placing codes comes to.

Codes are placed one after the other.  What becomes of one depends on the number of bytes that
stand before it, and on nothing else:

* `program_place` — the program: the bytes of the valid codes in order, as many as there is
  room for;
* `errors_place_eq_nil_iff` — there is no faulty line exactly if all codes are valid and there
  is room for all of them;
* `mem_errors_place` — which codes are faulty, and what is wrong with them;
* `pairwise_errors_place` — the faulty lines are in the order of the lines, none of them twice.

A faulty code takes no address, so that only the valid codes before a code count.
-/
import ByteMachine.ObjectFile.Loader
import ByteMachine.Proofs.Grammar

namespace ByteMachine.ObjectFile

/-- The bytes of the valid codes, in order. -/
def bytesOf (cs : List Code) : List Byte := cs.filterMap Code.byte?

/-- What is wrong with a code that stands behind a number of valid ones. -/
inductive Code.Faulty (c : Code) (placed : Nat) : LineError → Prop
  | number (hcode : c.byte? = none) : Faulty c placed ⟨c.line, c.text, .invalidNumber 2⟩
  | address {b : Byte} (hcode : c.byte? = some b) (hfull : capacity ≤ placed) :
      Faulty c placed ⟨c.line, c.text, .invalidAddress capacity⟩

/-- A member of a list with an element in front: that element, or a member behind it. -/
theorem exists_split_cons {α : Type} {a : α} {l : List α} {P : List α → α → Prop} :
    (∃ before x after, a :: l = before ++ x :: after ∧ P before x) ↔
      P [] a ∨ ∃ before x after, l = before ++ x :: after ∧ P (a :: before) x := by
  constructor
  · rintro ⟨before, x, after, hl, hP⟩
    rcases List.cons_eq_append_iff.1 hl with ⟨rfl, hx⟩ | ⟨before, rfl, htail⟩
    · obtain ⟨rfl, -⟩ := List.cons.inj hx
      exact .inl hP
    · exact .inr ⟨before, x, after, htail, hP⟩
  · rintro (hP | ⟨before, x, after, rfl, hP⟩)
    · exact ⟨[], a, l, rfl, hP⟩
    · exact ⟨a :: before, x, after, rfl, hP⟩

section

variable {p : Program} {c : Code} {b : Byte}

theorem faulty_iff_of_none {placed : Nat} {e : LineError} (h : c.byte? = none) :
    c.Faulty placed e ↔ e = ⟨c.line, c.text, .invalidNumber 2⟩ := by
  constructor
  · rintro (_ | ⟨hcode, -⟩)
    · rfl
    · rw [h] at hcode
      cases hcode
  · rintro rfl
    exact .number h

theorem faulty_iff_of_some {placed : Nat} {e : LineError} (h : c.byte? = some b) :
    c.Faulty placed e ↔ capacity ≤ placed ∧ e = ⟨c.line, c.text, .invalidAddress capacity⟩ := by
  constructor
  · rintro (hcode | ⟨-, hfull⟩)
    · rw [h] at hcode
      cases hcode
    · exact ⟨hfull, rfl⟩
  · rintro ⟨hfull, rfl⟩
    exact .address h hfull

/-- It makes no difference by how much the memory is over-full. -/
theorem faulty_congr {n k : Nat} {e : LineError} (hn : capacity ≤ n) (hk : capacity ≤ k) :
    c.Faulty n e ↔ c.Faulty k e := by
  cases hc : c.byte? with
  | none => rw [faulty_iff_of_none hc, faulty_iff_of_none hc]
  | some b => rw [faulty_iff_of_some hc, faulty_iff_of_some hc, and_iff_right hn, and_iff_right hk]

theorem place_cons_none (h : c.byte? = none) (cs : List Code) :
    place p (c :: cs) = (place p cs).report ⟨c.line, c.text, .invalidNumber 2⟩ := by
  simp [place, h]

theorem place_cons_room (h : c.byte? = some b) (hp : p.size < capacity) (cs : List Code) :
    place p (c :: cs) = place (p.push b) cs := by
  simp [place, h, hp]

theorem place_cons_full (h : c.byte? = some b) (hp : p.size = capacity) (cs : List Code) :
    place p (c :: cs) = (place p cs).report ⟨c.line, c.text, .invalidAddress capacity⟩ := by
  simp [place, h, hp]

theorem bytesOf_cons_none (h : c.byte? = none) (cs : List Code) :
    bytesOf (c :: cs) = bytesOf cs := List.filterMap_cons_none h

theorem bytesOf_cons_some (h : c.byte? = some b) (cs : List Code) :
    bytesOf (c :: cs) = b :: bytesOf cs := List.filterMap_cons_some h

/-- The bytes of the valid codes are pushed in order, as long as there is room. -/
theorem program_place {cs : List Code} (hp : p.size ≤ capacity) :
    (place p cs).program = ((bytesOf cs).take (capacity - p.size)).foldl Program.push p := by
  induction cs generalizing p with
  | nil => simp [place, bytesOf]
  | cons c cs ih =>
    cases hc : c.byte? with
    | none => rw [place_cons_none hc, bytesOf_cons_none hc, Placement.program_report, ih hp]
    | some b =>
      rw [bytesOf_cons_some hc]
      by_cases hroom : p.size < capacity
      · have hpush : (p.push b).size ≤ capacity := hroom
        have hleft : capacity - p.size = capacity - (p.push b).size + 1 := by
          rw [Program.size_push]
          omega
        rw [place_cons_room hc hroom, ih hpush, hleft, List.take_succ_cons, List.foldl_cons]
      · have hfull : p.size = capacity := by omega
        rw [place_cons_full hc hfull, Placement.program_report, ih hp, hfull, Nat.sub_self,
          List.take_zero, List.take_zero]

theorem errors_place_eq_nil_iff {cs : List Code} (hp : p.size ≤ capacity) :
    (place p cs).errors = [] ↔
      (∀ c ∈ cs, c.byte?.isSome = true) ∧ p.size + cs.length ≤ capacity := by
  induction cs generalizing p with
  | nil => simp [place, hp]
  | cons c cs ih =>
    cases hc : c.byte? with
    | none => simp [place_cons_none hc, hc]
    | some b =>
      by_cases hroom : p.size < capacity
      · have hpush : (p.push b).size ≤ capacity := hroom
        rw [place_cons_room hc hroom, ih hpush, Program.size_push, List.length_cons,
          List.forall_mem_cons, hc, Nat.add_right_comm, Nat.add_assoc]
        simp
      · have hfull : p.size = capacity := by omega
        rw [place_cons_full hc hfull]
        simp [hfull]

/-- A code is reported by what stands before it. -/
theorem mem_errors_place {cs : List Code} {e : LineError} (hp : p.size ≤ capacity) :
    e ∈ (place p cs).errors ↔ ∃ before c after, cs = before ++ c :: after ∧
      c.Faulty (p.size + (bytesOf before).length) e := by
  induction cs generalizing p with
  | nil => simp [place]
  | cons c cs ih =>
    rw [exists_split_cons
      (P := fun before (d : Code) => d.Faulty (p.size + (bytesOf before).length) e)]
    cases hc : c.byte? with
    | none =>
      rw [place_cons_none hc, Placement.errors_report, List.mem_cons, ih hp,
        faulty_iff_of_none hc]
      simp only [bytesOf_cons_none hc]
    | some b =>
      rw [faulty_iff_of_some hc]
      simp only [bytesOf_cons_some hc, List.length_cons]
      by_cases hroom : p.size < capacity
      · have hpush : (p.push b).size ≤ capacity := hroom
        have hnot : ¬ capacity ≤ p.size + (bytesOf []).length := by
          simp [bytesOf]
          omega
        rw [place_cons_room hc hroom, ih hpush]
        simp only [hnot, false_and, false_or, Program.size_push, Nat.add_assoc, Nat.add_comm 1]
      · have hfull : p.size = capacity := by omega
        rw [place_cons_full hc hfull, Placement.errors_report, List.mem_cons, ih hp]
        refine or_congr ?_ ?_
        · simp [hfull]
        · refine exists_congr fun before => exists_congr fun d => exists_congr fun after => ?_
          exact and_congr_right fun _ => faulty_congr (by omega) (by omega)

theorem lines_errors_place (p : Program) (cs : List Code) :
    List.Sublist ((place p cs).errors.map LineError.line) (cs.map Code.line) := by
  induction cs generalizing p with
  | nil => exact .slnil
  | cons c cs ih =>
    rw [List.map_cons]
    cases hc : c.byte? with
    | none =>
      rw [place_cons_none hc]
      exact (ih p).cons_cons c.line
    | some b =>
      rw [place]
      simp only [hc]
      split
      · exact (ih _).cons c.line
      · exact (ih p).cons_cons c.line

end

theorem le_line_of_mem_codesFrom {number : Nat} {ls : List (List Char)} {c : Code}
    (h : c ∈ codesFrom number ls) : number ≤ c.line := by
  induction ls generalizing number with
  | nil => cases h
  | cons line ls ih =>
    by_cases hline : strip line = []
    · rw [codesFrom_cons_of_nil hline] at h
      have := ih h
      omega
    · rw [codesFrom_cons_of_ne_nil hline] at h
      rcases List.mem_cons.1 h with rfl | h
      · exact Nat.le_refl _
      · have := ih h
        omega

theorem pairwise_codesFrom (number : Nat) (ls : List (List Char)) :
    (codesFrom number ls).Pairwise fun c d => c.line < d.line := by
  induction ls generalizing number with
  | nil => exact .nil
  | cons line ls ih =>
    by_cases hline : strip line = []
    · rw [codesFrom_cons_of_nil hline]
      exact ih (number + 1)
    · rw [codesFrom_cons_of_ne_nil hline]
      exact .cons (fun c hc => le_line_of_mem_codesFrom hc) (ih (number + 1))

/-- The faulty lines are reported in the order of the lines, each at most once. -/
theorem pairwise_errors_place (p : Program) (number : Nat) (ls : List (List Char)) :
    (place p (codesFrom number ls)).errors.Pairwise fun e f => e.line < f.line := by
  have hlines := List.pairwise_map.2 (pairwise_codesFrom number ls)
  exact List.pairwise_map.1 (hlines.sublist (lines_errors_place p _))

/-- The codes among some lines are found at the lines that say something. -/
theorem exists_code_iff {number : Nat} {ls : List (List Char)} {P : List Code → Code → Prop} :
    (∃ before c after, codesFrom number ls = before ++ c :: after ∧ P before c) ↔
      ∃ earlier line later, ls = earlier ++ line :: later ∧ strip line ≠ [] ∧
        P (codesFrom number earlier) ⟨number + earlier.length, strip line⟩ := by
  induction ls generalizing number P with
  | nil => simp [codesFrom]
  | cons line ls ih =>
    rw [exists_split_cons (P := fun earlier line => strip line ≠ [] ∧
      P (codesFrom number earlier) ⟨number + earlier.length, strip line⟩)]
    have hnext : ∀ n : Nat, number + 1 + n = number + (n + 1) := fun n => by omega
    by_cases hline : strip line = []
    · rw [codesFrom_cons_of_nil hline, ih]
      simp only [hline, ne_eq, not_true_eq_false, false_and, false_or,
        codesFrom_cons_of_nil hline, List.length_cons, hnext]
    · rw [codesFrom_cons_of_ne_nil hline, exists_split_cons, ih]
      simp only [hline, ne_eq, not_false_eq_true, true_and, codesFrom_cons_of_ne_nil hline,
        List.length_cons, hnext]
      rfl

theorem length_bytesOf_codesFrom (number : Nat) (ls : List (List Char)) :
    (bytesOf (codesFrom number ls)).length = ls.countP fun line => HoldsByte line := by
  induction ls generalizing number with
  | nil => rfl
  | cons line ls ih =>
    rw [List.countP_cons, ← ih (number + 1)]
    simp only [holdsByte_iff]
    by_cases hline : strip line = []
    · have hnone : (readBinary? (strip line)).isSome = false := by
        rw [hline]
        rfl
      simp [codesFrom_cons_of_nil hline, hnone]
    · rw [codesFrom_cons_of_ne_nil hline]
      cases hcode : readBinary? (strip line) with
      | none => simp [bytesOf_cons_none (c := ⟨number, strip line⟩) hcode]
      | some b => simp [bytesOf_cons_some (c := ⟨number, strip line⟩) hcode]

end ByteMachine.ObjectFile
