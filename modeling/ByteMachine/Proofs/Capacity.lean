/-
A printer that runs out of room.

A limit cuts the printed text after so many characters, in the middle of a line if need be.  The
machine does not notice it before the first print that does not fit:

* `Printer.cut`, `Printer.emit_cut` — the limited printer holds the first part of the text of one
  without a limit, whatever was printed, and refuses what does not fit;
* `Machine.Overflows` — the next print makes the text longer than the limit allows;
* `Machine.after_limited` — after every number of cycles the limited printer holds the cut text;
* `Machine.output_cut_at_capacity` — up to the first print that does not fit, the limit makes no
  difference; this print fails with the text cut, and then nothing is printed any more.

What is printed has one byte for each character (`utf8Size_of_mem_decimalLines`), so that a limit on
the characters is one on the bytes.  A failure with the error `interrupted` stands, as everywhere,
for a print that never returns.
-/
import ByteMachine.Proofs.Printing

namespace ByteMachine

/-- The same printer with a limit. -/
def Printer.limited (l : Limit) (p : Printer) : Printer := { p with limit := some l }

/-- A limited printer with as much of the text as the limit allows. -/
def Printer.cut (l : Limit) (p : Printer) : Printer :=
  { text := String.ofList (p.text.toList.take l.capacity), limit := some l }

theorem utf8Size_of_isDigit {c : Char} (h : c.isDigit = true) : c.utf8Size = 1 := by
  rw [Char.utf8Size_eq_one_iff]
  simp only [Char.isDigit, Bool.and_eq_true, decide_eq_true_eq] at h
  exact UInt32.le_trans h.2 (by decide)

theorem utf8Size_of_mem_decimalLines {vs : List Byte} {c : Char}
    (h : c ∈ (decimalLines vs).toList) : c.utf8Size = 1 := by
  rw [toList_decimalLines, ObjectFile.unlines, List.mem_flatMap] at h
  obtain ⟨line, hline, hc⟩ := h
  obtain ⟨v, -, rfl⟩ := List.mem_map.1 hline
  rcases List.mem_append.1 hc with hdigit | hfeed
  · exact utf8Size_of_isDigit ((isDecimal_decimal v).digits c hdigit)
  · rw [List.mem_singleton.1 hfeed]
    rfl

theorem Byte.length_line_pos (v : Byte) : 0 < v.line.length := by
  rw [line, String.length_append]
  exact Nat.lt_add_left _ Nat.one_pos

namespace Printer

variable {l : Limit} {p : Printer}

/-- A text that fits is not cut. -/
theorem cut_of_length_le (h : p.text.length ≤ l.capacity) : p.cut l = p.limited l := by
  rw [cut, List.take_of_length_le (String.length_toList.trans_le h), String.ofList_toList]
  rfl

theorem room_cut : (p.cut l).room l = p.room l := by
  simp only [room, cut, String.length_ofList, List.length_take, String.length_toList]
  omega

theorem cut_append (rest : String) : ({ p with text := p.text ++ rest } : Printer).cut l =
    { text := (p.cut l).text ++ String.ofList (rest.toList.take (p.room l)), limit := some l } := by
  simp only [cut, room, String.toList_append, List.take_append, String.length_toList,
    String.ofList_append]

/-- What is written behind a full text is cut off. -/
theorem cut_append_of_le (h : l.capacity ≤ p.text.length) (rest : String) :
    ({ p with text := p.text ++ rest } : Printer).cut l = p.cut l := by
  simp only [cut, String.toList_append]
  rw [List.take_append_of_le_length (h.trans_eq String.length_toList.symm)]

/-- A line is not empty, so that a text that fits with it leaves room for it. -/
theorem length_append_line_le_iff (v : Byte) :
    (p.text ++ v.line).length ≤ l.capacity ↔ v.line.length ≤ p.room l := by
  have hline := v.length_line_pos
  rw [String.length_append, room]
  omega

/-- A printer without a limit takes every value. -/
theorem emit_of_limit_eq_none (hp : p.limit = none) (v : Byte) :
    Sink.emit p v = ({ p with text := p.text ++ v.line }, none) := by
  show p.emit v = _
  simp only [emit, hp]

/-- A value goes into the cut text as into the whole one; the answer tells whether it fits. -/
theorem emit_cut (hp : p.limit = none) (v : Byte) :
    Sink.emit (p.cut l) v = ((Sink.emit p v).1.cut l,
      if (p.text ++ v.line).length ≤ l.capacity then none else some l.error) := by
  rw [emit_of_limit_eq_none hp, cut_append]
  show (if v.line.length ≤ (p.cut l).room l then _ else _) = _
  rw [room_cut]
  by_cases hfits : v.line.length ≤ p.room l
  · -- The whole line goes in, so that its first part is all of it.
    rw [if_pos hfits, if_pos ((length_append_line_le_iff v).2 hfits),
      List.take_of_length_le (String.length_toList.trans_le hfits), String.ofList_toList]
    rfl
  · rw [if_neg hfits, if_neg (mt (length_append_line_le_iff v).1 hfits)]
    rfl

/-- A printer that is full takes nothing more. -/
theorem emit_cut_of_le (hp : p.limit = none) (h : l.capacity ≤ p.text.length) (v : Byte) :
    Sink.emit (p.cut l) v = (p.cut l, some l.error) := by
  have hlong : ¬ (p.text ++ v.line).length ≤ l.capacity := by
    rw [length_append_line_le_iff, room, Nat.sub_eq_zero_of_le h]
    exact Nat.not_le.2 v.length_line_pos
  rw [emit_cut hp, if_neg hlong, emit_of_limit_eq_none hp, cut_append_of_le h]

end Printer

namespace Machine

variable (m : Machine) (l : Limit)

/-- The cycle with a number, counted from 0, prints a value whose line makes the text longer than a
limit allows. -/
def Overflows (k : Nat) : Prop :=
  ∃ v, (m.after ({} : Printer) k).1.Prints v ∧
    l.capacity < ((m.after ({} : Printer) k).2.text ++ v.line).length

/-! ### The text without a limit -/

theorem after_printer (n : Nat) : m.after ({} : Printer) n =
    ((m.after (#[] : Array Byte) n).1, Printer.ofValues (m.after (#[] : Array Byte) n).2) :=
  m.after_ofValues #[] n

theorem limit_after (n : Nat) : (m.after ({} : Printer) n).2.limit = none := by
  rw [after_printer]
  rfl

/-- What was printed stays, and what is printed later goes behind it. -/
theorem printer_after_add (n more : Nat) : (m.after ({} : Printer) (n + more)).2 =
    { text := (m.after ({} : Printer) n).2.text ++
        decimalLines ((m.after (#[] : Array Byte) n).1.offers (#[] : Array Byte) more) } := by
  rw [after_printer, after_printer, Printer.ofValues, toList_after_add, decimalLines_append]
  rfl

variable {m l} {k : Nat}

/-- A print puts its line behind the text. -/
theorem text_after_print {v : Byte} (h : (m.after ({} : Printer) k).1.Prints v) :
    (m.after ({} : Printer) (k + 1)).2.text = (m.after ({} : Printer) k).2.text ++ v.line := by
  rw [sink_after_succ, offer?_eq_some_iff_prints.2 h, Option.elim_some,
    Printer.emit_of_limit_eq_none (m.limit_after k)]

theorem length_text_le {n : Nat} (h : ∀ k < n, ¬ m.Overflows l k) :
    (m.after ({} : Printer) n).2.text.length ≤ l.capacity := by
  induction n with
  | zero => exact Nat.zero_le _
  | succ n ih =>
    have hn := ih fun k hk => h k (Nat.lt_succ_of_lt hk)
    cases hoffer : (m.after ({} : Printer) n).1.offer? with
    | none =>
      rw [sink_after_succ, hoffer]
      exact hn
    | some v =>
      have hprints := offer?_eq_some_iff_prints.1 hoffer
      rw [text_after_print hprints]
      exact Nat.le_of_not_lt fun hlong => h n (Nat.lt_succ_self n) ⟨v, hprints, hlong⟩

theorem lt_length_text (h : m.Overflows l k) (more : Nat) :
    l.capacity < (m.after ({} : Printer) (k + 1 + more)).2.text.length := by
  obtain ⟨v, hprints, hlong⟩ := h
  rw [printer_after_add, text_after_print hprints, String.length_append]
  exact Nat.lt_add_right _ hlong

/-- Once the limit is passed, every print is beyond it. -/
theorem overflows_of_prints {v : Byte} (h : m.Overflows l k) (more : Nat)
    (hv : (m.after ({} : Printer) (k + 1 + more)).1.Prints v) :
    m.Overflows l (k + 1 + more) := by
  refine ⟨v, hv, ?_⟩
  rw [String.length_append]
  exact Nat.lt_add_right _ (lt_length_text h more)

/-! ### The text with a limit -/

variable (m l) in
/-- With a limit the machine goes the same way, and the printer holds the cut text. -/
theorem after_limited (n : Nat) : m.after ({ limit := some l } : Printer) n =
    ((m.after ({} : Printer) n).1, (m.after ({} : Printer) n).2.cut l) := by
  -- The limited printer is an image of the list of values, as the one without a limit is.
  have hstart : ({ limit := some l } : Printer) = (Printer.ofValues #[]).cut l := by
    rw [Printer.cut_of_length_le]
    · rfl
    · exact Nat.zero_le l.capacity
  have hemit : ∀ values v, (Sink.emit ((Printer.ofValues values).cut l) v).1 =
      (Printer.ofValues (Sink.emit values v).1).cut l := by
    intro values v
    rw [Printer.emit_cut rfl, Printer.emit_ofValues]
    rfl
  rw [hstart, after_printer]
  exact after_map (fun values => (Printer.ofValues values).cut l) hemit m #[] n

/-- A print that does not fit fails with the error of the limit. -/
theorem outcome_of_overflows (h : m.Overflows l k) :
    (m.nth ({ limit := some l } : Printer) k).outcome =
      .error ⟨.output l.error, (m.after ({} : Printer) k).1.pc⟩ := by
  obtain ⟨v, hprints, hlong⟩ := h
  rw [nth, after_limited]
  refine outcome_cycle_of_refused (offer?_eq_some_iff_prints.2 hprints) ?_
  rw [Printer.emit_cut (m.limit_after k), if_neg (Nat.not_le.2 hlong)]

theorem outcome_of_not_overflows (h : ¬ m.Overflows l k) :
    (m.nth ({ limit := some l } : Printer) k).outcome = (m.nth ({} : Printer) k).outcome := by
  rw [nth, after_limited]
  refine outcome_cycle_congr fun v hv => ?_
  have hfits : ¬ l.capacity < ((m.after ({} : Printer) k).2.text ++ v.line).length := by
    intro hlong
    exact h ⟨v, offer?_eq_some_iff_prints.1 hv, hlong⟩
  rw [Printer.emit_cut (m.limit_after k), if_pos (Nat.le_of_not_lt hfits),
    Printer.emit_of_limit_eq_none (m.limit_after k)]

/-- As long as the text fits, the limit makes no difference. -/
theorem after_limited_of_fits {n : Nat} (h : ∀ k < n, ¬ m.Overflows l k) :
    m.after ({ limit := some l } : Printer) n =
      ((m.after ({} : Printer) n).1, (m.after ({} : Printer) n).2.limited l) := by
  rw [after_limited, Printer.cut_of_length_le (length_text_le h)]

theorem nth_limited_of_fits (h : ∀ j ≤ k, ¬ m.Overflows l j) :
    m.nth ({ limit := some l } : Printer) k =
      (m.nth ({} : Printer) k).mapSink (Printer.limited l) :=
  nth_eq_mapSink (after_limited_of_fits fun j hj => h j (Nat.le_of_lt_succ hj))
    (outcome_of_not_overflows (h k (Nat.le_refl k)))

/-- From then on the printer is full. -/
theorem length_after_overflows (h : m.Overflows l k) :
    (m.after ({ limit := some l } : Printer) (k + 1)).2.text.length = l.capacity := by
  rw [after_limited]
  show (String.ofList _).length = _
  rw [String.length_ofList, List.length_take, String.length_toList]
  exact Nat.min_eq_left (Nat.le_of_lt (lt_length_text h 0))

theorem emit_after_overflows (h : m.Overflows l k) (v : Byte) :
    Sink.emit (m.after ({ limit := some l } : Printer) (k + 1)).2 v =
      ((m.after ({ limit := some l } : Printer) (k + 1)).2, some l.error) := by
  rw [after_limited]
  exact Printer.emit_cut_of_le (m.limit_after (k + 1)) (Nat.le_of_lt (lt_length_text h 0)) v

theorem sink_after_overflows (h : m.Overflows l k) (more : Nat) :
    (m.after ({ limit := some l } : Printer) (k + 1 + more)).2 =
      (m.after ({ limit := some l } : Printer) (k + 1)).2 := by
  rw [after_limited, after_limited]
  show (m.after ({} : Printer) (k + 1 + more)).2.cut l = (m.after ({} : Printer) (k + 1)).2.cut l
  rw [printer_after_add]
  exact Printer.cut_append_of_le (Nat.le_of_lt (lt_length_text h 0)) _

/-! ### Runs to the halt -/

section

variable {α : Type} (see : α → Turn → α) (seen : α)

/-- A run that comes to no print that does not fit is the same with the limit. -/
theorem run_limited_of_fits (h : ∀ k, m.Reaches ({} : Printer) k → ¬ m.Overflows l k) :
    m.run see ({ limit := some l } : Printer) seen =
      (m.run see ({} : Printer) seen).map (Run.mapSink (Printer.limited l)) := by
  have hnth : ∀ k, m.Reaches ({} : Printer) k → m.nth (({} : Printer).limited l) k =
      (m.nth ({} : Printer) k).mapSink (Printer.limited l) := by
    intro k hreach
    refine nth_limited_of_fits fun j hj => h j ⟨hreach.1, fun i hi => ?_⟩
    exact hreach.2 i (Nat.lt_of_lt_of_le hi hj)
  exact run_mapSink (Printer.limited l) hnth see seen

/-- The first print that does not fit ends the run. -/
theorem endsAt_of_overflows (hreach : m.Reaches ({} : Printer) k) (h : m.Overflows l k)
    (hfirst : ∀ j < k, ¬ m.Overflows l j) :
    m.EndsAt ({ limit := some l } : Printer) k := by
  refine ⟨.inl ⟨_, outcome_of_overflows h⟩, fun j hj => ?_⟩
  rw [nth_limited_of_fits fun i hi => hfirst i (Nat.lt_of_le_of_lt hi hj)]
  exact hreach.2 j hj

theorem exists_run_of_overflows (hreach : m.Reaches ({} : Printer) k) (h : m.Overflows l k)
    (hfirst : ∀ j < k, ¬ m.Overflows l j) :
    ∃ r, m.run see ({ limit := some l } : Printer) seen = Part.some r ∧
      r.machine = (m.after ({} : Printer) (k + 1)).1 ∧
      r.sink = (m.after ({ limit := some l } : Printer) (k + 1)).2 ∧
      r.ending = .failed ⟨.output l.error, (m.after ({} : Printer) k).1.pc⟩ := by
  have hends := endsAt_of_overflows hreach h hfirst
  refine ⟨_, run_eq_runUpTo see hreach.1 hends seen, machine_after_eq m _ _ (k + 1), rfl, ?_⟩
  show (m.nth ({ limit := some l } : Printer) k).ending = _
  rw [Step.ending, outcome_of_overflows h]

end

/-- **A limit cuts the output where it is reached, and nowhere else.**  Compare a printer with a
limit to one without, both empty at first.  Before the first print that makes the text too long,
all cycles have the same outcomes and leave the same machine and the same text.  That print fails
with the error of the limit, at its own address; the machine is the same as without the limit, and
the text is the first part of the text without it, as long as the limit allows.  From then on the
printer stays as it is, and every print fails in the same way.  A run to the halt that does not come
to such a print is the same as without the limit; one that does ends there.  Each character that is
printed is one byte. -/
theorem output_cut_at_capacity (m : Machine) (l : Limit) :
    let full := m.after ({} : Printer)
    let short := m.after ({ limit := some l } : Printer)
    (∀ n, (∀ k < n, ¬ m.Overflows l k) →
        short n = ((full n).1, (full n).2.limited l) ∧
        ∀ k < n, (m.nth ({ limit := some l } : Printer) k).outcome =
          (m.nth ({} : Printer) k).outcome) ∧
      (∀ k, m.Overflows l k →
        (m.nth ({ limit := some l } : Printer) k).outcome =
          .error ⟨.output l.error, (full k).1.pc⟩ ∧
        (short (k + 1)).1 = (full (k + 1)).1 ∧
        (short (k + 1)).2.text.toList = (full (k + 1)).2.text.toList.take l.capacity ∧
        (short (k + 1)).2.text.length = l.capacity ∧
        (∀ v, Sink.emit (short (k + 1)).2 v = ((short (k + 1)).2, some l.error)) ∧
        ∀ more, (short (k + 1 + more)).2 = (short (k + 1)).2 ∧
          ∀ v, (short (k + 1 + more)).1.Prints v →
            (m.nth ({ limit := some l } : Printer) (k + 1 + more)).outcome =
              .error ⟨.output l.error, (short (k + 1 + more)).1.pc⟩) ∧
      (∀ (α : Type) (see : α → Turn → α) (seen : α),
        ((∀ k, m.Reaches ({} : Printer) k → ¬ m.Overflows l k) →
          m.run see ({ limit := some l } : Printer) seen =
            (m.run see ({} : Printer) seen).map (Run.mapSink (Printer.limited l))) ∧
        ∀ k, m.Reaches ({} : Printer) k → m.Overflows l k → (∀ j < k, ¬ m.Overflows l j) →
          ∃ r, m.run see ({ limit := some l } : Printer) seen = Part.some r ∧
            r.machine = (full (k + 1)).1 ∧ r.sink = (short (k + 1)).2 ∧
            r.ending = .failed ⟨.output l.error, (full k).1.pc⟩) ∧
      ∀ n, ∀ c ∈ (full n).2.text.toList, c.utf8Size = 1 := by
  intro full short
  have hshort : ∀ n, short n = ((full n).1, (full n).2.cut l) := m.after_limited l
  refine ⟨fun n hfits => ⟨after_limited_of_fits hfits, fun k hk => ?_⟩, fun k hk => ?_,
    fun α see seen => ⟨run_limited_of_fits see seen, fun k => exists_run_of_overflows see seen⟩,
    fun n c hc => ?_⟩
  · exact outcome_of_not_overflows (hfits k hk)
  · refine ⟨outcome_of_overflows hk, ?_, ?_, length_after_overflows hk, emit_after_overflows hk,
      fun more => ⟨sink_after_overflows hk more, fun v hv => ?_⟩⟩
    · rw [hshort]
    · rw [hshort]
      exact String.toList_ofList
    · rw [hshort] at hv ⊢
      exact outcome_of_overflows (overflows_of_prints hk more hv)
  · rw [show full n = _ from m.after_printer n] at hc
    exact utf8Size_of_mem_decimalLines hc

/-- `PRN R7` twice and then `HLT`. -/
def printTwice : Machine := new (Memory.zero.writeAll 0 [0x47, 0x07, 0x47, 0x07, 0x01])

theorem output_cut_at_capacity_printTwice :
    (∃ r, printTwice.run count ({ limit := some ⟨6, .brokenPipe⟩ } : Printer) 0 = Part.some r ∧
        r.sink.text = "244\n24" ∧ r.ending = .failed ⟨.output .brokenPipe, 2⟩) ∧
      printTwice.run count ({ limit := some ⟨8, .brokenPipe⟩ } : Printer) 0 =
        (printTwice.run count ({} : Printer) 0).map
          (Run.mapSink (Printer.limited ⟨8, .brokenPipe⟩)) := by
  have hfits : ∀ l k, (printTwice.after ({} : Printer) (k + 1)).2.text.length ≤ l.capacity →
      ¬ printTwice.Overflows l k := by
    rintro l k hle ⟨v, hprints, hlong⟩
    rw [← text_after_print hprints] at hlong
    exact Nat.not_le.2 hlong hle
  constructor
  · -- The second line does not fit.
    have hover : printTwice.Overflows ⟨6, .brokenPipe⟩ 1 := ⟨0xF4, ⟨rfl, 7, rfl, rfl⟩, by decide⟩
    have hfirst : ∀ j < 1, ¬ printTwice.Overflows ⟨6, .brokenPipe⟩ j := by
      intro j hj
      obtain rfl : j = 0 := Nat.lt_one_iff.1 hj
      exact hfits _ 0 (by decide)
    have hreach : printTwice.Reaches ({} : Printer) 1 := by
      refine ⟨rfl, fun j hj => ?_⟩
      obtain rfl : j = 0 := Nat.lt_one_iff.1 hj
      exact Step.not_ends_iff.2 ⟨⟨.printed 7 0xF4, rfl⟩, rfl⟩
    obtain ⟨-, hcut, hrun, -⟩ := output_cut_at_capacity printTwice ⟨6, .brokenPipe⟩
    obtain ⟨r, hr, -, hsink, hending⟩ := (hrun Nat count 0).2 1 hreach hover hfirst
    refine ⟨r, hr, ?_, hending⟩
    rw [hsink, ← String.toList_inj, (hcut 1 hover).2.2.1]
    decide
  · -- Both lines fit, and the run is over after the third cycle.
    obtain ⟨-, -, hrun, -⟩ := output_cut_at_capacity printTwice ⟨8, .brokenPipe⟩
    refine (hrun Nat count 0).1 fun k hreach => hfits _ k ?_
    have hends : (printTwice.nth ({} : Printer) 2).Ends := .inr rfl
    have hk : k ≤ 2 := Nat.le_of_not_lt fun hlt => hreach.2 2 hlt hends
    obtain rfl | rfl | rfl : k = 0 ∨ k = 1 ∨ k = 2 := by omega
    all_goals decide

end Machine

end ByteMachine
