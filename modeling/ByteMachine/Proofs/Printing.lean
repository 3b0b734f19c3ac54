/-
Collected values and printed text.

A printer without a limit writes each value as a line, where a list would append it.  The two
sinks never refuse a value, so that no run can tell them apart, and neither loses anything:

* `decimalLines` — values as text, each in decimal on a line of its own;
* `isDecimal_decimal` — the numeral of a byte has no leading zeros and the byte as its value;
* `readLines?_decimalLines` — read line by line, the text gives the values back;
* `Machine.printed_text_lists_values` — a run with a printer is the run with a list, and prints the
  values that are collected there.
-/
import ByteMachine.Proofs.Output
import ByteMachine.Proofs.Rendering

namespace ByteMachine

open ObjectFile (unlines hasLines_unlines)

/-- Values as text: each in decimal, with a line feed behind it. -/
def decimalLines (vs : List Byte) : String := String.join (vs.map Byte.line)

/-- The printer without a limit that has printed some values. -/
def Printer.ofValues (values : Array Byte) : Printer := { text := decimalLines values.toList }

/-- A text is the decimal numeral of a number: digits with this value, and no zero in front of
others. -/
structure IsDecimal (text : List Char) (n : Nat) : Prop where
  ne_nil : text ≠ []
  digits : ∀ c ∈ text, c.isDigit = true
  value : Nat.ofDigitChars 10 text 0 = n
  leading : text.head? = some '0' → text = ['0']

/-- Reads a line of decimal digits whose value fits a byte. -/
def readDecimal? (line : List Char) : Option Byte :=
  let value := Nat.ofDigitChars 10 line 0
  if !line.isEmpty && line.all Char.isDigit && value < 256 then some (UInt8.ofNat value) else none

/-- Reads a text line by line; each has to be a decimal number that fits a byte. -/
def readLines? (text : String) : Option (List Byte) := (Text.lines text.toList).mapM readDecimal?

/-! ### Numerals -/

theorem digitChar_eq_zero_iff {n : Nat} (hn : n < 10) : Nat.digitChar n = '0' ↔ n = 0 := by
  have key : ∀ n : Fin 10, Nat.digitChar n = '0' ↔ n.val = 0 := by decide
  exact key ⟨n, hn⟩

/-- A number other than zero is not written with a zero in front. -/
theorem head?_toDigits_ne {n : Nat} (hn : n ≠ 0) : (Nat.toDigits 10 n).head? ≠ some '0' := by
  induction n using Nat.strongRecOn with
  | ind n ih =>
    by_cases hsmall : n < 10
    · rw [Nat.toDigits_of_lt_base hsmall]
      intro h
      exact hn ((digitChar_eq_zero_iff hsmall).1 (Option.some.inj h))
    · -- The first digit is that of the tenth part.
      rw [Nat.toDigits_of_base_le (by omega) (by omega),
        List.head?_append_of_ne_nil _ Nat.toDigits_ne_nil]
      exact ih (n / 10) (by omega) (by omega)

theorem isDecimal_toDigits (n : Nat) : IsDecimal (Nat.toDigits 10 n) n where
  ne_nil := Nat.toDigits_ne_nil
  digits := fun c hc => Nat.isDigit_of_mem_toDigits (by decide) (by decide) hc
  value := Nat.ofDigitChars_toDigits (by decide) (by decide)
  leading := by
    intro h
    by_cases hn : n = 0
    · rw [hn]
      rfl
    · exact absurd h (head?_toDigits_ne hn)

theorem isDecimal_decimal (v : Byte) : IsDecimal v.decimal.toList v.toNat := by
  rw [Byte.decimal, Nat.toList_repr]
  exact isDecimal_toDigits v.toNat

theorem readDecimal?_of_isDecimal {line : List Char} {v : Byte} (h : IsDecimal line v.toNat) :
    readDecimal? line = some v := by
  have hempty : line.isEmpty = false := by simp [h.ne_nil]
  have hall : line.all Char.isDigit = true := by simpa using h.digits
  have hlt : v.toNat < 256 := v.toNat_lt
  simp [readDecimal?, hempty, hall, h.value, hlt]

/-! ### Lines -/

theorem toList_decimalLines (vs : List Byte) :
    (decimalLines vs).toList = unlines (vs.map fun v => v.decimal.toList) := by
  simp [decimalLines, String.toList_join, unlines, List.flatMap_map, Byte.line]

theorem decimalLines_append (vs ws : List Byte) :
    decimalLines (vs ++ ws) = decimalLines vs ++ decimalLines ws := by
  simp [decimalLines]

theorem decimalLines_push (values : Array Byte) (v : Byte) :
    decimalLines (values.push v).toList = decimalLines values.toList ++ v.line := by
  simp [decimalLines]

theorem lines_decimalLines (vs : List Byte) :
    Text.lines (decimalLines vs).toList = vs.map fun v => v.decimal.toList := by
  rw [toList_decimalLines]
  refine Text.lines_of_hasLines (hasLines_unlines fun line hline => ?_)
  obtain ⟨v, -, rfl⟩ := List.mem_map.1 hline
  have hdigits := (isDecimal_decimal v).digits
  refine ⟨fun hfeed => ?_, fun hreturn => ?_⟩
  · exact absurd (hdigits _ hfeed) (by decide)
  · exact absurd (hdigits _ hreturn) (by decide)

/-- What is printed can be read back. -/
theorem readLines?_decimalLines (vs : List Byte) : readLines? (decimalLines vs) = some vs := by
  rw [readLines?, lines_decimalLines]
  induction vs with
  | nil => rfl
  | cons v vs ih =>
    rw [List.map_cons, List.mapM_cons, readDecimal?_of_isDecimal (isDecimal_decimal v), ih]
    rfl

/-! ### Runs with a printer -/

theorem Printer.emit_ofValues (values : Array Byte) (v : Byte) :
    Sink.emit (Printer.ofValues values) v = (Printer.ofValues (values.push v), none) := by
  rw [ofValues, ofValues, decimalLines_push]
  rfl

namespace Machine

variable {α : Type} (m : Machine) (values : Array Byte)

theorem after_ofValues (n : Nat) : m.after (Printer.ofValues values) n =
    ((m.after values n).1, Printer.ofValues (m.after values n).2) :=
  after_map Printer.ofValues (fun s v => congrArg Prod.fst (Printer.emit_ofValues s v)) m values n

theorem nth_ofValues (k : Nat) :
    m.nth (Printer.ofValues values) k = (m.nth values k).mapSink Printer.ofValues :=
  nth_mapSink Printer.ofValues (fun s v => congrArg Prod.fst (Printer.emit_ofValues s v))
    fun v _ => congrArg Prod.snd (Printer.emit_ofValues _ v)

theorem run_ofValues (see : α → Turn → α) (seen : α) :
    m.run see (Printer.ofValues values) seen =
      (m.run see values seen).map (Run.mapSink Printer.ofValues) :=
  run_mapSink Printer.ofValues (fun k _ => m.nth_ofValues values k) see seen

theorem outcome_ne_output (k : Nat) (error : IoError) (a : Address) :
    (m.nth values k).outcome ≠ .error ⟨.output error, a⟩ := by
  intro h
  obtain ⟨v, -, hrefused⟩ := exists_offer?_of_output h rfl
  cases hrefused

variable {m values}

/-- A run that fails does so with the fault of one of its cycles. -/
theorem exists_outcome_of_failed {σ : Type} [Sink σ] {sink : σ} {see : α → Turn → α} {seen : α}
    {r : Run σ α} {f : Fault} (h : m.run see sink seen = Part.some r) (hr : r.ending = .failed f) :
    ∃ k, (m.nth sink k).outcome = .error f := by
  cases hm : m.state with
  | halted =>
    rw [run_of_halted see hm] at h
    rw [← Part.some_injective h] at hr
    cases hr
  | running =>
    obtain ⟨k, -, rfl⟩ := exists_runUpTo see hm h
    refine ⟨k, ?_⟩
    have hending : (m.nth sink k).ending = .failed f := hr
    unfold Step.ending at hending
    split at hending
    · next g hg =>
      cases hending
      exact hg
    · cases hending

/-- **Printed text lists the values collected.**  The cycles of a machine have the same outcomes
and leave the same machine whether it prints to a list or to a printer without a limit, both empty
at first; the text is then the values of the list in their order, each in decimal without leading
zeros and with a line feed behind it, and read line by line it gives them back.  Run to the halt,
too, the two differ in the sink alone.  Neither sink makes a cycle or a run fail, and what it has
taken in stays at its beginning. -/
theorem printed_text_lists_values (m : Machine) :
    let list := m.after (#[] : Array Byte)
    let printer := m.after ({} : Printer)
    (∀ n, (printer n).1 = (list n).1 ∧
        (m.nth ({} : Printer) n).outcome = (m.nth (#[] : Array Byte) n).outcome ∧
        (printer n).2.text = decimalLines (list n).2.toList ∧
        readLines? (printer n).2.text = some (list n).2.toList) ∧
      (∀ v : Byte, v.line = v.decimal ++ "\n" ∧ IsDecimal v.decimal.toList v.toNat) ∧
      (∀ (α : Type) (see : α → Turn → α) (seen : α), m.run see ({} : Printer) seen =
        (m.run see (#[] : Array Byte) seen).map (Run.mapSink Printer.ofValues)) ∧
      (∀ n error a, (m.nth (#[] : Array Byte) n).outcome ≠ .error ⟨.output error, a⟩ ∧
        (m.nth ({} : Printer) n).outcome ≠ .error ⟨.output error, a⟩) ∧
      (∀ (α : Type) (see : α → Turn → α) (seen : α) error a,
        (∀ r, m.run see (#[] : Array Byte) seen = Part.some r →
          r.ending ≠ .failed ⟨.output error, a⟩) ∧
        ∀ r, m.run see ({} : Printer) seen = Part.some r →
          r.ending ≠ .failed ⟨.output error, a⟩) ∧
      ∀ n more, (list n).2.toList <+: (list (n + more)).2.toList ∧
        (printer n).2.text.toList <+: (printer (n + more)).2.text.toList := by
  intro list printer
  have hafter : ∀ n, printer n = ((list n).1, Printer.ofValues (list n).2) := m.after_ofValues #[]
  have hnth : ∀ k, m.nth ({} : Printer) k = (m.nth (#[] : Array Byte) k).mapSink Printer.ofValues :=
    m.nth_ofValues #[]
  have houtput : ∀ n error a, (m.nth (#[] : Array Byte) n).outcome ≠ .error ⟨.output error, a⟩ ∧
      (m.nth ({} : Printer) n).outcome ≠ .error ⟨.output error, a⟩ := by
    intro n error a
    rw [hnth]
    exact ⟨m.outcome_ne_output #[] n error a, m.outcome_ne_output #[] n error a⟩
  refine ⟨fun n => ?_, fun v => ⟨rfl, isDecimal_decimal v⟩, fun α see seen => ?_, houtput,
    fun α see seen error a => ⟨fun r hrun hending => ?_, fun r hrun hending => ?_⟩,
    fun n more => ?_⟩
  · rw [hafter, hnth]
    exact ⟨rfl, rfl, rfl, readLines?_decimalLines _⟩
  · exact m.run_ofValues #[] see seen
  · obtain ⟨k, hk⟩ := exists_outcome_of_failed hrun hending
    exact (houtput k error a).1 hk
  · obtain ⟨k, hk⟩ := exists_outcome_of_failed hrun hending
    exact (houtput k error a).2 hk
  · have hlist : (list (n + more)).2.toList = (list n).2.toList ++ _ :=
      toList_after_add m #[] n more
    rw [hafter, hafter]
    show _ ∧ (decimalLines (list n).2.toList).toList <+:
      (decimalLines (list (n + more)).2.toList).toList
    rw [hlist, decimalLines_append, String.toList_append]
    exact ⟨List.prefix_append _ _, List.prefix_append _ _⟩

theorem printed_text_lists_values_printAndHalt :
    ∃ r, printAndHalt.run count ({} : Printer) 0 = Part.some r ∧ r.sink.text = "244\n" ∧
      readLines? "244\n" = some [0xF4] ∧ ∀ error a, r.ending ≠ .failed ⟨.output error, a⟩ := by
  obtain ⟨hcycles, -, hrun, -, hending, -⟩ := printed_text_lists_values printAndHalt
  have hlist := run_eq_runUpTo count rfl endsAt_printAndHalt 0
  have hprinter := hrun Nat count 0
  rw [hlist, Part.map_some] at hprinter
  have htext : decimalLines [0xF4] = "244\n" := by decide
  have hread := (hcycles 1).2.2.2
  rw [(hcycles 1).2.2.1] at hread
  refine ⟨_, hprinter, htext, ?_, fun error a => (hending Nat count 0 error a).2 _ hprinter⟩
  rw [← htext]
  exact hread

end Machine

end ByteMachine
