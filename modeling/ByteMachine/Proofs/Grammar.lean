/-
The grammar of object files.

What a file says is told here by relations, which mention neither a scan nor its order, and each
of them is what the corresponding function computes:

* `HasLines` — how a text is divided into lines, with `Text.hasLines_lines` and
  `Text.lines_of_hasLines`;
* `Says` — what a line says without its comment and the blanks around it, with `strip_eq_iff`;
* `Numeral` — the binary numerals of a byte, with `readBinary?_eq_some_iff_numeral`;
* `HasCodes` — the codes of a whole text in order, with `hasCodes_iff`.

A function is total and single-valued, so that each relation is too: a text has its lines in one
way only, and a line says one thing.
-/
import ByteMachine.ObjectFile.Code
import Mathlib.Data.List.Induction
import Mathlib.Data.List.TakeWhile

namespace ByteMachine

namespace Text

/-- The lines of a text.  A line is ended by a line feed, alone or behind a carriage return; what
is behind the last line feed is a line as it stands, unless it is empty. -/
inductive HasLines : List Char → List (List Char) → Prop
  | empty : HasLines [] []
  | unended {line : List Char} (hne : line ≠ []) (hline : '\n' ∉ line) : HasLines line [line]
  | feed {line rest : List Char} {ls : List (List Char)} (hline : '\n' ∉ line)
      (hreturn : line.getLast? ≠ some '\r') (hrest : HasLines rest ls) :
      HasLines (line ++ '\n' :: rest) (line :: ls)
  | returnFeed {line rest : List Char} {ls : List (List Char)} (hline : '\n' ∉ line)
      (hrest : HasLines rest ls) : HasLines (line ++ '\r' :: '\n' :: rest) (line :: ls)

theorem lines_of_not_mem {line : List Char} (hne : line ≠ []) (h : '\n' ∉ line) :
    lines line = [line] := by
  rw [lines, List.splitOn_eq_singleton h, linesOfPieces, lastLine]
  simp [hne]

theorem lines_cons_of_not_mem {line : List Char} (h : '\n' ∉ line) (rest : List Char) :
    lines (line ++ '\n' :: rest) = dropReturn line :: lines rest := by
  rw [lines_append_newline, List.splitOn_eq_singleton h]
  rfl

theorem lines_of_hasLines {text : List Char} {ls : List (List Char)} (h : HasLines text ls) :
    lines text = ls := by
  induction h with
  | empty => rfl
  | unended hne hline => exact lines_of_not_mem hne hline
  | feed hline hreturn _ ih =>
    rw [lines_cons_of_not_mem hline, ih, dropReturn, if_neg hreturn]
  | @returnFeed line rest ls hline _ ih =>
    have hpiece : '\n' ∉ line ++ ['\r'] := by simp [hline]
    rw [List.append_cons, lines_cons_of_not_mem hpiece, ih, dropReturn,
      if_pos List.getLast?_concat, List.dropLast_concat]

theorem hasLines_lines (text : List Char) : HasLines text (lines text) := by
  by_cases hfeed : '\n' ∈ text
  · -- The first line, and the text behind its line feed.
    obtain ⟨line, rest, htext, hline⟩ := List.eq_append_cons_of_mem hfeed
    have hrest : HasLines rest (lines rest) := hasLines_lines rest
    rw [htext, lines_cons_of_not_mem hline, dropReturn]
    by_cases hreturn : line.getLast? = some '\r'
    · obtain ⟨init, rfl⟩ := List.getLast?_eq_some_iff.1 hreturn
      rw [if_pos hreturn, List.dropLast_concat, ← List.append_cons]
      exact .returnFeed (fun h => hline (List.mem_append_left _ h)) hrest
    · rw [if_neg hreturn]
      exact .feed hline hreturn hrest
  · by_cases hne : text = []
    · subst hne
      exact .empty
    · rw [lines_of_not_mem hne hfeed]
      exact .unended hne hfeed
termination_by text.length
decreasing_by
  rw [htext, List.length_append, List.length_cons]
  omega

theorem exists_trimStart (cs : List Char) : ∃ before, cs = before ++ trimStart cs ∧
    (∀ c ∈ before, isBlank c = true) ∧ ∀ c ∈ (trimStart cs).head?, isBlank c = false := by
  refine ⟨cs.takeWhile isBlank, List.takeWhile_append_dropWhile.symm,
    fun c hc => List.mem_takeWhile_imp hc, fun c hc => ?_⟩
  have hhead := List.head?_dropWhile_not isBlank cs
  rw [show (cs.dropWhile isBlank).head? = some c from hc] at hhead
  exact hhead

theorem exists_trimEnd (cs : List Char) : ∃ after, cs = trimEnd cs ++ after ∧
    (∀ c ∈ after, isBlank c = true) ∧ ∀ c ∈ (trimEnd cs).getLast?, isBlank c = false := by
  -- The end is the start of the reverse.
  obtain ⟨before, hcs, hbefore, hhead⟩ := exists_trimStart cs.reverse
  refine ⟨before.reverse, ?_, fun c hc => hbefore c (List.mem_reverse.1 hc), fun c hc => ?_⟩
  · rw [← List.reverse_inj, hcs, List.reverse_append, List.reverse_reverse, trimEnd,
      List.reverse_reverse]
    rfl
  · rw [trimEnd, List.getLast?_reverse] at hc
    exact hhead c hc

/-- Trimming removes blanks from both ends, and leaves none there. -/
theorem exists_trim (cs : List Char) : ∃ before after, cs = before ++ trim cs ++ after ∧
    (∀ c ∈ before, isBlank c = true) ∧ (∀ c ∈ after, isBlank c = true) ∧
    (∀ c ∈ (trim cs).head?, isBlank c = false) ∧
    ∀ c ∈ (trim cs).getLast?, isBlank c = false := by
  obtain ⟨before, hstart, hbefore, hhead⟩ := exists_trimStart cs
  obtain ⟨after, hend, hafter, hlast⟩ := exists_trimEnd (trimStart cs)
  refine ⟨before, after, ?_, hbefore, hafter, fun c hc => hhead c ?_, hlast⟩
  · rw [List.append_assoc, trim, ← hend, ← hstart]
  · have htrim : (trimEnd (trimStart cs)).head? = some c := hc
    rw [hend, List.head?_append, htrim]
    rfl

end Text

namespace ObjectFile

open Text

/-- What a line says: the text between the blanks at its start and those before the comment or
the end of the line. -/
inductive Says : List Char → List Char → Prop
  | intro {before text after comment : List Char}
      (hbefore : ∀ c ∈ before, isBlank c = true) (hafter : ∀ c ∈ after, isBlank c = true)
      (hstart : ∀ c ∈ text.head?, isBlank c = false)
      (hend : ∀ c ∈ text.getLast?, isBlank c = false)
      (htext : '#' ∉ text) (hcomment : ∀ c ∈ comment.head?, c = '#') :
      Says (before ++ text ++ after ++ comment) text

theorem says_strip (line : List Char) : Says line (strip line) := by
  obtain ⟨before, after, hcode, hbefore, hafter, hstart, hend⟩ :=
    exists_trim (line.takeWhile (· ≠ '#'))
  have hline : line = before ++ strip line ++ after ++ line.dropWhile (· ≠ '#') := by
    rw [strip, ← hcode, List.takeWhile_append_dropWhile]
  have hhash : '#' ∉ strip line := by
    intro h
    have := List.mem_takeWhile_imp (mem_trim h)
    simp at this
  have hcomment : ∀ c ∈ (line.dropWhile (· ≠ '#')).head?, c = '#' := by
    intro c hc
    have hhead := List.head?_dropWhile_not (· ≠ '#') line
    rw [show (line.dropWhile (· ≠ '#')).head? = some c from hc] at hhead
    simpa using hhead
  have hsays := Says.intro hbefore hafter hstart hend hhash hcomment
  rwa [← strip, ← hline] at hsays

theorem Says.strip_eq {line text : List Char} (h : Says line text) : strip line = text := by
  obtain @⟨before, text, after, comment, hbefore, hafter, hstart, hend, htext, hcomment⟩ := h
  -- The comment begins with the first `#`, as that is no blank.
  have hblank : ∀ c, isBlank c = true → c ≠ '#' := by
    rintro c hc rfl
    exact absurd hc (by decide)
  have hcode : ∀ c ∈ before ++ text ++ after, decide (c ≠ '#') = true := by
    intro c hc
    simp only [List.mem_append] at hc
    rcases hc with (hc | hc) | hc
    · exact decide_eq_true (hblank c (hbefore c hc))
    · exact decide_eq_true fun h => htext (h ▸ hc)
    · exact decide_eq_true (hblank c (hafter c hc))
  have hrest : comment.takeWhile (· ≠ '#') = [] := by
    cases comment with
    | nil => rfl
    | cons c comment => simp [hcomment c rfl]
  rw [strip, List.takeWhile_append_of_pos hcode, hrest, List.append_nil,
    trim_append_blanks hafter, trim_blanks_append hbefore, trim_eq_self hstart hend]

theorem strip_eq_iff {line text : List Char} : strip line = text ↔ Says line text :=
  ⟨fun h => h ▸ says_strip line, Says.strip_eq⟩

/-- Binary digits, at least one, and the number that they stand for. -/
inductive Digits : List Char → Nat → Prop
  | zero : Digits ['0'] 0
  | one : Digits ['1'] 1
  | append_zero {ds : List Char} {n : Nat} (h : Digits ds n) : Digits (ds ++ ['0']) (2 * n)
  | append_one {ds : List Char} {n : Nat} (h : Digits ds n) : Digits (ds ++ ['1']) (2 * n + 1)

/-- The binary numerals of a byte: digits, any number of zeros first, and a plus sign before
them or none. -/
inductive Numeral : List Char → Byte → Prop
  | plain {ds : List Char} {b : Byte} (h : Digits ds b.toNat) : Numeral ds b
  | plus {ds : List Char} {b : Byte} (h : Digits ds b.toNat) : Numeral ('+' :: ds) b

theorem isBinary_append_singleton (ds : List Char) (c : Char) :
    isBinary (ds ++ [c]) = true ↔ (ds = [] ∨ isBinary ds = true) ∧ (c = '0' ∨ c = '1') := by
  cases ds <;> simp [isBinary, and_assoc]

theorem digits_iff {ds : List Char} {n : Nat} :
    Digits ds n ↔ isBinary ds = true ∧ Nat.ofDigitChars 2 ds 0 = n := by
  constructor
  · intro h
    induction h with
    | zero => decide
    | one => decide
    | append_zero _ ih =>
      rw [isBinary_append_singleton, Nat.ofDigitChars_append, ih.2]
      exact ⟨⟨.inr ih.1, .inl rfl⟩, rfl⟩
    | append_one _ ih =>
      rw [isBinary_append_singleton, Nat.ofDigitChars_append, ih.2]
      exact ⟨⟨.inr ih.1, .inr rfl⟩, rfl⟩
  · rintro ⟨hbinary, rfl⟩
    -- On the last digit: it counts once, and what stands before it twice.
    induction ds using List.reverseRecOn with
    | nil => cases hbinary
    | append_singleton ds c ih =>
      obtain ⟨hds, hc⟩ := (isBinary_append_singleton ds c).1 hbinary
      rw [Nat.ofDigitChars_append]
      rcases hds with rfl | hds <;> rcases hc with rfl | rfl
      · exact .zero
      · exact .one
      · exact .append_zero (ih hds)
      · exact .append_one (ih hds)

/-- Digits have no sign. -/
theorem Digits.dropPlus_eq {ds : List Char} {n : Nat} (h : Digits ds n) : dropPlus ds = ds := by
  refine dropPlus_of_head?_ne fun hhead => ?_
  obtain ⟨rest, rfl⟩ := List.head?_eq_some_iff.1 hhead
  have hbinary := (digits_iff.1 h).1
  simp [isBinary] at hbinary

theorem numeral_iff {text : List Char} {b : Byte} :
    Numeral text b ↔ Digits (dropPlus text) b.toNat := by
  constructor
  · rintro (h | h)
    · rwa [h.dropPlus_eq]
    · exact h
  · intro h
    unfold dropPlus at h
    split at h
    · exact .plus h
    · exact .plain h

theorem readBinary?_eq_some_iff_numeral {text : List Char} {b : Byte} :
    readBinary? text = some b ↔ Numeral text b := by
  rw [readBinary?_eq_some_iff, numeral_iff, digits_iff]

theorem readBinary?_eq_none_iff {text : List Char} :
    readBinary? text = none ↔ ∀ b, ¬ Numeral text b := by
  simp only [← readBinary?_eq_some_iff_numeral]
  cases readBinary? text <;> simp

theorem isSome_readBinary?_iff {text : List Char} :
    (readBinary? text).isSome = true ↔ ∃ b, Numeral text b := by
  simp only [← readBinary?_eq_some_iff_numeral, Option.isSome_iff_exists]

/-- Whether a line holds a byte. -/
def HoldsByte (line : List Char) : Prop := ∃ text b, Says line text ∧ Numeral text b

theorem holdsByte_iff {line : List Char} :
    HoldsByte line ↔ (readBinary? (strip line)).isSome = true := by
  rw [isSome_readBinary?_iff]
  constructor
  · rintro ⟨text, b, hline, hb⟩
    exact ⟨b, hline.strip_eq ▸ hb⟩
  · rintro ⟨b, hb⟩
    exact ⟨strip line, b, says_strip line, hb⟩

instance (line : List Char) : Decidable (HoldsByte line) := decidable_of_iff _ holdsByte_iff.symm

/-- The codes of some lines in order: what they say, but for those that say nothing. -/
inductive Spells : List (List Char) → List (List Char) → Prop
  | nil : Spells [] []
  | blank {line : List Char} {ls texts : List (List Char)} (hline : Says line [])
      (hrest : Spells ls texts) : Spells (line :: ls) texts
  | code {line text : List Char} {ls texts : List (List Char)} (hline : Says line text)
      (hne : text ≠ []) (hrest : Spells ls texts) : Spells (line :: ls) (text :: texts)

/-- The codes of a whole text. -/
def HasCodes (source : List Char) (texts : List (List Char)) : Prop :=
  ∃ ls, HasLines source ls ∧ Spells ls texts

theorem codesFrom_cons_of_nil {line : List Char} (h : strip line = []) (number : Nat)
    (ls : List (List Char)) : codesFrom number (line :: ls) = codesFrom (number + 1) ls := by
  simp [codesFrom, h]

theorem codesFrom_cons_of_ne_nil {line : List Char} (h : strip line ≠ []) (number : Nat)
    (ls : List (List Char)) :
    codesFrom number (line :: ls) = ⟨number, strip line⟩ :: codesFrom (number + 1) ls := by
  simp [codesFrom, h]

theorem spells_codesFrom (number : Nat) (ls : List (List Char)) :
    Spells ls ((codesFrom number ls).map Code.text) := by
  induction ls generalizing number with
  | nil => exact .nil
  | cons line ls ih =>
    by_cases h : strip line = []
    · rw [codesFrom_cons_of_nil h]
      exact .blank (strip_eq_iff.1 h) (ih (number + 1))
    · rw [codesFrom_cons_of_ne_nil h]
      exact .code (says_strip line) h (ih (number + 1))

theorem Spells.eq {ls texts : List (List Char)} (h : Spells ls texts) (number : Nat) :
    texts = (codesFrom number ls).map Code.text := by
  induction h generalizing number with
  | nil => rfl
  | blank hline _ ih =>
    rw [codesFrom_cons_of_nil hline.strip_eq]
    exact ih (number + 1)
  | code hline hne _ ih =>
    have hstrip := hline.strip_eq
    rw [codesFrom_cons_of_ne_nil (hstrip ▸ hne), List.map_cons, hstrip, ← ih (number + 1)]

theorem hasCodes_iff {source : List Char} {texts : List (List Char)} :
    HasCodes source texts ↔ texts = (codes source).map Code.text := by
  constructor
  · rintro ⟨ls, hls, hspells⟩
    rw [codes, lines_of_hasLines hls]
    exact hspells.eq 1
  · rintro rfl
    exact ⟨lines source, hasLines_lines source, spells_codesFrom 1 _⟩

end ObjectFile

end ByteMachine
