/-
The layout of object files.

What a text says does not depend on how it is laid out.  There are edits that keep it as it is, to
the number of every line and the text of every code:

* `LayoutEdit` — line feeds get carriage returns, a line gets a comment, or blanks at an end;
* `SameCodes.append`, `LayoutEdit.sameCodes` — texts that have the same codes and as many lines can
  take each other's place in a longer text, so that an edit of a line is one of the whole text;
* `codes_insert` — a line that says nothing, put before another one, counts on the lines from
  there;
* `parse_ignores_layout` — what this means for loading.

A line may stand at the end of the text without a line feed, and it may be empty there: the text
behind the last line feed is edited like any other line.
-/
import ByteMachine.Proofs.Numbering
import ByteMachine.Proofs.Parsing
import Mathlib.Logic.Relation

namespace ByteMachine.ObjectFile

open Text

/-- What stands before a line: nothing, or text up to a line feed. -/
inductive LineStart : List Char → Prop
  | start : LineStart []
  | feed (text : List Char) : LineStart (text ++ ['\n'])

/-- What stands behind a line: nothing, or the ending of the line and more text. -/
inductive LineEnd : List Char → Prop
  | finish : LineEnd []
  | feed (text : List Char) : LineEnd ('\n' :: text)
  | returnFeed (text : List Char) : LineEnd ('\r' :: '\n' :: text)

/-- A line that gets a comment, or blanks at one of its ends. -/
inductive LineEdit (line : List Char) : List Char → Prop
  | comment {comment : List Char} (h : '\n' ∉ comment) : LineEdit line (line ++ '#' :: comment)
  | blanksBefore {blanks : List Char} (h : ∀ c ∈ blanks, isBlank c = true ∧ c ≠ '\n') :
      LineEdit line (blanks ++ line)
  | blanksAfter {blanks : List Char} (h : ∀ c ∈ blanks, isBlank c = true ∧ c ≠ '\n') :
      LineEdit line (line ++ blanks)

/-- A text with a carriage return before every line feed. -/
def withReturns (text : List Char) : List Char :=
  text.flatMap fun c => if c = '\n' then ['\r', '\n'] else [c]

/-- One edit of a text that leaves what it says. -/
inductive LayoutEdit : List Char → List Char → Prop
  | returns (text : List Char) : LayoutEdit text (withReturns text)
  | line {before line line' after : List Char} (hbefore : LineStart before)
      (hline : '\n' ∉ line) (hafter : LineEnd after) (hedit : LineEdit line line') :
      LayoutEdit (before ++ line ++ after) (before ++ line' ++ after)

/-! ### One line -/

section

variable {line line' : List Char}

theorem strip_append_comment (line comment : List Char) :
    strip (line ++ '#' :: comment) = strip line := by
  have hrest : ('#' :: comment).takeWhile (· ≠ '#') = [] := rfl
  rw [strip, List.takeWhile_append, hrest, List.append_nil]
  split
  · next hlength => rw [strip, (List.takeWhile_sublist _).eq_of_length hlength]
  · rfl

theorem strip_blanks_append {bs : List Char} (hb : ∀ b ∈ bs, isBlank b = true)
    (line : List Char) : strip (bs ++ line) = strip line := by
  have hcode : ∀ b ∈ bs, decide (b ≠ '#') = true := by
    intro b hmem
    refine decide_eq_true ?_
    rintro rfl
    exact absurd (hb '#' hmem) (by decide)
  rw [strip, List.takeWhile_append_of_pos hcode, trim_blanks_append hb, strip]

theorem LineEdit.strip_eq (h : LineEdit line line') : strip line' = strip line := by
  cases h with
  | comment => exact strip_append_comment _ _
  | blanksBefore hblanks => exact strip_blanks_append (fun c hc => (hblanks c hc).1) _
  | blanksAfter hblanks => exact strip_append_blanks (fun c hc => (hblanks c hc).1) _

/-- A line stays a line. -/
theorem LineEdit.not_mem (h : LineEdit line line') (hline : '\n' ∉ line) : '\n' ∉ line' := by
  intro hmem
  cases h with
  | comment hcomment =>
    rcases List.mem_append.1 hmem with hmem | hmem
    · exact hline hmem
    · rcases List.mem_cons.1 hmem with hhash | hmem
      · exact absurd hhash (by decide)
      · exact hcomment hmem
  | blanksBefore hblanks =>
    rcases List.mem_append.1 hmem with hmem | hmem
    · exact (hblanks _ hmem).2 rfl
    · exact hline hmem
  | blanksAfter hblanks =>
    rcases List.mem_append.1 hmem with hmem | hmem
    · exact hline hmem
    · exact (hblanks _ hmem).2 rfl

end

/-! ### The whole text -/

/-- Two texts that have the same codes on the same lines, and the same number of line feeds. -/
structure SameCodes (s t : List Char) : Prop where
  codes : codes s = codes t
  feeds : s.count '\n' = t.count '\n'

namespace SameCodes

variable {s s' t t' before after line line' : List Char}

theorem refl (s : List Char) : SameCodes s s := ⟨rfl, rfl⟩

/-- A text is put together from its lines, and the lines from others that say the same. -/
theorem append (h : SameCodes s s') (h' : SameCodes t t') :
    SameCodes (s ++ '\n' :: t) (s' ++ '\n' :: t') where
  codes := by rw [codes_append, codes_append, h.codes, h'.codes, h.feeds]
  feeds := by simp only [List.count_append, List.count_cons, h.feeds, h'.feeds]

theorem of_strip_eq (hline : '\n' ∉ line) (hline' : '\n' ∉ line') (h : strip line = strip line') :
    SameCodes line line' where
  codes := by
    rw [codes_of_not_mem hline, codes_of_not_mem hline']
    exact codesFrom_cons_congr h rfl
  feeds := by rw [List.count_eq_zero.2 hline, List.count_eq_zero.2 hline']

theorem append_left (hbefore : LineStart before) (h : SameCodes line line') :
    SameCodes (before ++ line) (before ++ line') := by
  cases hbefore with
  | start => exact h
  | feed text =>
    rw [List.append_assoc, List.append_assoc]
    exact (refl text).append h

theorem append_right (h : SameCodes line line') (after : List Char) :
    SameCodes (line ++ '\n' :: after) (line' ++ '\n' :: after) :=
  h.append (refl after)

/-- Lines that say the same, in the same place. -/
theorem around (hbefore : LineStart before) (hafter : LineEnd after) (hline : '\n' ∉ line)
    (hline' : '\n' ∉ line') (h : strip line = strip line') :
    SameCodes (before ++ line ++ after) (before ++ line' ++ after) := by
  cases hafter with
  | finish =>
    rw [List.append_nil, List.append_nil]
    exact append_left hbefore (of_strip_eq hline hline' h)
  | feed text => exact (append_left hbefore (of_strip_eq hline hline' h)).append_right text
  | returnFeed text =>
    -- The carriage return may as well belong to the line, where it is a blank.
    have hstrip : strip (line ++ ['\r']) = strip (line' ++ ['\r']) := by
      rw [strip_append_return, strip_append_return, h]
    have hsame : SameCodes (line ++ ['\r']) (line' ++ ['\r']) :=
      of_strip_eq (by simp [hline]) (by simp [hline']) hstrip
    have htext := (append_left hbefore hsame).append_right text
    simpa only [List.append_assoc, List.singleton_append] using htext

theorem withReturns_of_not_mem (h : '\n' ∉ line) : withReturns line = line := by
  have hsame : ∀ c ∈ line, (if c = '\n' then ['\r', '\n'] else [c]) = [c] := by
    intro c hc
    refine if_neg ?_
    rintro rfl
    exact h hc
  rw [withReturns, List.flatMap_congr hsame, List.flatMap_singleton']

theorem withReturns_append (h : '\n' ∉ line) (rest : List Char) :
    withReturns (line ++ '\n' :: rest) = line ++ ['\r'] ++ '\n' :: withReturns rest := by
  have hline := withReturns_of_not_mem h
  rw [withReturns] at hline ⊢
  rw [List.flatMap_append, hline, List.flatMap_cons, if_pos rfl, List.append_assoc]
  rfl

theorem withReturns_line (hline : '\n' ∉ line) (h : SameCodes t (withReturns t)) :
    SameCodes (line ++ '\n' :: t) (withReturns (line ++ '\n' :: t)) := by
  rw [withReturns_append hline]
  exact append (of_strip_eq hline (by simp [hline]) (strip_append_return line).symm) h

theorem withReturns_of_hasLines {text : List Char} {ls : List (List Char)}
    (h : HasLines text ls) : SameCodes text (withReturns text) := by
  induction h with
  | empty => exact refl []
  | unended _ hline =>
    rw [withReturns_of_not_mem hline]
    exact refl _
  | feed hline _ _ ih => exact withReturns_line hline ih
  | returnFeed hline _ ih =>
    -- A line that has a carriage return keeps it and gets another one.
    rw [List.append_cons]
    exact withReturns_line (by simp [hline]) ih

end SameCodes

theorem LayoutEdit.sameCodes {s t : List Char} (h : LayoutEdit s t) : SameCodes s t := by
  cases h with
  | returns => exact .withReturns_of_hasLines (hasLines_lines s)
  | line hbefore hline hafter hedit =>
    exact .around hbefore hafter hline (hedit.not_mem hline) hedit.strip_eq.symm

/-- The number of a line, if a line is put behind the first `n` lines. -/
def countOn (n line : Nat) : Nat := if n < line then line + 1 else line

/-- The codes before an inserted line keep their numbers. -/
theorem map_countOn_codes (text : List Char) :
    (codes text).map (Code.renumber (countOn (text.count '\n' + 1))) = codes text := by
  refine (List.map_congr_left fun c hc => ?_).trans (List.map_id _)
  have hline := (line_mem_codes hc).2
  have hkeep : countOn (text.count '\n' + 1) c.line = c.line := if_neg (by omega)
  rw [Code.renumber, hkeep]
  rfl

/-- The codes behind it are one line further. -/
theorem map_countOn_map_codes (n : Nat) (text : List Char) :
    ((codes text).map (Code.renumber (· + n))).map (Code.renumber (countOn n)) =
      ((codes text).map (Code.renumber (· + 1))).map (Code.renumber (· + n)) := by
  rw [List.map_map, List.map_map]
  refine List.map_congr_left fun c hc => ?_
  have hline := (line_mem_codes hc).1
  have hnext : countOn n (c.line + n) = c.line + 1 + n := by
    rw [countOn, if_pos (by omega)]
    omega
  show Code.mk (countOn n (c.line + n)) c.text = ⟨c.line + 1 + n, c.text⟩
  rw [hnext]

/-- A line that says nothing, put before another one, only counts on the lines behind it. -/
theorem codes_insert {before line : List Char} (hbefore : LineStart before) (hline : '\n' ∉ line)
    (hempty : strip line = []) (after : List Char) :
    codes (before ++ (line ++ '\n' :: after)) =
      (codes (before ++ after)).map (Code.renumber (countOn (before.count '\n'))) := by
  have hinserted : codes (line ++ '\n' :: after) = (codes after).map (Code.renumber (· + 1)) := by
    rw [codes_append, codes_of_not_mem hline, codesFrom_cons_of_nil hempty,
      List.count_eq_zero.2 hline]
    rfl
  cases hbefore with
  | start =>
    rw [List.nil_append, List.nil_append, hinserted]
    refine List.map_congr_left fun c hc => ?_
    have hpos := (line_mem_codes hc).1
    exact congrArg (Code.mk · c.text) (if_pos hpos).symm
  | feed text =>
    have hcount : (text ++ ['\n']).count '\n' = text.count '\n' + 1 := by simp
    rw [List.append_assoc, List.append_assoc, List.singleton_append, List.singleton_append,
      codes_append text after, codes_append text, hinserted, hcount, List.map_append,
      map_countOn_codes, map_countOn_map_codes]

/-- **Loading ignores the layout.**  A text and one that comes from it by edits of its layout, made
or undone and as many as there may be, are loaded to the same program over whatever memory, or are
refused with the same errors.  If a line that is blank or only a comment is put at the start of the
text or behind a line feed, the program is the same too, and so are the errors but for the number
of the line in those that come behind the new line, which is greater by one. -/
theorem parse_ignores_layout (base : Memory) (source : List Char) :
    (∀ edited, Relation.EqvGen LayoutEdit source edited →
      parse base edited = parse base source) ∧
    ∀ before line after, source = before ++ after → LineStart before → '\n' ∉ line →
      Says line [] → parse base (before ++ (line ++ '\n' :: after)) =
        (parse base source).mapError (List.map (LineError.renumber (countOn (before.count '\n'))))
    := by
  refine ⟨fun edited h => ?_, ?_⟩
  · induction h with
    | rel s t hedit => exact parse_congr hedit.sameCodes.codes.symm base
    | refl s => rfl
    | symm s t _ ih => exact ih.symm
    | trans s t u _ _ ih ih' => exact ih'.trans ih
  · rintro before line after rfl hbefore hline hsays
    exact parse_renumber (codes_insert hbefore hline hsays.strip_eq after) base

/-- A byte, and a code that is none. -/
def elevenAndFault : List Char := "11\n102".toList

theorem parse_ignores_layout_elevenAndFault :
    parse .zero "\t11# eleven\r\n102".toList = .error [⟨2, "102".toList, .invalidNumber 2⟩] ∧
      parse .zero "11\n # two\n102".toList = .error [⟨3, "102".toList, .invalidNumber 2⟩] := by
  obtain ⟨hedits, hinsert⟩ := parse_ignores_layout .zero elevenAndFault
  have hfault : parse .zero elevenAndFault = .error [⟨2, "102".toList, .invalidNumber 2⟩] := rfl
  have hcomment : LayoutEdit elevenAndFault "11# eleven\n102".toList :=
    .line .start (by decide) (.feed "102".toList)
      (@LineEdit.comment "11".toList " eleven".toList (by decide))
  have hblank : LayoutEdit "11# eleven\n102".toList "\t11# eleven\n102".toList :=
    .line .start (by decide) (.feed "102".toList)
      (@LineEdit.blanksBefore "11# eleven".toList ['\t'] (List.forall_mem_singleton.2 (by decide)))
  have hreturns : LayoutEdit "\t11# eleven\n102".toList "\t11# eleven\r\n102".toList :=
    .returns "\t11# eleven\n102".toList
  constructor
  · rw [← hfault]
    exact hedits _ (.trans _ _ _ (.rel _ _ hcomment)
      (.trans _ _ _ (.rel _ _ hblank) (.rel _ _ hreturns)))
  · have hsays : Says " # two".toList [] := says_strip " # two".toList
    have h := hinsert "11\n".toList " # two".toList "102".toList rfl (.feed "11".toList)
      (by decide) hsays
    rw [hfault] at h
    exact h

end ByteMachine.ObjectFile
