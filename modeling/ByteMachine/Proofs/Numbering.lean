/-
Line numbers.

A line feed divides a text in two, and the lines of the second part are counted on from those of
the first.  Nothing else about a line depends on where it stands:

* `codes_eq` — the codes of a text are those of its pieces between line feeds, as a carriage
  return at the end of a piece is a blank and a last piece that is empty says nothing;
* `codes_append` — the codes of two texts joined by a line feed;
* `line_mem_codes` — the numbers that the lines of a text can have;
* `place_renumber`, `parse_renumber` — codes that have other numbers are placed alike, and the
  faulty ones are reported under the other numbers.
-/
import ByteMachine.Proofs.Loading

namespace ByteMachine.ObjectFile

open Text

/-- The same code on another line. -/
def Code.renumber (f : Nat → Nat) (c : Code) : Code := { c with line := f c.line }

/-- The same error of another line. -/
def LineError.renumber (f : Nat → Nat) (e : LineError) : LineError := { e with line := f e.line }

/-- Blanks at the end of a line do not count, whether they belong to a comment or not. -/
theorem strip_append_blanks {bs : List Char} (hb : ∀ b ∈ bs, isBlank b = true)
    (line : List Char) : strip (line ++ bs) = strip line := by
  have hcode : bs.takeWhile (· ≠ '#') = bs := by
    rw [List.takeWhile_eq_self_iff]
    intro b hmem
    refine decide_eq_true ?_
    rintro rfl
    exact absurd (hb '#' hmem) (by decide)
  rw [strip, List.takeWhile_append, hcode]
  split
  · next hlength =>
    rw [strip, (List.takeWhile_sublist _).eq_of_length hlength, trim_append_blanks hb]
  · rfl

theorem strip_append_return (line : List Char) : strip (line ++ ['\r']) = strip line :=
  strip_append_blanks (List.forall_mem_singleton.2 rfl) line

theorem strip_dropReturn (line : List Char) : strip (dropReturn line) = strip line := by
  unfold dropReturn
  split
  · next h =>
    obtain ⟨init, rfl⟩ := List.getLast?_eq_some_iff.1 h
    rw [List.dropLast_concat, strip_append_return]
  · rfl

theorem codesFrom_cons_congr {line other : List Char} (h : strip line = strip other)
    {ls ms : List (List Char)} {number : Nat}
    (hrest : codesFrom (number + 1) ls = codesFrom (number + 1) ms) :
    codesFrom number (line :: ls) = codesFrom number (other :: ms) := by
  simp only [codesFrom, h, hrest]

theorem codesFrom_linesOfPieces (number : Nat) (pieces : List (List Char)) :
    codesFrom number (linesOfPieces pieces) = codesFrom number pieces := by
  induction pieces generalizing number with
  | nil => rfl
  | cons piece rest ih =>
    cases rest with
    | nil =>
      -- An empty last piece is no line, but as a line it would say nothing.
      cases piece with
      | nil => rfl
      | cons c cs => rfl
    | cons next rest =>
      rw [linesOfPieces_cons (List.cons_ne_nil next rest)]
      exact codesFrom_cons_congr (strip_dropReturn piece) (ih (number + 1))

theorem codes_eq (source : List Char) : codes source = codesFrom 1 (source.splitOn '\n') :=
  codesFrom_linesOfPieces 1 _

theorem codes_of_not_mem {line : List Char} (h : '\n' ∉ line) :
    codes line = codesFrom 1 [line] := by
  rw [codes_eq, List.splitOn_eq_singleton h]

theorem length_splitOn (text : List Char) :
    (text.splitOn '\n').length = text.count '\n' + 1 := by
  induction text with
  | nil => rfl
  | cons c text ih =>
    rw [List.splitOn_cons_eq_if_modifyHead, List.count_cons]
    split
    · rw [List.length_cons, ih]
    · rw [List.length_modifyHead, ih]

/-- Numbers that are counted on. -/
theorem codesFrom_add (number k : Nat) (ls : List (List Char)) :
    codesFrom (number + k) ls = (codesFrom number ls).map (Code.renumber (· + k)) := by
  induction ls generalizing number with
  | nil => rfl
  | cons line ls ih =>
    have hrest := ih (number + 1)
    rw [Nat.add_right_comm] at hrest
    by_cases hline : strip line = []
    · rw [codesFrom_cons_of_nil hline, codesFrom_cons_of_nil hline, hrest]
    · rw [codesFrom_cons_of_ne_nil hline, codesFrom_cons_of_ne_nil hline, hrest, List.map_cons]
      rfl

/-- The codes of two texts joined by a line feed. -/
theorem codes_append (s t : List Char) :
    codes (s ++ '\n' :: t) =
      codes s ++ (codes t).map (Code.renumber (· + (s.count '\n' + 1))) := by
  simp only [codes_eq]
  rw [List.splitOn_append_cons_self, codesFrom_append, length_splitOn, codesFrom_add]

theorem line_lt_of_mem_codesFrom {number : Nat} {ls : List (List Char)} {c : Code}
    (h : c ∈ codesFrom number ls) : c.line < number + ls.length := by
  induction ls generalizing number with
  | nil => cases h
  | cons line ls ih =>
    rw [List.length_cons]
    by_cases hline : strip line = []
    · rw [codesFrom_cons_of_nil hline] at h
      have hrest := ih h
      omega
    · rw [codesFrom_cons_of_ne_nil hline] at h
      rcases List.mem_cons.1 h with rfl | h
      · show number < _
        omega
      · have hrest := ih h
        omega

/-- Lines are counted from 1, and there is one more than there are line feeds at most. -/
theorem line_mem_codes {source : List Char} {c : Code} (h : c ∈ codes source) :
    1 ≤ c.line ∧ c.line ≤ source.count '\n' + 1 := by
  rw [codes_eq] at h
  have hlt := line_lt_of_mem_codesFrom h
  rw [length_splitOn] at hlt
  exact ⟨le_line_of_mem_codesFrom h, by omega⟩

/-- Placing does not look at the numbers of the lines. -/
theorem place_renumber (f : Nat → Nat) (p : Program) (cs : List Code) :
    place p (cs.map (Code.renumber f)) =
      ⟨(place p cs).program, (place p cs).errors.map (LineError.renumber f)⟩ := by
  induction cs generalizing p with
  | nil => rfl
  | cons c cs ih =>
    have hbyte : (Code.renumber f c).byte? = c.byte? := rfl
    rw [List.map_cons]
    cases hc : c.byte? with
    | none =>
      rw [place_cons_none (hbyte.trans hc), place_cons_none hc, ih]
      rfl
    | some b =>
      -- Whether there is room is told by the program, which both have in common.
      rw [place, place]
      simp only [hbyte, hc]
      split
      · exact ih _
      · rw [ih]
        rfl

theorem parse_congr {s t : List Char} (h : codes s = codes t) (base : Memory) :
    parse base s = parse base t := by
  rw [parse, h, parse]

/-- If the codes of a text have other numbers in another text, so have its errors. -/
theorem parse_renumber {s t : List Char} {f : Nat → Nat}
    (h : codes t = (codes s).map (Code.renumber f)) (base : Memory) :
    parse base t = (parse base s).mapError (List.map (LineError.renumber f)) := by
  rw [parse, parse, h, place_renumber]
  cases (place ⟨base, 0⟩ (codes s)).errors with
  | nil => rfl
  | cons e errors => rfl

end ByteMachine.ObjectFile
