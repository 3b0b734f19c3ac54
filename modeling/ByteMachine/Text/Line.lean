/-
The lines of a text.

A line feed ends a line, and a carriage return right before it belongs to the
ending.  What follows the last line feed is a line only if it is not empty, and it
keeps a carriage return at its end.

* `lines_append_newline` — a text up to a line feed and the rest have their lines
  separately;
* `not_mem_of_mem_lines` — no line holds a line feed.
-/

namespace ByteMachine.Text

/-- Removes one carriage return from the end. -/
def dropReturn (cs : List Char) : List Char :=
  if cs.getLast? = some '\r' then cs.dropLast else cs

/-- The line that the text after the last line feed makes, if it is not empty. -/
def lastLine (cs : List Char) : List (List Char) := if cs.isEmpty then [] else [cs]

/-- The lines among the pieces between line feeds: each piece but the last was
ended by a line feed. -/
def linesOfPieces : List (List Char) → List (List Char)
  | [] => []
  | [piece] => lastLine piece
  | piece :: next :: rest => dropReturn piece :: linesOfPieces (next :: rest)

/-- The lines of a text, without their endings. -/
def lines (text : List Char) : List (List Char) := linesOfPieces (text.splitOn '\n')

theorem linesOfPieces_cons {piece : List Char} {rest : List (List Char)} (h : rest ≠ []) :
    linesOfPieces (piece :: rest) = dropReturn piece :: linesOfPieces rest := by
  cases rest with
  | nil => exact absurd rfl h
  | cons next rest => rfl

theorem linesOfPieces_append {ps qs : List (List Char)} (h : qs ≠ []) :
    linesOfPieces (ps ++ qs) = ps.map dropReturn ++ linesOfPieces qs := by
  induction ps with
  | nil => rfl
  | cons p ps ih =>
    rw [List.cons_append, linesOfPieces_cons (by simp [h]), ih, List.map_cons,
      List.cons_append]

/-- Text that ends at a line feed and the text after it have their lines separately. -/
theorem lines_append_newline (s t : List Char) :
    lines (s ++ '\n' :: t) = (s.splitOn '\n').map dropReturn ++ lines t := by
  simp only [lines, List.splitOn_append_cons_self]
  exact linesOfPieces_append (List.splitOn_ne_nil _ _)

theorem mem_dropReturn {c : Char} {cs : List Char} (h : c ∈ dropReturn cs) : c ∈ cs := by
  unfold dropReturn at h
  split at h
  · exact List.dropLast_subset _ h
  · exact h

/-- Every character of a line comes from one of the pieces. -/
theorem exists_piece_of_mem {line : List Char} {c : Char} (hc : c ∈ line) :
    ∀ ps : List (List Char), line ∈ linesOfPieces ps → ∃ p ∈ ps, c ∈ p
  | [], h => by simp [linesOfPieces] at h
  | [p], h => by
    simp only [linesOfPieces, lastLine] at h
    split at h
    · simp at h
    · exact ⟨p, by simp, by simp_all⟩
  | p :: q :: rest, h => by
    rcases List.mem_cons.1 h with rfl | h
    · exact ⟨p, by simp, mem_dropReturn hc⟩
    · obtain ⟨r, hr, hcr⟩ := exists_piece_of_mem hc (q :: rest) h
      exact ⟨r, List.mem_cons_of_mem _ hr, hcr⟩

/-- The pieces between line feeds hold no line feed. -/
theorem not_mem_of_mem_splitOn (s : List Char) :
    ∀ p ∈ s.splitOn '\n', '\n' ∉ p := by
  induction s with
  | nil => simp
  | cons c s ih =>
    rw [List.splitOn_cons_eq_if_modifyHead]
    intro p hp
    split at hp
    · rcases List.mem_cons.1 hp with rfl | hp
      · simp
      · exact ih p hp
    · next hc =>
      cases hs : s.splitOn '\n' with
      | nil => exact absurd hs (List.splitOn_ne_nil _ _)
      | cons q qs =>
        rw [hs] at hp ih
        rcases List.mem_cons.1 hp with rfl | hp
        · have hq := ih q (by simp)
          have hne : ¬ '\n' = c := fun e => hc (by rw [← e]; rfl)
          simp [hne, hq]
        · exact ih p (by simp [hp])

theorem not_mem_of_mem_lines {s line : List Char} (h : line ∈ lines s) : '\n' ∉ line := by
  intro hc
  obtain ⟨p, hp, hcp⟩ := exists_piece_of_mem hc _ h
  exact not_mem_of_mem_splitOn s p hp hcp

end ByteMachine.Text
