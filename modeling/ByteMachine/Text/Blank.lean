/-
Blanks and trimming.

The blanks are the 25 characters with the Unicode property `White_Space`.  Text
is a list of characters here, and `trim` removes the blanks at both ends.

* `mem_trim` — trimming keeps only characters that were there;
* `trim_eq_self` — a text that neither starts nor ends with a blank is kept;
* `trim_append_blanks`, `trim_blanks_append` — blanks at the ends do not count.
-/

namespace ByteMachine.Text

/-- Whether a character has the Unicode property `White_Space`. -/
def isBlank (c : Char) : Bool :=
  (0x09 ≤ c.toNat && c.toNat ≤ 0x0D) || c.toNat == 0x20 || c.toNat == 0x85 ||
    c.toNat == 0xA0 || c.toNat == 0x1680 || (0x2000 ≤ c.toNat && c.toNat ≤ 0x200A) ||
    c.toNat == 0x2028 || c.toNat == 0x2029 || c.toNat == 0x202F || c.toNat == 0x205F ||
    c.toNat == 0x3000

def trimStart (cs : List Char) : List Char := cs.dropWhile isBlank

def trimEnd (cs : List Char) : List Char := (cs.reverse.dropWhile isBlank).reverse

def trim (cs : List Char) : List Char := trimEnd (trimStart cs)

theorem mem_trim {c : Char} {cs : List Char} (h : c ∈ trim cs) : c ∈ cs := by
  simp only [trim, trimEnd, trimStart, List.mem_reverse] at h
  have h' := (List.dropWhile_sublist isBlank).mem h
  exact (List.dropWhile_sublist isBlank).mem (List.mem_reverse.1 h')

theorem trimStart_blanks_append {bs : List Char} (hb : ∀ b ∈ bs, isBlank b = true)
    (cs : List Char) : trimStart (bs ++ cs) = trimStart cs :=
  List.dropWhile_append_of_pos hb

theorem trimEnd_append_blanks {bs : List Char} (hb : ∀ b ∈ bs, isBlank b = true)
    (cs : List Char) : trimEnd (cs ++ bs) = trimEnd cs := by
  have hr : ∀ b ∈ bs.reverse, isBlank b = true := fun b h => hb b (List.mem_reverse.1 h)
  simp only [trimEnd, List.reverse_append, List.dropWhile_append_of_pos hr]

/-- A text of blanks alone is trimmed to nothing. -/
theorem trimStart_eq_nil {bs : List Char} (hb : ∀ b ∈ bs, isBlank b = true) :
    trimStart bs = [] := by
  simpa [trimStart] using trimStart_blanks_append hb []

theorem trim_blanks_append {bs : List Char} (hb : ∀ b ∈ bs, isBlank b = true)
    (cs : List Char) : trim (bs ++ cs) = trim cs := by
  rw [trim, trimStart_blanks_append hb, trim]

theorem trim_append_blanks {bs : List Char} (hb : ∀ b ∈ bs, isBlank b = true)
    (cs : List Char) : trim (cs ++ bs) = trim cs := by
  simp only [trim, trimStart]
  rw [List.dropWhile_append]
  split
  · next h =>
    have hc : List.dropWhile isBlank cs = [] := List.isEmpty_iff.1 h
    have hs : List.dropWhile isBlank bs = [] := trimStart_eq_nil hb
    rw [hc, hs]
  · rw [trimEnd_append_blanks hb]

theorem trim_eq_self {cs : List Char} (hs : ∀ c ∈ cs.head?, isBlank c = false)
    (he : ∀ c ∈ cs.getLast?, isBlank c = false) : trim cs = cs := by
  have start : trimStart cs = cs := by
    cases cs with
    | nil => rfl
    | cons c cs => simp [trimStart, hs c (by simp)]
  have finish : cs.reverse.dropWhile isBlank = cs.reverse := by
    cases hr : cs.reverse with
    | nil => rfl
    | cons c r =>
      have hl : cs.getLast? = some c := by
        rw [List.getLast?_eq_head?_reverse, hr]; rfl
      simp [he c (by simp [hl])]
  rw [trim, start, trimEnd, finish, List.reverse_reverse]

end ByteMachine.Text
