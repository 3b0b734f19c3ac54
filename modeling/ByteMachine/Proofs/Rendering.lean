/-
Writing bytes out and loading them.

A text that is `Written` for a list of bytes has one line for each of them, and on the line a
numeral of the byte and nothing else.  There are many such texts, as a numeral may have a sign
and leading zeros and a line has several endings; all of them say the same:

* `written_render` — the bytes in binary, behind whatever signs and leading zeros and with a line
  feed after each, are such a text;
* `codes_of_written` — the codes of such a text are its lines, and their bytes are the list;
* `errors_place_of_valid` — if all codes are valid, those that are faulty are the ones beyond the
  last address;
* `parse_written` — loading such a text is writing the list from address 0 on.

Up to 256 bytes the two agree.  Beyond, a list that is written goes on at address 0, whereas a
text is refused.
-/
import ByteMachine.Proofs.Parsing
import Mathlib.Data.List.Forall2

namespace ByteMachine.ObjectFile

open Text

/-- A text with a line for each byte of a list, which holds a numeral of the byte. -/
def Written (source : List Char) (bs : List Byte) : Prop :=
  ∃ ls, HasLines source ls ∧ List.Forall₂ Numeral ls bs

/-- A byte in binary digits behind a number of zeros, with a plus sign before them or without. -/
def padded (plus : Bool) (zeros : Nat) (b : Byte) : List Char :=
  (if plus then ['+'] else []) ++ (List.replicate zeros '0' ++ Nat.toDigits 2 b.toNat)

/-- The text that has some lines, each with a line feed behind it. -/
def unlines (ls : List (List Char)) : List Char := ls.flatMap fun line => line ++ ['\n']

/-- Bytes written out; for each it is told whether there is a sign, and how many zeros. -/
def render (plus : Nat → Bool) (zeros : Nat → Nat) (bs : List Byte) : List Char :=
  unlines (bs.mapIdx fun i b => padded (plus i) (zeros i) b)

section

variable {ds text : List Char} {n : Nat} {b : Byte} {c : Char}

/-! ### Numerals -/

theorem digits_toDigits (n : Nat) : Digits (Nat.toDigits 2 n) n := by
  induction n using Nat.strongRecOn with
  | ind n ih =>
    by_cases hn : n < 2
    · obtain rfl | rfl : n = 0 ∨ n = 1 := by omega
      · exact .zero
      · exact .one
    · have hhalf := ih (n / 2) (by omega)
      rw [Nat.toDigits_of_base_le (by omega) (by omega)]
      -- The last digit is the remainder, and the digits before it are those of the half.
      obtain heven | hodd : n % 2 = 0 ∨ n % 2 = 1 := by omega
      · have hdigits := hhalf.append_zero
        rwa [show 2 * (n / 2) = n by omega, show '0' = Nat.digitChar (n % 2) by rw [heven]; rfl]
          at hdigits
      · have hdigits := hhalf.append_one
        rwa [show 2 * (n / 2) + 1 = n by omega,
          show '1' = Nat.digitChar (n % 2) by rw [hodd]; rfl] at hdigits

theorem Digits.cons_zero (h : Digits ds n) : Digits ('0' :: ds) n := by
  induction h with
  | zero => exact .append_zero .zero
  | one => exact .append_one .zero
  | append_zero _ ih => exact ih.append_zero
  | append_one _ ih => exact ih.append_one

theorem Digits.replicate_append (h : Digits ds n) (zeros : Nat) :
    Digits (List.replicate zeros '0' ++ ds) n := by
  induction zeros with
  | zero => exact h
  | succ zeros ih => exact ih.cons_zero

/-- A sign and leading zeros do not count. -/
theorem numeral_padded (plus : Bool) (zeros : Nat) (b : Byte) :
    Numeral (padded plus zeros b) b := by
  have hdigits := (digits_toDigits b.toNat).replicate_append zeros
  cases plus with
  | false => exact .plain hdigits
  | true => exact .plus hdigits

theorem Digits.mem (h : Digits ds n) (hc : c ∈ ds) : c = '0' ∨ c = '1' := by
  induction h with
  | zero => exact .inl (List.mem_singleton.1 hc)
  | one => exact .inr (List.mem_singleton.1 hc)
  | append_zero _ ih =>
    rcases List.mem_append.1 hc with hc | hc
    · exact ih hc
    · exact .inl (List.mem_singleton.1 hc)
  | append_one _ ih =>
    rcases List.mem_append.1 hc with hc | hc
    · exact ih hc
    · exact .inr (List.mem_singleton.1 hc)

theorem Digits.ne_nil (h : Digits ds n) : ds ≠ [] := by
  cases h <;> simp

theorem Numeral.mem (h : Numeral text b) (hc : c ∈ text) : c = '+' ∨ c = '0' ∨ c = '1' := by
  cases h with
  | plain hdigits => exact .inr (hdigits.mem hc)
  | plus hdigits =>
    rcases List.mem_cons.1 hc with hplus | hc
    · exact .inl hplus
    · exact .inr (hdigits.mem hc)

theorem Numeral.ne_nil (h : Numeral text b) : text ≠ [] := by
  cases h with
  | plain hdigits => exact hdigits.ne_nil
  | plus => exact List.cons_ne_nil _ _

/-- A character that a numeral does not have. -/
theorem Numeral.not_mem (h : Numeral text b) (hc : c ≠ '+' ∧ c ≠ '0' ∧ c ≠ '1') : c ∉ text := by
  intro hmem
  rcases h.mem hmem with hplus | hzero | hone
  · exact hc.1 hplus
  · exact hc.2.1 hzero
  · exact hc.2.2 hone

/-- A line that holds a numeral and nothing else says it. -/
theorem Numeral.strip_eq (h : Numeral text b) : strip text = text := by
  have hblank : ∀ c ∈ text, isBlank c = false := by
    intro c hc
    obtain rfl | rfl | rfl := h.mem hc <;> decide
  have hsays : Says ([] ++ text ++ [] ++ []) text :=
    .intro (fun _ hc => absurd hc List.not_mem_nil) (fun _ hc => absurd hc List.not_mem_nil)
      (fun c hc => hblank c (List.mem_of_mem_head? hc))
      (fun c hc => hblank c (List.mem_of_mem_getLast? hc)) (h.not_mem (by decide))
      (fun _ hc => absurd hc (Option.not_mem_none _))
  rw [List.nil_append, List.append_nil, List.append_nil] at hsays
  exact hsays.strip_eq

end

/-! ### Texts -/

variable {source : List Char} {ls : List (List Char)} {bs : List Byte} {p : Program}

theorem hasLines_unlines (h : ∀ line ∈ ls, '\n' ∉ line ∧ '\r' ∉ line) :
    HasLines (unlines ls) ls := by
  induction ls with
  | nil => exact .empty
  | cons line ls ih =>
    obtain ⟨hfeed, hreturn⟩ := h line (List.mem_cons_self ..)
    have hrest := ih fun other hother => h other (List.mem_cons_of_mem line hother)
    have hlines : HasLines (line ++ '\n' :: unlines ls) (line :: ls) :=
      .feed hfeed (fun hlast => hreturn (List.mem_of_getLast? hlast)) hrest
    rwa [List.append_cons] at hlines

theorem forall₂_padded (plus : Nat → Bool) (zeros : Nat → Nat) (bs : List Byte) :
    List.Forall₂ Numeral (bs.mapIdx fun i b => padded (plus i) (zeros i) b) bs := by
  induction bs generalizing plus zeros with
  | nil => exact .nil
  | cons b bs ih =>
    rw [List.mapIdx_cons]
    exact .cons (numeral_padded _ _ b) (ih (fun i => plus (i + 1)) fun i => zeros (i + 1))

theorem written_render (plus : Nat → Bool) (zeros : Nat → Nat) (bs : List Byte) :
    Written (render plus zeros bs) bs := by
  refine ⟨_, hasLines_unlines fun line hline => ?_, forall₂_padded plus zeros bs⟩
  obtain ⟨i, hi, rfl⟩ := List.mem_mapIdx.1 hline
  have hnumeral := numeral_padded (plus i) (zeros i) bs[i]
  exact ⟨hnumeral.not_mem (by decide), hnumeral.not_mem (by decide)⟩

theorem codesFrom_numerals (h : List.Forall₂ Numeral ls bs) (number : Nat) :
    (codesFrom number ls).map Code.byte? = bs.map some ∧
      (codesFrom number ls).map Code.line = List.range' number bs.length := by
  induction h generalizing number with
  | nil => exact ⟨rfl, rfl⟩
  | @cons line b ls bs hline _ ih =>
    have hstrip := hline.strip_eq
    obtain ⟨hbytes, hlines⟩ := ih (number + 1)
    have hbyte : Code.byte? ⟨number, line⟩ = some b := readBinary?_eq_some_iff_numeral.2 hline
    rw [codesFrom_cons_of_ne_nil (by rw [hstrip]; exact hline.ne_nil), hstrip, List.map_cons,
      List.map_cons, List.map_cons, hbytes, hlines, hbyte]
    exact ⟨rfl, rfl⟩

/-- The codes of a text that is written for a list of bytes. -/
theorem codes_of_written (h : Written source bs) :
    (∀ c ∈ codes source, c.byte?.isSome = true) ∧ bytesOf (codes source) = bs ∧
      (codes source).map Code.line = List.range' 1 bs.length := by
  obtain ⟨ls, hls, hnumerals⟩ := h
  obtain ⟨hbytes, hlines⟩ := codesFrom_numerals hnumerals 1
  rw [codes, lines_of_hasLines hls]
  have hvalid : ∀ c ∈ codesFrom 1 ls, c.byte?.isSome = true := by
    intro c hc
    have hmem : c.byte? ∈ bs.map some := hbytes ▸ List.mem_map_of_mem hc
    obtain ⟨b, -, hb⟩ := List.mem_map.1 hmem
    rw [← hb]
    rfl
  have hsame := (map_byte?_eq hvalid).symm.trans hbytes
  exact ⟨hvalid, List.map_injective_iff.2 (Option.some_injective _) hsame, hlines⟩

theorem length_codes_of_written (h : Written source bs) :
    (codes source).length = bs.length := by
  have hlines := congrArg List.length (codes_of_written h).2.2
  rwa [List.length_map, List.length_range'] at hlines

/-- Of valid codes, those are faulty for which there is no address left. -/
theorem errors_place_of_valid {cs : List Code} (hvalid : ∀ c ∈ cs, c.byte?.isSome = true)
    (hp : p.size ≤ capacity) :
    (place p cs).errors = (cs.drop (capacity - p.size)).map fun c =>
      ⟨c.line, c.text, .invalidAddress capacity⟩ := by
  induction cs generalizing p with
  | nil => simp [place]
  | cons c cs ih =>
    obtain ⟨b, hb⟩ := Option.isSome_iff_exists.1 (hvalid c (List.mem_cons_self ..))
    have hrest : ∀ d ∈ cs, d.byte?.isSome = true :=
      fun d hd => hvalid d (List.mem_cons_of_mem c hd)
    by_cases hroom : p.size < capacity
    · have hpush : (p.push b).size ≤ capacity := hroom
      have hleft : capacity - p.size = capacity - (p.push b).size + 1 := by
        rw [Program.size_push]
        omega
      rw [place_cons_room hb hroom, ih hrest hpush, hleft, List.drop_succ_cons]
    · have hfull : p.size = capacity := by omega
      rw [place_cons_full hb hfull, Placement.errors_report, ih hrest hp, hfull, Nat.sub_self,
        List.drop_zero, List.drop_zero, List.map_cons]

theorem parse_written_ok (base : Memory) (h : Written source bs) (hlength : bs.length ≤ 256) :
    parse base source = .ok ⟨base.writeAll 0 bs, bs.length⟩ := by
  obtain ⟨hvalid, hbytes, -⟩ := codes_of_written h
  have hcodes : (codes source).length ≤ 256 := by rwa [length_codes_of_written h]
  have hparse : parse base source = .ok _ :=
    parse_ok_iff.2 ⟨(errors_eq_nil_iff base).2 ⟨hvalid, hcodes⟩, rfl⟩
  obtain ⟨-, -, hprogram⟩ := program_of_parse hparse
  rw [hparse, hprogram, hbytes]

theorem parse_written_error (base : Memory) (h : Written source bs) (hlength : 256 < bs.length) :
    ∃ errors, parse base source = .error errors ∧ errors.length = bs.length - 256 ∧
      ∀ i (hi : i < errors.length), errors[i].line = 257 + i ∧
        errors[i].problem = .invalidAddress 256 := by
  obtain ⟨hvalid, -, hlines⟩ := codes_of_written h
  have herrors := errors_place_of_valid (p := ⟨base, 0⟩) hvalid (Nat.zero_le _)
  have hcount : (place ⟨base, 0⟩ (codes source)).errors.length = bs.length - 256 := by
    rw [herrors, List.length_map, List.length_drop, length_codes_of_written h]
    rfl
  refine ⟨_, parse_error_iff.2 ⟨?_, rfl⟩, hcount, fun i hi => ?_⟩
  · refine List.ne_nil_of_length_pos ?_
    omega
  · have hi' : 256 + i < (codes source).length := by
      rw [length_codes_of_written h]
      omega
    have hline := List.getElem_of_eq hlines (i := 256 + i) (by rwa [List.length_map])
    rw [List.getElem_map, List.getElem_range'] at hline
    simp only [herrors, List.getElem_map, List.getElem_drop]
    refine ⟨?_, rfl⟩
    show (codes source)[256 + i].line = 257 + i
    omega

/-- **Loading undoes writing out.**  A list of bytes can be written out with whatever signs and
leading zeros.  Any text that is written for the list is loaded, over whatever memory, if there
are at most 256 bytes, and gives the memory that has the list written from address 0 on; so all
bytes of a memory give that memory back.  If there are more, the text is refused with one error
for each byte beyond, which are those of the lines from 257 on, and every one of them tells that
there is no address 256. -/
theorem parse_written (base : Memory) (bs : List Byte) :
    (∀ plus zeros, Written (render plus zeros bs) bs) ∧
      ∀ source, Written source bs →
        (bs.length ≤ 256 → parse base source = .ok ⟨base.writeAll 0 bs, bs.length⟩) ∧
        (∀ memory : Memory, bs = memory.toList → parse base source = .ok ⟨memory, 256⟩) ∧
        (256 < bs.length → ∃ errors, parse base source = .error errors ∧
          errors.length = bs.length - 256 ∧ ∀ i (hi : i < errors.length),
            errors[i].line = 257 + i ∧ errors[i].problem = .invalidAddress 256) := by
  refine ⟨fun plus zeros => written_render plus zeros bs, fun source h =>
    ⟨parse_written_ok base h, fun memory hmemory => ?_, parse_written_error base h⟩⟩
  subst hmemory
  have hlength : memory.toList.length = 256 := memory.bytes.length_toList
  rw [parse_written_ok base h (Nat.le_of_eq hlength), Memory.writeAll_toList, hlength]

/-- Three bytes: a sign and a carriage return, more zeros than one, and a line that is not ended. -/
def threeBytes : List Char :=
  "+10000010".toList ++ '\r' :: '\n' :: ("000".toList ++ '\n' :: "1000".toList)

theorem parse_written_threeBytes :
    parse .zero threeBytes = .ok ⟨Memory.zero.writeAll 0 [0x82, 0x00, 0x08], 3⟩ ∧
      ∃ e, parse .zero (render (fun _ => false) (fun _ => 7) (List.replicate 257 1)) =
        .error [e] ∧ e.line = 257 ∧ e.problem = .invalidAddress 256 := by
  have hwritten : Written threeBytes [0x82, 0x00, 0x08] := by
    refine ⟨["+10000010".toList, "000".toList, "1000".toList], ?_, ?_⟩
    · refine .returnFeed (by decide) (.feed (by decide) (by decide) ?_)
      exact .unended (by decide) (by decide)
    · refine .cons ?_ (.cons ?_ (.cons ?_ .nil)) <;>
        exact readBinary?_eq_some_iff_numeral.1 (by decide)
  refine ⟨((parse_written .zero [0x82, 0x00, 0x08]).2 threeBytes hwritten).1 (by decide), ?_⟩
  obtain ⟨hrender, hload⟩ := parse_written .zero (List.replicate 257 1)
  have hlength : (List.replicate 257 (1 : Byte)).length = 257 := List.length_replicate
  obtain ⟨errors, hparse, hcount, herrors⟩ := (hload _ (hrender _ _)).2.2 (by omega)
  rw [hlength] at hcount
  obtain ⟨e, rfl⟩ := List.length_eq_one_iff.1 hcount
  exact ⟨e, hparse, herrors 0 Nat.one_pos⟩

end ByteMachine.ObjectFile
