/-
Loading two texts as one.

Two texts joined by a line feed are loaded as if the second were placed behind the first.  What
becomes of a line of the second text depends on the first in two ways only, the number of its
lines and the number of bytes that it holds:

* `numbers_place` — the codes that are no numerals, which are reported wherever they stand;
* `addresses_place` — the numerals beyond the last address, which depend on how many there are
  before;
* `validCodes_append`, `bytesOf_codes_append` — the numerals of both texts, and their bytes;
* `parse_append` — errors and program of the joined text.
-/
import ByteMachine.Proofs.Numbering
import ByteMachine.Proofs.Rendering
import Mathlib.Data.List.DropRight

namespace ByteMachine.ObjectFile

/-- The codes of a text that are numerals of a byte. -/
def validCodes (source : List Char) : List Code := (codes source).filter fun c => c.byte?.isSome

/-- The errors that loading reports; none if there is a program. -/
def reported : Except (List LineError) Program → List LineError
  | .ok _ => []
  | .error errors => errors

/-- Whether it is the number that is wrong with a line, and not the address. -/
def LineError.ofNumber (e : LineError) : Bool :=
  match e.problem with
  | .invalidNumber _ => true
  | .invalidAddress _ => false

/-- The errors of lines whose code is no numeral. -/
def numberErrors (errors : List LineError) : List LineError := errors.filter LineError.ofNumber

/-- The errors of lines whose byte has no address. -/
def addressErrors (errors : List LineError) : List LineError :=
  errors.filter fun e => !e.ofNumber

variable {p : Program} {base : Memory} {source s t : List Char}

theorem reported_parse (base : Memory) (source : List Char) :
    reported (parse base source) = (place ⟨base, 0⟩ (codes source)).errors := by
  rw [parse]
  generalize place ⟨base, 0⟩ (codes source) = placed
  cases h : placed.errors with
  | nil => simp [reported]
  | cons e errors => simp [reported]

/-! ### Both kinds of errors -/

/-- Codes that are no numerals are reported, whatever stands before them. -/
theorem numbers_place (p : Program) (cs : List Code) :
    numberErrors (place p cs).errors =
      (cs.filter fun c => c.byte?.isNone).map fun c => ⟨c.line, c.text, .invalidNumber 2⟩ := by
  induction cs generalizing p with
  | nil => rfl
  | cons c cs ih =>
    cases hc : c.byte? with
    | none =>
      rw [place_cons_none hc, Placement.errors_report, List.filter_cons_of_pos (by simp [hc]),
        List.map_cons, ← ih p]
      rfl
    | some b =>
      rw [place, List.filter_cons_of_neg (by simp [hc])]
      simp only [hc]
      split
      · exact ih _
      · exact ih p

/-- The other errors are those of the numerals alone. -/
theorem addressErrors_place {cs : List Code} (hp : p.size ≤ capacity) :
    addressErrors (place p cs).errors = (place p (cs.filter fun c => c.byte?.isSome)).errors := by
  induction cs generalizing p with
  | nil => rfl
  | cons c cs ih =>
    cases hc : c.byte? with
    | none =>
      rw [place_cons_none hc, Placement.errors_report, List.filter_cons_of_neg (by simp [hc]),
        ← ih hp]
      rfl
    | some b =>
      rw [List.filter_cons_of_pos (by simp [hc])]
      by_cases hroom : p.size < capacity
      · have hpush : (p.push b).size ≤ capacity := hroom
        rw [place_cons_room hc hroom, place_cons_room hc hroom, ih hpush]
      · -- A program that is full stays as it is, and every numeral behind is reported.
        have hfull : p.size = capacity := by omega
        rw [place_cons_full hc hfull, place_cons_full hc hfull, Placement.errors_report,
          Placement.errors_report, ← ih hp]
        rfl

theorem addresses_place (cs : List Code) :
    addressErrors (place ⟨base, 0⟩ cs).errors =
      ((cs.filter fun c => c.byte?.isSome).drop 256).map fun c =>
        ⟨c.line, c.text, .invalidAddress 256⟩ := by
  have hvalid : ∀ c ∈ cs.filter fun c => c.byte?.isSome, c.byte?.isSome = true :=
    fun c hc => (List.mem_filter.1 hc).2
  rw [addressErrors_place (Nat.zero_le _), errors_place_of_valid hvalid (Nat.zero_le _)]
  rfl

/-! ### The joined text -/

theorem numberErrors_append (base : Memory) (s t : List Char) :
    numberErrors (reported (parse base (s ++ '\n' :: t))) =
      numberErrors (reported (parse base s)) ++ (numberErrors (reported (parse base t))).map
        (LineError.renumber (· + (s.count '\n' + 1))) := by
  simp only [reported_parse, numbers_place]
  rw [codes_append, List.filter_append, List.filter_map, List.map_append, List.map_map,
    List.map_map]
  rfl

theorem validCodes_append (s t : List Char) :
    validCodes (s ++ '\n' :: t) =
      validCodes s ++ (validCodes t).map (Code.renumber (· + (s.count '\n' + 1))) := by
  rw [validCodes, codes_append, List.filter_append, List.filter_map]
  rfl

theorem bytesOf_codes_append (s t : List Char) :
    bytesOf (codes (s ++ '\n' :: t)) = bytesOf (codes s) ++ bytesOf (codes t) := by
  rw [bytesOf, codes_append, List.filterMap_append, List.filterMap_map]
  rfl

theorem length_bytesOf_codes (source : List Char) :
    (bytesOf (codes source)).length = (validCodes source).length := by
  rw [bytesOf, List.length_filterMap_eq_countP, validCodes, List.countP_eq_length_filter]

theorem length_validCodes_append (s t : List Char) :
    (validCodes (s ++ '\n' :: t)).length = (validCodes s).length + (validCodes t).length := by
  rw [validCodes_append, List.length_append, List.length_map]

/-- The numerals that are denied an address are the last ones of the text. -/
theorem addressErrors_parse (base : Memory) (source : List Char) :
    addressErrors (reported (parse base source)) =
      ((validCodes source).rtake ((validCodes source).length - 256)).map fun c =>
        ⟨c.line, c.text, .invalidAddress 256⟩ := by
  -- To take the last ones is to drop 256, also where there are not so many.
  have hlast : (validCodes source).rtake ((validCodes source).length - 256) =
      (validCodes source).drop 256 := by
    rw [List.rtake]
    by_cases hlength : (validCodes source).length ≤ 256
    · rw [List.drop_eq_nil_of_le hlength, List.drop_eq_nil_of_le (by omega)]
    · have hkept : (validCodes source).length - ((validCodes source).length - 256) = 256 := by
        omega
      rw [hkept]
  rw [reported_parse, addresses_place, hlast]
  rfl

theorem exists_parse_iff : (∃ p, parse base source = .ok p) ↔
    (∀ c ∈ codes source, c.byte?.isSome = true) ∧ (validCodes source).length ≤ 256 := by
  have hok : (∃ p, parse base source = .ok p) ↔
      (place ⟨base, 0⟩ (codes source)).errors = [] := by
    simp only [parse_ok_iff, exists_and_left, exists_eq', and_true]
  rw [hok, errors_eq_nil_iff]
  refine and_congr_right fun hvalid => ?_
  rw [validCodes, List.filter_eq_self.2 hvalid]

theorem exists_parse_append_iff : (∃ p, parse base (s ++ '\n' :: t) = .ok p) ↔
    (∃ p, parse base s = .ok p) ∧ (∃ p, parse base t = .ok p) ∧
      (validCodes s).length + (validCodes t).length ≤ 256 := by
  simp only [exists_parse_iff, length_validCodes_append]
  have hvalid : (∀ c ∈ codes (s ++ '\n' :: t), c.byte?.isSome = true) ↔
      (∀ c ∈ codes s, c.byte?.isSome = true) ∧ ∀ c ∈ codes t, c.byte?.isSome = true := by
    rw [codes_append, List.forall_mem_append, List.forall_mem_map]
    rfl
  rw [hvalid]
  constructor
  · rintro ⟨⟨hs, ht⟩, hlength⟩
    exact ⟨⟨hs, by omega⟩, ⟨ht, by omega⟩, hlength⟩
  · rintro ⟨⟨hs, -⟩, ⟨ht, -⟩, hlength⟩
    exact ⟨⟨hs, ht⟩, hlength⟩

/-- What a program holds: the bytes of its text, and behind them what the memory held before. -/
theorem read_of_parse (h : parse base source = .ok p) :
    p.size = (validCodes source).length ∧
      (∀ i (hi : i < (bytesOf (codes source)).length),
        p.memory.read (UInt8.ofNat i) = (bytesOf (codes source))[i]) ∧
      ∀ a : Address, p.size ≤ a.toNat → p.memory.read a = base.read a := by
  obtain ⟨hle, -, rfl⟩ := program_of_parse h
  obtain ⟨hread, hrest⟩ := base.read_writeAll_zero hle
  exact ⟨length_bytesOf_codes source, hread, hrest⟩

/-- The programs of two texts make up the program of the joined text. -/
theorem read_parse_append {p₁ p₂ : Program} (h : parse base (s ++ '\n' :: t) = .ok p)
    (h₁ : parse base s = .ok p₁) (h₂ : parse base t = .ok p₂) :
    p.size = p₁.size + p₂.size ∧
      (∀ i < p₁.size, p.memory.read (UInt8.ofNat i) = p₁.memory.read (UInt8.ofNat i)) ∧
      (∀ i < p₂.size,
        p.memory.read (UInt8.ofNat (p₁.size + i)) = p₂.memory.read (UInt8.ofNat i)) ∧
      ∀ a : Address, p₁.size + p₂.size ≤ a.toNat → p.memory.read a = base.read a := by
  obtain ⟨hsize, hread, hrest⟩ := read_of_parse h
  obtain ⟨hsize₁, hread₁, -⟩ := read_of_parse h₁
  obtain ⟨hsize₂, hread₂, -⟩ := read_of_parse h₂
  have hlength₁ : (bytesOf (codes s)).length = p₁.size := by rw [length_bytesOf_codes, hsize₁]
  have hlength₂ : (bytesOf (codes t)).length = p₂.size := by rw [length_bytesOf_codes, hsize₂]
  have hsum : p.size = p₁.size + p₂.size := by
    rw [hsize, length_validCodes_append, hsize₁, hsize₂]
  simp only [bytesOf_codes_append, List.length_append] at hread
  refine ⟨hsum, fun i hi => ?_, fun i hi => ?_, fun a ha => hrest a (by omega)⟩
  · rw [hread i (by omega), hread₁ i (by omega), List.getElem_append_left (by omega)]
  · rw [hread (p₁.size + i) (by omega), hread₂ i (by omega),
      List.getElem_append_right (by omega)]
    congr 1
    omega

/-- **Loading composes.**  Let two texts be joined by a line feed, and let there be `n` numerals of
a byte in both together.  The codes that are no numerals are reported as they are for each text
alone, with the lines of the second counted on from the line feeds of the first and the one
between.  If `n` is beyond 256, so many errors report that there is no address 256, for the last
numerals of the joined text.  It is loaded exactly if each text is loaded alone and `n` is at most
256, and then its memory has the bytes of the first text from address 0 on, those of the second
behind them, and what it held before behind these. -/
theorem parse_append (base : Memory) (s t : List Char) :
    let joined := s ++ '\n' :: t
    let n := (validCodes s).length + (validCodes t).length
    numberErrors (reported (parse base joined)) =
        numberErrors (reported (parse base s)) ++ (numberErrors (reported (parse base t))).map
          (LineError.renumber (· + (s.count '\n' + 1))) ∧
      (addressErrors (reported (parse base joined))).length = n - 256 ∧
      addressErrors (reported (parse base joined)) =
        ((validCodes joined).rtake (n - 256)).map (fun c =>
          ⟨c.line, c.text, .invalidAddress 256⟩) ∧
      ((∃ p, parse base joined = .ok p) ↔
        (∃ p, parse base s = .ok p) ∧ (∃ p, parse base t = .ok p) ∧ n ≤ 256) ∧
      ∀ p p₁ p₂, parse base joined = .ok p → parse base s = .ok p₁ → parse base t = .ok p₂ →
        p₁.size = (validCodes s).length ∧ p₂.size = (validCodes t).length ∧ p.size = n ∧
        (∀ i < p₁.size, p.memory.read (UInt8.ofNat i) = p₁.memory.read (UInt8.ofNat i)) ∧
        (∀ i < p₂.size,
          p.memory.read (UInt8.ofNat (p₁.size + i)) = p₂.memory.read (UInt8.ofNat i)) ∧
        ∀ a : Address, n ≤ a.toNat → p.memory.read a = base.read a := by
  intro joined n
  have hlength : (validCodes joined).length = n := length_validCodes_append s t
  have haddress := addressErrors_parse base joined
  rw [hlength] at haddress
  refine ⟨numberErrors_append base s t, ?_, haddress, exists_parse_append_iff, ?_⟩
  · rw [haddress, List.length_map, List.rtake, List.length_drop]
    omega
  · intro p p₁ p₂ h h₁ h₂
    obtain ⟨hsize, hfirst, hsecond, hrest⟩ := read_parse_append h h₁ h₂
    have hsize₁ := (read_of_parse h₁).1
    have hsize₂ := (read_of_parse h₂).1
    rw [hsize₁, hsize₂] at hsize hrest
    exact ⟨hsize₁, hsize₂, hsize, hfirst, hsecond, hrest⟩

/-- A text that fills the memory, each line with a line feed behind it. -/
def fullOfOnes : List Char := render (fun _ => false) (fun _ => 0) (List.replicate 256 1)

theorem parse_append_fullOfOnes :
    numberErrors (reported (parse .zero (fullOfOnes ++ '\n' :: "x\n+01".toList))) =
        [⟨258, "x".toList, .invalidNumber 2⟩] ∧
      (addressErrors (reported (parse .zero (fullOfOnes ++ '\n' :: "x\n+01".toList)))).length = 1 ∧
      ∃ p, parse .zero ("1".toList ++ '\n' :: "10".toList) = .ok p ∧ p.memory.read 1 = 2 := by
  obtain ⟨hnumbers, hcount, -⟩ := parse_append .zero fullOfOnes "x\n+01".toList
  have hwritten : Written fullOfOnes (List.replicate 256 1) := written_render _ _ _
  have hfull := parse_written_ok .zero hwritten (Nat.le_of_eq List.length_replicate)
  have hvalid : (validCodes fullOfOnes).length = 256 := by
    rw [(read_of_parse hfull).1.symm, List.length_replicate]
  have hfeeds : fullOfOnes.count '\n' = 256 := by decide +kernel
  refine ⟨?_, ?_, ?_⟩
  · rw [hnumbers, hfull, hfeeds]
    rfl
  · rw [hcount, hvalid]
    rfl
  · obtain ⟨-, -, -, hiff, hmemory⟩ := parse_append .zero "1".toList "10".toList
    have hone : parse .zero "1".toList = .ok ⟨Memory.zero.write 0 1, 1⟩ := rfl
    have htwo : parse .zero "10".toList = .ok ⟨Memory.zero.write 0 2, 1⟩ := rfl
    obtain ⟨p, hp⟩ := hiff.2 ⟨⟨_, hone⟩, ⟨_, htwo⟩, by decide⟩
    obtain ⟨-, -, -, -, hsecond, -⟩ := hmemory p _ _ hp hone htwo
    exact ⟨p, hp, hsecond 0 (by decide)⟩

end ByteMachine.ObjectFile
