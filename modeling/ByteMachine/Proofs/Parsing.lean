/-
Loading a text.

Whether a text is a program, which program it is, and otherwise which of its lines are faulty,
is stated against the grammar:

* `parse_accepts_grammar` — a text is loaded exactly if every code is a numeral of a byte and
  there is an address for each, and then the codes stand in memory from address 0 on;
* `parse_lists_faulty_lines` — otherwise the faulty lines are listed, each once and in order, and
  `FaultyLine` says which lines those are.

The program itself is told by `parse_eq_ok_iff`: the bytes of the codes, written from address 0 on.
Neither depends on what the memory held before, but for the bytes that the program leaves alone.
-/
import ByteMachine.Proofs.Loading
import ByteMachine.Proofs.Placement
import Mathlib.Data.List.Sort

namespace ByteMachine.ObjectFile

open Text

variable {base : Memory} {source : List Char}

theorem parse_ok_iff {p : Program} :
    parse base source = .ok p ↔ (place ⟨base, 0⟩ (codes source)).errors = [] ∧
      (place ⟨base, 0⟩ (codes source)).program = p := by
  simp only [parse]
  generalize place ⟨base, 0⟩ (codes source) = placed
  cases placed.errors with
  | nil => simp
  | cons e errors => simp

theorem parse_error_iff {errors : List LineError} :
    parse base source = .error errors ↔
      errors ≠ [] ∧ (place ⟨base, 0⟩ (codes source)).errors = errors := by
  simp only [parse]
  generalize place ⟨base, 0⟩ (codes source) = placed
  cases placed.errors with
  | nil =>
    constructor
    · intro h
      cases h
    · rintro ⟨hne, rfl⟩
      exact absurd rfl hne
  | cons e rest =>
    constructor
    · intro h
      obtain rfl := Except.error.inj h
      exact ⟨List.cons_ne_nil e rest, rfl⟩
    · rintro ⟨-, rfl⟩
      rfl

theorem errors_eq_nil_iff (base : Memory) :
    (place ⟨base, 0⟩ (codes source)).errors = [] ↔
      (∀ c ∈ codes source, c.byte?.isSome = true) ∧ (codes source).length ≤ 256 := by
  rw [errors_place_eq_nil_iff (Nat.zero_le _), Nat.zero_add]
  rfl

/-- If all codes are valid, there is a byte for each. -/
theorem map_byte?_eq {cs : List Code} (h : ∀ c ∈ cs, c.byte?.isSome = true) :
    cs.map Code.byte? = (bytesOf cs).map some := by
  induction cs with
  | nil => rfl
  | cons c cs ih =>
    obtain ⟨b, hb⟩ := Option.isSome_iff_exists.1 (h c (List.mem_cons_self ..))
    rw [bytesOf_cons_some hb, List.map_cons, List.map_cons, hb,
      ih fun d hd => h d (List.mem_cons_of_mem c hd)]

/-- The program of a text that is loaded: the bytes of its codes, written from address 0 on. -/
theorem program_of_parse {p : Program} (h : parse base source = .ok p) :
    (bytesOf (codes source)).length ≤ 256 ∧
      (codes source).map Code.byte? = (bytesOf (codes source)).map some ∧
      p = ⟨base.writeAll 0 (bytesOf (codes source)), (bytesOf (codes source)).length⟩ := by
  obtain ⟨herrors, hprogram⟩ := parse_ok_iff.1 h
  obtain ⟨hvalid, hlength⟩ := (errors_eq_nil_iff base).1 herrors
  have hbytes := map_byte?_eq hvalid
  have hle : (bytesOf (codes source)).length ≤ 256 := by
    have hsame := congrArg List.length hbytes
    rw [List.length_map, List.length_map] at hsame
    omega
  refine ⟨hle, hbytes, ?_⟩
  have hall : (bytesOf (codes source)).take (capacity - 0) = bytesOf (codes source) :=
    List.take_of_length_le hle
  rw [← hprogram, program_place (Nat.zero_le _), hall, Program.foldl_push, Nat.zero_add]
  rfl

/-- The codes are valid with these bytes exactly if their texts are numerals of them. -/
theorem map_byte?_eq_iff {cs : List Code} {bs : List Byte} :
    cs.map Code.byte? = bs.map some ↔ List.Forall₂ Numeral (cs.map Code.text) bs := by
  rw [← List.forall₂_eq_eq_eq, List.forall₂_map_left_iff, List.forall₂_map_right_iff,
    List.forall₂_map_left_iff]
  simp only [Code.byte?, readBinary?_eq_some_iff_numeral]

/-- A text is loaded as a program exactly if its codes are numerals of the bytes of the program. -/
theorem parse_eq_ok_iff {p : Program} :
    parse base source = .ok p ↔ ∃ texts bs, HasCodes source texts ∧
      List.Forall₂ Numeral texts bs ∧ bs.length ≤ 256 ∧
      p = ⟨base.writeAll 0 bs, bs.length⟩ := by
  constructor
  · intro h
    obtain ⟨hle, hbytes, hp⟩ := program_of_parse h
    exact ⟨_, _, hasCodes_iff.2 rfl, map_byte?_eq_iff.1 hbytes, hle, hp⟩
  · rintro ⟨texts, bs, hcodes, hnumerals, hle, rfl⟩
    obtain rfl := hasCodes_iff.1 hcodes
    have hbytes := map_byte?_eq_iff.2 hnumerals
    have herrors : (place ⟨base, 0⟩ (codes source)).errors = [] := by
      refine (errors_eq_nil_iff base).2 ⟨fun c hc => ?_, ?_⟩
      · obtain ⟨b, -, hb⟩ := List.mem_map.1 (hbytes ▸ List.mem_map_of_mem hc)
        rw [← hb]
        rfl
      · have hsame := congrArg List.length hbytes
        rw [List.length_map, List.length_map] at hsame
        omega
    -- There is only one program, and it has these bytes.
    obtain ⟨-, hsame, hp⟩ := program_of_parse (parse_ok_iff.2 ⟨herrors, rfl⟩)
    rw [hbytes, List.map_inj_right fun a b hab => Option.some.inj hab] at hsame
    rw [parse_ok_iff, hp, ← hsame]
    exact ⟨herrors, rfl⟩

/-- **A text is loaded exactly if it is written in the grammar.**  Every text has its codes in
one way only.  It is loaded, over whatever memory, exactly if each of them is a numeral of a byte
and there are at most 256 of them.  The byte of each code then stands at the address that counts
the codes before it, and the addresses behind the last code hold what they held before. -/
theorem parse_accepts_grammar (base : Memory) (source : List Char) :
    ∃ texts, (∀ ts, HasCodes source ts ↔ ts = texts) ∧
      ((∃ p, parse base source = .ok p) ↔
        (∀ text ∈ texts, ∃ b, Numeral text b) ∧ texts.length ≤ 256) ∧
      ∀ p, parse base source = .ok p →
        p.size = texts.length ∧
        (∀ i (h : i < texts.length), Numeral texts[i] (p.memory.read (UInt8.ofNat i))) ∧
        ∀ a : Address, texts.length ≤ a.toNat → p.memory.read a = base.read a := by
  refine ⟨(codes source).map Code.text, fun ts => hasCodes_iff, ?_, fun p hp => ?_⟩
  · have hvalid : (∀ c ∈ codes source, c.byte?.isSome = true) ↔
        ∀ text ∈ (codes source).map Code.text, ∃ b, Numeral text b := by
      rw [List.forall_mem_map]
      exact forall_congr' fun c => imp_congr_right fun _ => isSome_readBinary?_iff
    rw [List.length_map, ← hvalid, ← errors_eq_nil_iff base]
    simp only [parse_ok_iff, exists_and_left, exists_eq', and_true]
  · obtain ⟨hle, hbytes, rfl⟩ := program_of_parse hp
    have hlength : (codes source).length = (bytesOf (codes source)).length := by
      simpa using congrArg List.length hbytes
    obtain ⟨hread, hrest⟩ := base.read_writeAll_zero hle
    refine ⟨by simp [hlength], fun i hi => ?_, fun a ha => hrest a (by simpa [hlength] using ha)⟩
    have hi' : i < (bytesOf (codes source)).length := by simpa [hlength] using hi
    have hcode := List.getElem_of_eq hbytes (i := i) (by simpa using hi)
    rw [List.getElem_map, List.getElem_map] at hcode
    rw [hread i hi', List.getElem_map, ← readBinary?_eq_some_iff_numeral]
    exact hcode

/-- What is wrong with one of the lines of a text: what it says is no numeral of a byte, or it is
one and 256 lines before it hold a byte already. -/
def FaultyLine (ls : List (List Char)) (e : LineError) : Prop :=
  ∃ earlier line later, ls = earlier ++ line :: later ∧ e.line = earlier.length + 1 ∧
    Says line e.code ∧ e.code ≠ [] ∧
    ((∀ b, ¬ Numeral e.code b) ∧ e.problem = .invalidNumber 2 ∧
        e.detail = "`" ++ String.ofList e.code ++ "` is not an 8 bit binary number" ∨
      (∃ b, Numeral e.code b) ∧ 256 ≤ earlier.countP (fun line => HoldsByte line) ∧
        e.problem = .invalidAddress 256 ∧ e.detail = "program is larger than memory")

theorem faulty_iff {c : Code} {placed : Nat} {e : LineError} :
    c.Faulty placed e ↔ e.line = c.line ∧ e.code = c.text ∧
      ((∀ b, ¬ Numeral e.code b) ∧ e.problem = .invalidNumber 2 ∧
          e.detail = "`" ++ String.ofList e.code ++ "` is not an 8 bit binary number" ∨
        (∃ b, Numeral e.code b) ∧ 256 ≤ placed ∧
          e.problem = .invalidAddress 256 ∧ e.detail = "program is larger than memory") := by
  constructor
  · rintro (hcode | ⟨hcode, hfull⟩)
    · exact ⟨rfl, rfl, .inl ⟨readBinary?_eq_none_iff.1 hcode, rfl, rfl⟩⟩
    · exact ⟨rfl, rfl, .inr ⟨⟨_, readBinary?_eq_some_iff_numeral.1 hcode⟩, hfull, rfl, rfl⟩⟩
  · obtain ⟨line, code, problem⟩ := e
    rintro ⟨rfl, rfl, ⟨hcode, rfl, -⟩ | ⟨⟨b, hcode⟩, hfull, rfl, -⟩⟩
    · exact .number (readBinary?_eq_none_iff.2 hcode)
    · exact .address (readBinary?_eq_some_iff_numeral.2 hcode) hfull

/-- The lines that are reported are the faulty ones. -/
theorem mem_errors_iff {e : LineError} :
    e ∈ (place ⟨base, 0⟩ (codes source)).errors ↔ FaultyLine (lines source) e := by
  rw [mem_errors_place (Nat.zero_le _), codes, exists_code_iff
    (P := fun before (c : Code) => c.Faulty (0 + (bytesOf before).length) e)]
  refine exists_congr fun earlier => exists_congr fun line => exists_congr fun later =>
    and_congr_right fun _ => ?_
  rw [length_bytesOf_codesFrom, Nat.zero_add, faulty_iff, Nat.add_comm 1, ← strip_eq_iff]
  constructor
  · rintro ⟨hne, hnumber, hcode, hproblem⟩
    exact ⟨hnumber, hcode.symm, hcode ▸ hne, hproblem⟩
  · rintro ⟨hnumber, hcode, hne, hproblem⟩
    exact ⟨hcode ▸ hne, hnumber, hcode.symm, hproblem⟩

/-- A list of faulty lines in order is told by its members. -/
theorem errors_eq_of_mem_iff {errors errors' : List LineError}
    (h : errors.Pairwise fun e f => e.line < f.line)
    (h' : errors'.Pairwise fun e f => e.line < f.line)
    (hmem : ∀ e, e ∈ errors ↔ e ∈ errors') : errors = errors' := by
  have : Std.Irrefl fun e f : LineError => e.line < f.line := ⟨fun e => Nat.lt_irrefl e.line⟩
  have : Std.Antisymm fun e f : LineError => e.line < f.line :=
    ⟨fun e f hef hfe => absurd hfe (Nat.lt_asymm hef)⟩
  exact h.eq_of_mem_iff h' hmem

/-- **The faulty lines are listed completely, exactly and in order.**  A text is refused, over
whatever memory, exactly if it has a faulty line, and no memory is handed out then.  The list
tells of every faulty line, of no other line and of no line twice, in the order of the lines,
which are counted from 1 with those that say nothing.  A line whose code is no numeral of a byte
is an invalid number and takes no address; a line whose code is one is faulty if 256 lines before
it hold a byte, and the address that it is denied is 256 however many there are. -/
theorem parse_lists_faulty_lines (base : Memory) (source : List Char) (errors : List LineError) :
    parse base source = .error errors ↔
      errors ≠ [] ∧ (errors.Pairwise fun e f => e.line < f.line) ∧
        ∃ ls, HasLines source ls ∧ ∀ e, e ∈ errors ↔ FaultyLine ls e := by
  have hordered := pairwise_errors_place ⟨base, 0⟩ 1 (lines source)
  rw [parse_error_iff]
  refine and_congr_right fun _ => ?_
  constructor
  · rintro rfl
    exact ⟨hordered, lines source, hasLines_lines source, fun e => mem_errors_iff⟩
  · rintro ⟨hpairwise, ls, hls, hmem⟩
    refine errors_eq_of_mem_iff hordered hpairwise fun e => ?_
    rw [hmem, ← lines_of_hasLines hls]
    exact mem_errors_iff

end ByteMachine.ObjectFile
