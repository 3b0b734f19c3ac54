/-
Reading a report of faulty lines.

The report of a text that is refused is itself a text, and it quotes what the faulty lines say.
What is quoted may hold anything but a line feed, the words of the report included, so that the
fixed parts of the report have to be found from its ends:

* `readError?` — the number of the line, what is wrong with it and the code that is quoted, read
  from the text of an error.  It finds them in every such text (`readError?_message`);
* `splitOn_message` — the lines of a report are a header and one line for each error;
* `report_reads_back` — for the report of a text that is refused, both of this, and the code is
  what the line of that number says.

The number of the line and the problem end at the first character of a kind that no numeral has,
and the code at the last words of the text: a code that holds these words does no harm.
-/
import ByteMachine.Proofs.Hexadecimal
import ByteMachine.Proofs.Parsing

namespace ByteMachine.ObjectFile

open Text

/-- The code that the text of an error quotes. -/
def LineError.quoted? (e : LineError) : Option (List Char) :=
  match e.problem with
  | .invalidNumber _ => some e.code
  | .invalidAddress _ => none

/-- What can be read from the text of an error. -/
structure Reading where
  line : Nat
  problem : Problem
  quoted? : Option (List Char)

def LineError.reading (e : LineError) : Reading := ⟨e.line, e.problem, e.quoted?⟩

/-- What stands behind a given beginning of a text. -/
def skip? (start : String) (text : List Char) : Option (List Char) :=
  start.toList.isPrefixOf? text

/-- What stands before a given end of a text. -/
def skipEnd? (ending : String) (text : List Char) : Option (List Char) :=
  ending.toList.isSuffixOf? text

/-- What stands before the first occurrence of a character, and what stands behind it. -/
def cutAt (stop : Char) (text : List Char) : List Char × List Char :=
  (text.takeWhile (· ≠ stop), (text.dropWhile (· ≠ stop)).tail)

/-- Reads a decimal number up to a character, and what stands behind that. -/
def readDecimal (stop : Char) (text : List Char) : Nat × List Char :=
  (cutAt stop text).map (Nat.ofDigitChars 10 · 0) id

/-- The character that codes, addresses and radixes are quoted with. -/
def backquote : Char := '\x60'

/-- Reads what is wrong with a line, up to the backquote at its end. -/
def readProblem? (text : List Char) : Option (Problem × List Char) :=
  match skip? "failed to parse number with radix `" text with
  | some rest => some ((readDecimal backquote rest).map .invalidNumber id)
  | none =>
    (skip? "memory has no address `0x" text).bind fun rest =>
      (readHex? (cutAt backquote rest).1).map fun address =>
        (.invalidAddress address, (cutAt backquote rest).2)

/-- Reads the code that is quoted in what is told of a line, if one is. -/
def readQuoted? (detail : List Char) : Option (List Char) :=
  (skip? "`" detail).bind (skipEnd? "` is not an 8 bit binary number")

/-- Reads the text of an error. -/
def readError? (text : List Char) : Option Reading := do
  let (line, rest) := readDecimal ']' (← skip? "error [ln: " text)
  let (problem, rest) ← readProblem? (← skip? ": " rest)
  let detail ← skip? " - " rest
  some ⟨line, problem, readQuoted? detail⟩

/-! ### Finding the fixed parts -/

theorem skip?_append (start : String) (rest : List Char) :
    skip? start (start.toList ++ rest) = some rest :=
  List.isPrefixOf?_eq_some_iff_append_eq.2 rfl

theorem skipEnd?_append (text : List Char) (ending : String) :
    skipEnd? ending (text ++ ending.toList) = some text :=
  List.isSuffixOf?_eq_some_iff_append_eq.2 rfl

theorem cutAt_append {stop : Char} {text : List Char} (h : stop ∉ text) (rest : List Char) :
    cutAt stop (text ++ stop :: rest) = (text, rest) := by
  have htext : ∀ c ∈ text, decide (c ≠ stop) = true := by
    intro c hc
    refine decide_eq_true ?_
    rintro rfl
    exact h hc
  rw [cutAt, List.takeWhile_append_of_pos htext, List.dropWhile_append_of_pos htext]
  simp

theorem not_mem_toDigits_ten {c : Char} (hc : c.isDigit = false) (n : Nat) :
    c ∉ Nat.toDigits 10 n := by
  intro h
  have hdigit := Nat.isDigit_of_mem_toDigits (by decide) (by decide) h
  rw [hc] at hdigit
  cases hdigit

theorem readDecimal_append {stop : Char} (hstop : stop.isDigit = false) (n : Nat)
    (rest : List Char) : readDecimal stop (Nat.toDigits 10 n ++ stop :: rest) = (n, rest) := by
  rw [readDecimal, cutAt_append (not_mem_toDigits_ten hstop n), Prod.map_apply,
    Nat.ofDigitChars_ten_toDigits, id]

/-! ### The text of an error -/

theorem toList_append_backquote (start numeral : String) (rest : List Char) :
    (start ++ numeral ++ "`").toList ++ rest =
      start.toList ++ (numeral.toList ++ backquote :: rest) := by
  rw [String.toList_append, String.toList_append, List.append_assoc, List.append_assoc]
  rfl

theorem readProblem?_message (p : Problem) (rest : List Char) :
    readProblem? (p.message.toList ++ rest) = some (p, rest) := by
  cases p with
  | invalidNumber radix =>
    have htext : (Problem.invalidNumber radix).message.toList ++ rest =
        "failed to parse number with radix `".toList ++
          (Nat.toDigits 10 radix ++ backquote :: rest) := by
      rw [← Nat.toList_repr]
      exact toList_append_backquote _ (Nat.repr radix) rest
    have hstop : backquote.isDigit = false := rfl
    rw [htext, readProblem?, skip?_append]
    simp only [readDecimal_append hstop, Prod.map_apply, id]
  | invalidAddress address =>
    have htext : (Problem.invalidAddress address).message.toList ++ rest =
        "memory has no address `0x".toList ++
          (Nat.toDigits 16 address ++ backquote :: rest) := by
      rw [← toList_lowerHex]
      exact toList_append_backquote _ (lowerHex address) rest
    have hother : skip? "failed to parse number with radix `"
        ("memory has no address `0x".toList ++
          (Nat.toDigits 16 address ++ backquote :: rest)) = none := rfl
    have hnumeral : backquote ∉ Nat.toDigits 16 address :=
      not_mem_toDigits_sixteen (by decide) address
    rw [htext, readProblem?, hother, skip?_append]
    simp only [Option.bind_some, cutAt_append hnumeral, readHex?_toDigits, Option.map_some]

theorem readQuoted?_detail (e : LineError) : readQuoted? e.detail.toList = e.quoted? := by
  obtain ⟨line, code, problem⟩ := e
  cases problem with
  | invalidNumber radix =>
    have hcode : (String.ofList code).toList = code := String.toList_ofList
    have htext : (LineError.mk line code (.invalidNumber radix)).detail.toList =
        "`".toList ++ (code ++ "` is not an 8 bit binary number".toList) := by
      rw [LineError.detail, String.toList_append, String.toList_append, List.append_assoc, hcode]
    rw [htext, readQuoted?, skip?_append, Option.bind_some, skipEnd?_append]
    rfl
  | invalidAddress address =>
    have hother : skip? "`" "program is larger than memory".toList = none := by decide
    show readQuoted? "program is larger than memory".toList = none
    rw [readQuoted?, hother, Option.bind_none]

theorem toList_message (e : LineError) : e.message.toList =
    "error [ln: ".toList ++ (Nat.toDigits 10 e.line ++ ("]: ".toList ++
      (e.problem.message.toList ++ (" - ".toList ++ e.detail.toList)))) := by
  have happend : ∀ a b c d f g : String, (a ++ b ++ c ++ d ++ f ++ g).toList =
      a.toList ++ (b.toList ++ (c.toList ++ (d.toList ++ (f.toList ++ g.toList)))) := by
    intro a b c d f g
    simp only [String.toList_append, List.append_assoc]
  rw [← Nat.toList_repr]
  exact happend _ (Nat.repr e.line) _ _ _ _

theorem readError?_message (e : LineError) : readError? e.message.toList = some e.reading := by
  have hbracket : "]: ".toList = ']' :: ": ".toList := rfl
  have hstop : Char.isDigit ']' = false := rfl
  rw [toList_message, hbracket, List.cons_append, readError?, skip?_append]
  simp only [Option.bind_eq_bind, Option.bind_some, readDecimal_append hstop, skip?_append,
     readProblem?_message, readQuoted?_detail]
  rfl

/-! ### The lines of a report -/

/-- A line feed in the text of an error would be one of the code that it quotes. -/
theorem not_mem_message {e : LineError} (hcode : '\n' ∉ e.code) : '\n' ∉ e.message.toList := by
  have hdecimal : ∀ n, '\n' ∉ Nat.toDigits 10 n := not_mem_toDigits_ten rfl
  have hproblem : '\n' ∉ e.problem.message.toList := by
    cases e.problem with
    | invalidNumber radix =>
      show '\n' ∉ ("failed to parse number with radix `" ++ Nat.repr radix ++ "`").toList
      simp only [String.toList_append, List.mem_append, not_or, Nat.toList_repr]
      exact ⟨⟨by decide, hdecimal radix⟩, by decide⟩
    | invalidAddress address =>
      show '\n' ∉ ("memory has no address `0x" ++ lowerHex address ++ "`").toList
      simp only [String.toList_append, List.mem_append, not_or, toList_lowerHex]
      exact ⟨⟨by decide, not_mem_toDigits_sixteen (by decide) address⟩, by decide⟩
  have hdetail : '\n' ∉ e.detail.toList := by
    obtain ⟨line, code, problem⟩ := e
    cases problem with
    | invalidNumber radix =>
      have hquoted : (String.ofList code).toList = code := String.toList_ofList
      simp only [LineError.detail, String.toList_append, List.mem_append, not_or, hquoted]
      exact ⟨⟨by decide, hcode⟩, by decide⟩
    | invalidAddress address =>
      show '\n' ∉ "program is larger than memory".toList
      decide
  rw [toList_message]
  simp only [List.mem_append, not_or]
  exact ⟨by decide, hdecimal e.line, by decide, hproblem, by decide, hdetail⟩

theorem intercalate_append_cons (separator start s : String) (rest : List String) :
    separator.intercalate ((start ++ s) :: rest) = start ++ separator.intercalate (s :: rest) := by
  cases rest with
  | nil => rw [String.intercalate_singleton, String.intercalate_singleton]
  | cons t rest => simp only [String.intercalate_cons_cons, String.append_assoc]

/-- Pieces without line feeds, each on a line of its own, are the lines of what they make. -/
theorem splitOn_intercalate_indented {head : String} {rest : List String}
    (hhead : '\n' ∉ head.toList) (hrest : ∀ s ∈ rest, '\n' ∉ s.toList) :
    ("\n  ".intercalate (head :: rest)).toList.splitOn '\n' =
      head.toList :: rest.map fun s => ("  " ++ s).toList := by
  induction rest generalizing head with
  | nil => rw [String.intercalate_singleton, List.splitOn_eq_singleton hhead, List.map_nil]
  | cons s rest ih =>
    obtain ⟨hs, hrest⟩ := List.forall_mem_cons.1 hrest
    have hindented : '\n' ∉ ("  " ++ s).toList := by
      rw [String.toList_append, List.mem_append, not_or]
      exact ⟨by decide, hs⟩
    -- The two blanks belong to what is behind the line feed.
    have htext : ("\n  ".intercalate (head :: s :: rest)).toList =
        head.toList ++ '\n' :: ("\n  ".intercalate (("  " ++ s) :: rest)).toList := by
      rw [String.intercalate_cons_cons, intercalate_append_cons]
      simp only [String.toList_append, List.append_assoc]
      rfl
    rw [htext, List.splitOn_append_cons_self_of_not_mem hhead, ih hindented hrest, List.map_cons]

/-- The lines of a report are a header and one line for each error. -/
theorem splitOn_message {errors : List LineError} (h : ∀ e ∈ errors, '\n' ∉ e.code) :
    (LoadError.invalid errors).message.toList.splitOn '\n' =
      ("object file has " ++ Nat.repr errors.length ++ " invalid line(s)").toList ::
        errors.map fun e => ("  " ++ e.message).toList := by
  have hheader : '\n' ∉
      ("object file has " ++ Nat.repr errors.length ++ " invalid line(s)").toList := by
    simp only [String.toList_append, List.mem_append, not_or, Nat.toList_repr]
    exact ⟨⟨by decide, not_mem_toDigits_ten rfl _⟩, by decide⟩
  have hmessages : ∀ s ∈ errors.map LineError.message, '\n' ∉ s.toList := by
    rw [List.forall_mem_map]
    exact fun e he => not_mem_message (h e he)
  have hsplit := splitOn_intercalate_indented hheader hmessages
  rwa [List.map_map] at hsplit

/-! ### Reports of texts -/

/-- What a faulty line says stands on the line of that number, and is quoted if it is wrong. -/
theorem FaultyLine.code_of_line {ls : List (List Char)} {e : LineError} (h : FaultyLine ls e) :
    (∃ line, e.line ≠ 0 ∧ ls[e.line - 1]? = some line ∧ Says line e.code) ∧
      (e.problem = .invalidNumber 2 ∧ e.quoted? = some e.code ∨
        e.problem = .invalidAddress 256 ∧ e.quoted? = none) := by
  obtain ⟨earlier, line, later, rfl, hnumber, hsays, -, hproblem⟩ := h
  refine ⟨⟨line, by omega, ?_, hsays⟩, ?_⟩
  · rw [hnumber, Nat.add_sub_cancel, List.getElem?_append_right (Nat.le_refl _), Nat.sub_self]
    rfl
  · unfold LineError.quoted?
    rcases hproblem with ⟨-, hkind, -⟩ | ⟨-, -, hkind, -⟩
    · exact .inl ⟨hkind, by rw [hkind]⟩
    · exact .inr ⟨hkind, by rw [hkind]⟩

theorem faultyLine_of_mem_errors {base : Memory} {source : List Char} {errors : List LineError}
    (h : parse base source = .error errors) {e : LineError} (he : e ∈ errors) :
    FaultyLine (lines source) e := by
  obtain ⟨-, rfl⟩ := parse_error_iff.1 h
  exact mem_errors_iff.1 he

/-- A line holds no line feed, and so neither does what it says. -/
theorem FaultyLine.not_mem_code {source : List Char} {e : LineError}
    (h : FaultyLine (lines source) e) : '\n' ∉ e.code := by
  obtain ⟨earlier, line, later, hlines, -, hsays, -⟩ := h
  have hline : line ∈ lines source := by
    rw [hlines]
    exact List.mem_append_right _ (List.mem_cons_self ..)
  intro hfeed
  rw [← hsays.strip_eq] at hfeed
  exact not_mem_of_mem_lines hline ((List.takeWhile_sublist _).mem (mem_trim hfeed))

/-- **A report can be taken apart again.**  Between the line feeds of the report of a text that is
refused there are a header, which counts the errors, and then the text of each error behind two
blanks.  What the faulty lines say adds no line feed.  From the text of an error its line, its
problem and the code that it quotes are read back, so that a text tells only of one; and the line
of that number says this code, whether it is quoted or not. -/
theorem report_reads_back {base : Memory} {source : List Char} {errors : List LineError}
    (h : parse base source = .error errors) :
    (LoadError.invalid errors).message.toList.splitOn '\n' =
        ("object file has " ++ Nat.repr errors.length ++ " invalid line(s)").toList ::
          (errors.map fun e => ("  " ++ e.message).toList) ∧
      ∃ ls, HasLines source ls ∧ ∀ e ∈ errors,
        '\n' ∉ e.message.toList ∧
        readError? e.message.toList = some ⟨e.line, e.problem, e.quoted?⟩ ∧
        (∀ f : LineError, f.message = e.message →
          f.line = e.line ∧ f.problem = e.problem ∧ f.quoted? = e.quoted?) ∧
        (∃ line, e.line ≠ 0 ∧ ls[e.line - 1]? = some line ∧ Says line e.code) ∧
        (e.problem = .invalidNumber 2 ∧ e.quoted? = some e.code ∨
          e.problem = .invalidAddress 256 ∧ e.quoted? = none) := by
  have hfaulty : ∀ e ∈ errors, FaultyLine (lines source) e :=
    fun e he => faultyLine_of_mem_errors h he
  refine ⟨splitOn_message fun e he => (hfaulty e he).not_mem_code, lines source,
    hasLines_lines source, fun e he => ⟨not_mem_message (hfaulty e he).not_mem_code,
      readError?_message e, fun f hf => ?_, (hfaulty e he).code_of_line⟩⟩
  have hreading := readError?_message f
  rw [hf, readError?_message e] at hreading
  simpa only [LineError.reading, Option.some.injEq, Reading.mk.injEq, eq_comm] using hreading

/-- Codes that look like the report itself, with blanks, a carriage return and a character that
takes two bytes. -/
theorem report_reads_back_of_words :
    let source := "1]: memory has no ` - `\n1\n` is not an 8 bit binary number#\r\n0\ré`"
    let errors : List LineError :=
      [⟨1, "1]: memory has no ` - `".toList, .invalidNumber 2⟩,
        ⟨3, "` is not an 8 bit binary number".toList, .invalidNumber 2⟩,
        ⟨4, "0\ré`".toList, .invalidNumber 2⟩]
    parse .zero source.toList = .error errors ∧
      ((LoadError.invalid errors).message.toList.splitOn '\n').length = 4 ∧
      ∀ e ∈ errors, readError? e.message.toList = some ⟨e.line, .invalidNumber 2, some e.code⟩ := by
  intro source errors
  have hparse : parse .zero source.toList = .error errors := by decide +kernel
  obtain ⟨hsplit, ls, -, hread⟩ := report_reads_back hparse
  refine ⟨hparse, by rw [hsplit]; rfl, fun e he => ?_⟩
  obtain ⟨-, hreading, -, -, ⟨hproblem, hquoted⟩ | ⟨hproblem, -⟩⟩ := hread e he
  · rw [hreading, hproblem, hquoted]
  · have hnumber : ∀ e ∈ errors, e.problem = .invalidNumber 2 := by decide
    rw [hnumber e he] at hproblem
    cases hproblem

end ByteMachine.ObjectFile
