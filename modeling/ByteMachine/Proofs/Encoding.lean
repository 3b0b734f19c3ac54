/-
The encoding of files.

A file is a list of bytes, and its text is encoded in UTF-8.  Which lists of bytes are texts, and
which text one is, is told here by relations that name neither a decoder nor its order:

* `Sequence` — the sequences of bytes that stand for one character, with the number of that
  character.  Neither a form longer than needed nor a surrogate is among them;
* `WellFormed`, `Decodes` — a list of bytes that is made of such sequences, and the text that it
  stands for;
* `fromUTF8?_eq_some_iff`, `fromUTF8?_eq_none_iff` — the decoder accepts exactly the well-formed
  lists, and gives their text;
* `load_decodes_text` — loading a file is parsing the text that its bytes stand for.

Blanks and codes are told by characters, so that nothing about the bytes remains once the text is
there.
-/
import ByteMachine.Proofs.Parsing

namespace ByteMachine

namespace Text

/-- A byte that continues a sequence. -/
def Continues (b : Byte) : Prop := 0x80 ≤ b.toNat ∧ b.toNat ≤ 0xBF

/-- The sequences of bytes of the characters, and the numbers of these.  The second byte is bounded
where the sequence would be longer than needed, a surrogate, or above the last character. -/
inductive Sequence : List Byte → Nat → Prop
  | one {a : Byte} (ha : a.toNat ≤ 0x7F) : Sequence [a] a.toNat
  | two {a b : Byte} (ha : 0xC2 ≤ a.toNat ∧ a.toNat ≤ 0xDF) (hb : Continues b) :
      Sequence [a, b] (0x40 * (a.toNat - 0xC0) + (b.toNat - 0x80))
  | three {a b c : Byte} (ha : 0xE0 ≤ a.toNat ∧ a.toNat ≤ 0xEF) (hb : Continues b)
      (hc : Continues c) (hlong : a.toNat = 0xE0 → 0xA0 ≤ b.toNat)
      (hsurrogate : a.toNat = 0xED → b.toNat ≤ 0x9F) :
      Sequence [a, b, c]
        (0x1000 * (a.toNat - 0xE0) + 0x40 * (b.toNat - 0x80) + (c.toNat - 0x80))
  | four {a b c d : Byte} (ha : 0xF0 ≤ a.toNat ∧ a.toNat ≤ 0xF4) (hb : Continues b)
      (hc : Continues c) (hd : Continues d) (hlong : a.toNat = 0xF0 → 0x90 ≤ b.toNat)
      (hlast : a.toNat = 0xF4 → b.toNat ≤ 0x8F) :
      Sequence [a, b, c, d]
        (0x40000 * (a.toNat - 0xF0) + 0x1000 * (b.toNat - 0x80) + 0x40 * (c.toNat - 0x80) +
          (d.toNat - 0x80))

/-- A list of bytes that is a sequence of characters. -/
inductive WellFormed : List Byte → Prop
  | nil : WellFormed []
  | append {bs rest : List Byte} {n : Nat} (hbs : Sequence bs n) (hrest : WellFormed rest) :
      WellFormed (bs ++ rest)

/-- The text that a list of bytes stands for. -/
inductive Decodes : List Byte → List Char → Prop
  | nil : Decodes [] []
  | cons {bs rest : List Byte} {c : Char} {text : List Char} (hbs : Sequence bs c.toNat)
      (hrest : Decodes rest text) : Decodes (bs ++ rest) (c :: text)

/-- The numbers of sequences are those of characters. -/
theorem Sequence.isValidChar {bs : List Byte} {n : Nat} (h : Sequence bs n) : n.isValidChar := by
  cases h with
  | one ha => exact .inl (by omega)
  | two ha hb =>
    unfold Continues at hb
    exact .inl (by omega)
  | three ha hb hc hlong hsurrogate =>
    unfold Continues at hb hc
    unfold Nat.isValidChar
    omega
  | four ha hb hc hd hlong hlast =>
    unfold Continues at hb hc hd
    exact .inr (by omega)

theorem ofNat_eq_of_eq {n : Nat} {b : Byte} (h : n = b.toNat) : UInt8.ofNat n = b := by
  rw [h, UInt8.ofNat_toNat]

/-- A character is encoded by its sequence.  The bounds of the second byte keep the number of a
sequence in the range for which the encoder takes as many bytes. -/
theorem Sequence.utf8EncodeChar_eq {bs : List Byte} {c : Char} (h : Sequence bs c.toNat) :
    String.utf8EncodeChar c = bs := by
  have hval : c.val.toNat = c.toNat := rfl
  rw [String.utf8EncodeChar, hval]
  generalize c.toNat = n at h ⊢
  cases h with
  | one ha =>
    rw [if_pos ha, UInt8.ofNat_toNat]
  | two ha hb =>
    unfold Continues at hb
    rw [if_neg (by omega), if_pos (by omega), ofNat_eq_of_eq, ofNat_eq_of_eq]
    · omega
    · omega
  | three ha hb hc hlong hsurrogate =>
    unfold Continues at hb hc
    rw [if_neg (by omega), if_neg (by omega), if_pos (by omega), ofNat_eq_of_eq, ofNat_eq_of_eq,
      ofNat_eq_of_eq]
    · omega
    · omega
    · omega
  | four ha hb hc hd hlong hlast =>
    unfold Continues at hb hc hd
    rw [if_neg (by omega), if_neg (by omega), if_neg (by omega), ofNat_eq_of_eq, ofNat_eq_of_eq,
      ofNat_eq_of_eq, ofNat_eq_of_eq]
    · omega
    · omega
    · omega
    · omega

theorem Sequence.of_eq {bs : List Byte} {n k : Nat} (h : Sequence bs k) (hk : k = n) :
    Sequence bs n := hk ▸ h

/-- What encodes a character is a sequence. -/
theorem sequence_utf8EncodeChar (c : Char) : Sequence (String.utf8EncodeChar c) c.toNat := by
  have hval : c.val.toNat = c.toNat := rfl
  have hvalid : c.toNat < 0xD800 ∨ 0xDFFF < c.toNat ∧ c.toNat < 0x110000 := c.valid
  have hbyte : ∀ k < 256, (UInt8.ofNat k).toNat = k := fun k hk => UInt8.toNat_ofNat_of_lt hk
  rw [String.utf8EncodeChar, hval]
  generalize c.toNat = n at hvalid ⊢
  -- One case for each number of bytes.  That no surrogate is a character is needed for three.
  split
  · refine .of_eq (.one ?_) ?_ <;> simp (disch := omega) only [hbyte]
    omega
  split
  · refine .of_eq (.two ?_ ?_) ?_ <;> simp (disch := omega) only [Continues, hbyte] <;> omega
  split
  · refine .of_eq (.three ?_ ?_ ?_ ?_ ?_) ?_ <;> simp (disch := omega) only [Continues, hbyte] <;>
      omega
  · refine .of_eq (.four ?_ ?_ ?_ ?_ ?_ ?_) ?_ <;>
      simp (disch := omega) only [Continues, hbyte] <;> omega

theorem sequence_iff {bs : List Byte} {c : Char} :
    Sequence bs c.toNat ↔ String.utf8EncodeChar c = bs :=
  ⟨Sequence.utf8EncodeChar_eq, fun h => h ▸ sequence_utf8EncodeChar c⟩

theorem decodes_iff {bytes : List Byte} {text : List Char} :
    Decodes bytes text ↔ text.flatMap String.utf8EncodeChar = bytes := by
  constructor
  · intro h
    induction h with
    | nil => rfl
    | cons hbs _ ih => rw [List.flatMap_cons, sequence_iff.1 hbs, ih]
  · rintro rfl
    induction text with
    | nil => exact .nil
    | cons c text ih => exact .cons (sequence_utf8EncodeChar c) ih

/-- The well-formed lists are those that stand for a text. -/
theorem wellFormed_iff {bytes : List Byte} : WellFormed bytes ↔ ∃ text, Decodes bytes text := by
  constructor
  · intro h
    induction h with
    | nil => exact ⟨[], .nil⟩
    | append hbs _ ih =>
      obtain ⟨text, htext⟩ := ih
      exact ⟨Char.ofNatAux _ hbs.isValidChar :: text, .cons hbs htext⟩
  · rintro ⟨text, h⟩
    induction h with
    | nil => exact .nil
    | cons hbs _ ih => exact .append hbs ih

/-- Bytes stand for the text that they encode. -/
theorem decodes_iff_toByteArray_eq {file : ByteArray} {text : String} :
    Decodes file.data.toList text.toList ↔ text.toByteArray = file := by
  have hencode : text.toByteArray = (text.toList.flatMap String.utf8EncodeChar).toByteArray := by
    rw [← List.utf8Encode, ← String.toByteArray_ofList, String.ofList_toList]
  rw [decodes_iff, hencode, ByteArray.ext_iff, ← Array.toList_inj, List.toList_data_toByteArray]

/-- No list of bytes stands for two texts. -/
theorem Decodes.eq {bytes : List Byte} {text other : List Char} (h : Decodes bytes text)
    (hother : Decodes bytes other) : other = text := by
  rw [← String.toList_ofList (l := text), ← List.toList_data_toByteArray (l := bytes),
    decodes_iff_toByteArray_eq] at h
  rw [← String.toList_ofList (l := other), ← List.toList_data_toByteArray (l := bytes),
    decodes_iff_toByteArray_eq, ← h, String.toByteArray_inj] at hother
  exact String.ofList_injective hother

theorem fromUTF8?_eq_some_iff {file : ByteArray} {text : String} :
    String.fromUTF8? file = some text ↔ Decodes file.data.toList text.toList := by
  rw [decodes_iff_toByteArray_eq, String.fromUTF8?]
  constructor
  · intro h
    split at h
    · cases h
      rfl
    · cases h
  · rintro rfl
    exact dif_pos text.isValidUTF8

theorem fromUTF8?_eq_none_iff {file : ByteArray} :
    String.fromUTF8? file = none ↔ ¬ WellFormed file.data.toList := by
  rw [wellFormed_iff, Option.eq_none_iff_forall_ne_some, not_exists]
  constructor
  · intro h text htext
    refine h (String.ofList text) (fromUTF8?_eq_some_iff.2 ?_)
    rwa [String.toList_ofList]
  · intro h text htext
    exact h text.toList (fromUTF8?_eq_some_iff.1 htext)

instance (bytes : List Byte) : Decidable (WellFormed bytes) :=
  decidable_of_iff (String.fromUTF8? bytes.toByteArray ≠ none) <| by
    rw [Ne, fromUTF8?_eq_none_iff, not_not, List.toList_data_toByteArray]

/-- A slash in two bytes, a surrogate, and a number above that of the last character. -/
example : ¬ WellFormed [0xC0, 0xAF] ∧ ¬ WellFormed [0xED, 0xA0, 0x80] ∧
    ¬ WellFormed [0xF4, 0x90, 0x80, 0x80] := by decide

end Text

namespace ObjectFile

open Text

variable {file : ByteArray}

theorem load_of_decodes {text : List Char} (h : Decodes file.data.toList text) :
    load (.ok file) = (parse .zero text).mapError .invalid := by
  have hread : String.fromUTF8? file = some (String.ofList text) := by
    rw [fromUTF8?_eq_some_iff, String.toList_ofList]
    exact h
  simp only [load, loadBytes, hread, String.toList_ofList]

theorem load_of_not_wellFormed (h : ¬ WellFormed file.data.toList) :
    load (.ok file) = .error (.unreadable .notText) := by
  simp only [load, loadBytes, fromUTF8?_eq_none_iff.2 h]

/-- A file that is the encoding of a text is loaded as this text. -/
theorem load_toUTF8 (text : String) :
    load (.ok text.toUTF8) = (parse .zero text.toList).mapError .invalid :=
  load_of_decodes (decodes_iff_toByteArray_eq.2 rfl)

theorem mapError_eq_ok_iff {ε ε' α : Type} {f : ε → ε'} {r : Except ε α} {a : α} :
    r.mapError f = .ok a ↔ r = .ok a := by
  cases r <;> simp [Except.mapError]

/-- What is loaded is made of all the codes of the text. -/
theorem load_eq_ok_iff {p : Program} : load (.ok file) = .ok p ↔ ∃ text texts bs,
    Decodes file.data.toList text ∧ HasCodes text texts ∧ List.Forall₂ Numeral texts bs ∧
      bs.length ≤ 256 ∧ p = ⟨Memory.zero.writeAll 0 bs, bs.length⟩ := by
  constructor
  · intro h
    by_cases hformed : WellFormed file.data.toList
    · obtain ⟨text, htext⟩ := wellFormed_iff.1 hformed
      rw [load_of_decodes htext, mapError_eq_ok_iff, parse_eq_ok_iff] at h
      obtain ⟨texts, bs, hprogram⟩ := h
      exact ⟨text, texts, bs, htext, hprogram⟩
    · rw [load_of_not_wellFormed hformed] at h
      cases h
  · rintro ⟨text, texts, bs, htext, hprogram⟩
    rw [load_of_decodes htext, mapError_eq_ok_iff, parse_eq_ok_iff]
    exact ⟨texts, bs, hprogram⟩

/-- **A file is loaded as the text that its bytes stand for.**  A file whose bytes are not
well-formed cannot be read, and the fault is one of invalid data.  Otherwise its bytes stand for
one text, and what comes of the file is what comes of this text over an empty memory: the same
program, or the same faulty lines.  The bytes that encode a text stand for this text.  A file is
loaded only as a whole: whenever there is a program, it is made of all the codes of the text, and
nothing else is in memory. -/
theorem load_decodes_text (file : ByteArray) :
    (¬ WellFormed file.data.toList → ∃ fault,
        fault.kind = .invalidData ∧ load (.ok file) = .error (.unreadable fault)) ∧
      (WellFormed file.data.toList → ∃ text,
        (∀ other, Decodes file.data.toList other ↔ other = text) ∧
          load (.ok file) = (parse .zero text).mapError .invalid) ∧
      (∀ s : String, file = s.toUTF8 → Decodes file.data.toList s.toList ∧
        load (.ok file) = (parse .zero s.toList).mapError .invalid) ∧
      ∀ p, load (.ok file) = .ok p ↔ ∃ text texts bs,
        Decodes file.data.toList text ∧ HasCodes text texts ∧ List.Forall₂ Numeral texts bs ∧
          bs.length ≤ 256 ∧ p = ⟨Memory.zero.writeAll 0 bs, bs.length⟩ := by
  refine ⟨fun h => ⟨.notText, rfl, load_of_not_wellFormed h⟩, fun h => ?_, ?_,
    fun p => load_eq_ok_iff⟩
  · obtain ⟨text, htext⟩ := wellFormed_iff.1 h
    exact ⟨text, fun other => ⟨htext.eq, fun hother => hother ▸ htext⟩, load_of_decodes htext⟩
  · rintro s rfl
    exact ⟨decodes_iff_toByteArray_eq.2 rfl, load_toUTF8 s⟩

/-- A file that ends within a sequence, and one with blanks of two and three bytes around a code. -/
theorem load_decodes_text_truncated :
    (∃ fault, fault.kind = .invalidData ∧
      load (.ok ⟨#[0x31, 0x0A, 0xE2, 0x80]⟩) = .error (.unreadable fault)) ∧
    load (.ok "\u2003101\u00A0# é".toUTF8) = .ok ⟨Memory.zero.write 0 5, 1⟩ := by
  have htruncated : ¬ WellFormed [0x31, 0x0A, 0xE2, 0x80] := by decide
  refine ⟨(load_decodes_text _).1 htruncated, ?_⟩
  obtain ⟨-, -, htext, -⟩ := load_decodes_text "\u2003101\u00A0# é".toUTF8
  rw [(htext _ rfl).2]
  rfl

end ObjectFile

end ByteMachine
