/-
Which records are shown.

A threshold shows the records of some levels, and a setting names a threshold by a word.  Both are
written out here as they are to be, without the ranks and the scan by which the program finds them:

* `Threshold.levels` — the levels that are shown at a threshold, with `Threshold.admits_iff`;
* `CommandLine.Sets` — the threshold that a setting stands for, with `CommandLine.sets_iff`.

The words may be written in letters of either case, and a setting that is no such word counts as
none: warnings and errors are shown then.
-/
import ByteMachine.CommandLine
import Mathlib.Data.List.Forall2

namespace ByteMachine

namespace Threshold

/-- The levels that are shown at a threshold, the most severe first. -/
def levels : Threshold → List Level
  | off => []
  | upTo .error => [.error]
  | upTo .warn => [.error, .warn]
  | upTo .info => [.error, .warn, .info]
  | upTo .debug => [.error, .warn, .info, .debug]
  | upTo .trace => [.error, .warn, .info, .debug, .trace]

/-- The word for a threshold, in small letters. -/
def word : Threshold → String
  | off => "off"
  | upTo .error => "error"
  | upTo .warn => "warn"
  | upTo .info => "info"
  | upTo .debug => "debug"
  | upTo .trace => "trace"

theorem admits_iff {t : Threshold} {level : Level} : t.admits level = true ↔ level ∈ t.levels := by
  rcases t with _ | _ | _ | _ | _ | _ <;> cases level <;> decide

theorem select_eq_filter (t : Threshold) (records : List Record) :
    t.select records = records.filter fun r => r.level ∈ t.levels := by
  refine List.filter_congr fun r _ => ?_
  rw [Bool.eq_iff_iff, admits_iff, decide_eq_true_iff]

end Threshold

/-- A text is a word, but for letters that may be capital. -/
def Spelled (word text : String) : Prop :=
  List.Forall₂ (fun c d => d = c ∨ d = c.toUpper) word.toList text.toList

theorem toNat_toUpper (c : Char) : c.toUpper.toNat =
    if 97 ≤ c.toNat ∧ c.toNat ≤ 122 then c.toNat - 32 else c.toNat := by
  have hrange : 'a'.val ≤ c.val ∧ c.val ≤ 'z'.val ↔ 97 ≤ c.toNat ∧ c.toNat ≤ 122 := by
    simp only [UInt32.le_iff_toNat_le]
    rfl
  unfold Char.toUpper
  split
  · next h =>
    have hc := hrange.1 h
    -- The distance to the capital letter is added, and the sum wraps.
    have hsum : (c.val + ('A'.val - 'a'.val)).toNat = (c.toNat + 0xFFFFFFE0) % 0x100000000 :=
      UInt32.toNat_add ..
    rw [if_pos hc]
    refine hsum.trans ?_
    omega
  · next h => rw [if_neg (mt hrange.2 h)]

/-- A small letter has the capital of no letter but itself and its capital. -/
theorem toUpper_eq_toUpper_iff {c d : Char} (hc : c.isLower = true) :
    c.toUpper = d.toUpper ↔ d = c ∨ d = c.toUpper := by
  have hlower : 97 ≤ c.toNat ∧ c.toNat ≤ 122 := by
    obtain ⟨ha, hz⟩ := Bool.and_eq_true_iff.1 hc
    exact ⟨UInt32.le_iff_toNat_le.1 (of_decide_eq_true ha),
      UInt32.le_iff_toNat_le.1 (of_decide_eq_true hz)⟩
  simp only [← Char.toNat_inj, toNat_toUpper, if_pos hlower]
  split <;> omega

theorem forall₂_iff_map_toUpper {cs ds : List Char} (h : ∀ c ∈ cs, c.isLower = true) :
    List.Forall₂ (fun c d => d = c ∨ d = c.toUpper) cs ds ↔
      cs.map Char.toUpper = ds.map Char.toUpper := by
  induction cs generalizing ds with
  | nil => simp
  | cons c cs ih =>
    obtain ⟨hc, hcs⟩ := List.forall_mem_cons.1 h
    cases ds with
    | nil => simp
    | cons d ds =>
      rw [List.forall₂_cons, ih hcs, ← toUpper_eq_toUpper_iff hc, List.map_cons, List.map_cons,
        List.cons.injEq]

namespace Threshold

theorem spelled_word_iff {t : Threshold} {text : String} :
    Spelled t.word text ↔ t.name.toList = text.toList.map Char.toUpper := by
  have hlower : t.word.toList.all Char.isLower = true := by
    rcases t with _ | _ | _ | _ | _ | _ <;> decide
  have hname : t.name.toList = t.word.toList.map Char.toUpper := by
    rcases t with _ | _ | _ | _ | _ | _ <;> decide
  rw [Spelled, forall₂_iff_map_toUpper (List.all_eq_true.1 hlower), hname]

/-- A text names the threshold of whose word it is a spelling. -/
theorem ofName?_eq_some_iff {t : Threshold} {text : String} :
    ofName? text = some t ↔ Spelled t.word text := by
  rw [spelled_word_iff]
  constructor
  · intro h
    simpa using List.find?_some h
  · intro h
    -- Only the capital letters of a text count.
    have hcapital : t.name.toList.map Char.toUpper = t.name.toList := by
      rcases t with _ | _ | _ | _ | _ | _ <;> decide
    rw [← ofName?_name t, ofName?, ofName?, ← h, hcapital]

end Threshold

namespace CommandLine

/-- The threshold that a setting stands for. -/
inductive Sets : Option String → Threshold → Prop
  | named {text : String} {t : Threshold} (h : Spelled t.word text) : Sets (some text) t
  | unknown {text : String} (h : ∀ t : Threshold, ¬ Spelled t.word text) :
      Sets (some text) (.upTo .warn)
  | none : Sets none (.upTo .warn)

/-- A setting stands for one threshold, and that is the one the command takes. -/
theorem sets_iff {setting : Option String} {t : Threshold} :
    Sets setting t ↔ t = threshold setting := by
  cases setting with
  | none =>
    constructor
    · rintro ⟨⟩
      rfl
    · rintro rfl
      exact .none
  | some text =>
    rw [threshold, Option.bind_some]
    cases hname : Threshold.ofName? text with
    | none =>
      have hunknown : ∀ u : Threshold, ¬ Spelled u.word text := by
        intro u hu
        cases hname.symm.trans (Threshold.ofName?_eq_some_iff.2 hu)
      constructor
      · rintro (h | _)
        · exact absurd h (hunknown t)
        · rfl
      · rintro rfl
        exact .unknown hunknown
    | some u =>
      have hu := Threshold.ofName?_eq_some_iff.1 hname
      constructor
      · rintro (h | h)
        · rw [← Threshold.ofName?_eq_some_iff, hname] at h
          exact (Option.some.inj h).symm
        · exact absurd hu (h u)
      · rintro rfl
        exact .named hu

end CommandLine

end ByteMachine
