import CiPipelines.Text.Lines
import CiPipelines.Yaml.Character
import Mathlib.Data.Bool.Basic

/-!
# Ordinary text

Ordinary text consists of tabs, line feeds and printing characters.  Of the characters that YAML
treats in a special way wherever they stand it may hold the line feed only: no other line break,
no control character but the tab, and no byte order mark.
-/

namespace CiPipelines
namespace Text

/-- A tab, a line feed, or a printing character that is neither a separator of lines or paragraphs
nor a byte order mark. -/
def isOrdinary (c : Char) : Bool :=
  let n := c.toNat
  (n == 0x09 || n == 0x0A || (0x20 ≤ n && n ≤ 0x7E) || (0xA0 ≤ n && n ≤ 0xD7FF)
    || (0xE000 ≤ n && n ≤ 0xFFFD) || 0x10000 ≤ n)
  && !(n == 0x2028 || n == 0x2029 || n == 0xFEFF)

/-- A text of ordinary characters. -/
def OrdinaryChars (text : List Char) : Prop := ∀ c ∈ text, isOrdinary c = true

instance : DecidablePred OrdinaryChars := fun text =>
  decidable_of_iff (text.all isOrdinary = true) List.all_eq_true

/-- Ordinary text that a literal block can end with: more than a line feed alone, and at most one
line feed at the end. -/
structure Ordinary (s : String) : Prop where
  chars : OrdinaryChars s.toList
  ne_lineFeed : s.toList ≠ ['\n']
  not_two_lineFeeds : ¬ ['\n', '\n'] <:+ s.toList

instance (s : String) : Decidable (Ordinary s) :=
  decidable_of_iff (s.toList.all isOrdinary = true ∧ s.toList ≠ ['\n'] ∧
    ¬ ['\n', '\n'] <:+ s.toList)
    ⟨fun h => ⟨List.all_eq_true.1 h.1, h.2.1, h.2.2⟩,
      fun h => ⟨List.all_eq_true.2 h.chars, h.ne_lineFeed, h.not_two_lineFeeds⟩⟩

theorem beq_eq_toNat_beq (c d : Char) : (c == d) = (c.toNat == d.toNat) := by
  rw [Bool.eq_iff_iff, beq_iff_eq, beq_iff_eq, Char.toNat_inj]

/-- The line feed is the only line break of ordinary text. -/
theorem isBreak_of_isOrdinary {c : Char} (h : isOrdinary c = true) :
    Yaml.isBreak c = (c == '\n') := by
  simp only [isOrdinary, Yaml.isBreak, beq_eq_toNat_beq] at *
  simp at *
  grind

theorem isBreak_or_eq_lineFeed {text : List Char} (h : OrdinaryChars text) :
    ∀ c ∈ text, Yaml.isBreak c = false ∨ c = '\n' := by
  intro c hc
  have hbreak := isBreak_of_isOrdinary (h c hc)
  cases hc : c == '\n' with
  | false => exact .inl (hbreak.trans hc)
  | true => exact .inr (beq_iff_eq.1 hc)

theorem isPermitted_of_isOrdinary {c : Char} (h : isOrdinary c = true) :
    Yaml.isPermitted c = true := by
  simp only [isOrdinary, Yaml.isPermitted] at *
  grind

theorem ne_byteOrderMark_of_isOrdinary {c : Char} (h : isOrdinary c = true) : c ≠ '\ufeff' := by
  rintro rfl
  simp [isOrdinary] at h

/-! ## Letters and digits -/

theorem isUpper_iff {c : Char} : c.isUpper = true ↔ 65 ≤ c.toNat ∧ c.toNat ≤ 90 := by
  show decide (c.val ≥ 65 ∧ c.val ≤ 90) = true ↔ _
  rw [decide_eq_true_eq]
  exact and_congr UInt32.le_iff_toNat_le UInt32.le_iff_toNat_le

theorem isLower_iff {c : Char} : c.isLower = true ↔ 97 ≤ c.toNat ∧ c.toNat ≤ 122 := by
  show (decide (c.val ≥ 97) && decide (c.val ≤ 122)) = true ↔ _
  rw [Bool.and_eq_true, decide_eq_true_eq, decide_eq_true_eq]
  exact and_congr UInt32.le_iff_toNat_le UInt32.le_iff_toNat_le

theorem isDigit_iff {c : Char} : c.isDigit = true ↔ 48 ≤ c.toNat ∧ c.toNat ≤ 57 := by
  show (decide (c.val ≥ 48) && decide (c.val ≤ 57)) = true ↔ _
  rw [Bool.and_eq_true, decide_eq_true_eq, decide_eq_true_eq]
  exact and_congr UInt32.le_iff_toNat_le UInt32.le_iff_toNat_le

theorem isAlphanum_iff {c : Char} : c.isAlphanum = true ↔
    (65 ≤ c.toNat ∧ c.toNat ≤ 90 ∨ 97 ≤ c.toNat ∧ c.toNat ≤ 122) ∨
      48 ≤ c.toNat ∧ c.toNat ≤ 57 := by
  show ((c.isUpper || c.isLower) || c.isDigit) = true ↔ _
  rw [Bool.or_eq_true, Bool.or_eq_true, isUpper_iff, isLower_iff, isDigit_iff]

/-- Letters in upper case have their lower case 32 places further. -/
theorem toNat_toLower (c : Char) :
    c.toLower.toNat = if 65 ≤ c.toNat ∧ c.toNat ≤ 90 then c.toNat + 32 else c.toNat := by
  unfold Char.toLower
  have hupper : (c.val ≥ 'A'.val ∧ c.val ≤ 'Z'.val) ↔ 65 ≤ c.toNat ∧ c.toNat ≤ 90 :=
    and_congr UInt32.le_iff_toNat_le UInt32.le_iff_toNat_le
  by_cases h : 65 ≤ c.toNat ∧ c.toNat ≤ 90
  · rw [dif_pos (hupper.2 h), if_pos h]
    show (c.val + 32).toNat = c.val.toNat + 32
    rw [UInt32.toNat_add]
    have hval : c.val.toNat ≤ 90 := h.2
    have hsmall : c.val.toNat + 32 < 2 ^ 32 := by omega
    exact Nat.mod_eq_of_lt hsmall
  · rw [dif_neg (fun hval => h (hupper.1 hval)), if_neg h]

/-! ## Longer texts -/

theorem OrdinaryChars.append {a b : List Char} (ha : OrdinaryChars a) (hb : OrdinaryChars b) :
    OrdinaryChars (a ++ b) := by
  intro c hc
  rcases List.mem_append.1 hc with hc | hc
  · exact ha c hc
  · exact hb c hc

theorem getLast?_of_suffix {a : List Char} {c : Char} {text : List Char} (h : a ++ [c] <:+ text) :
    text.getLast? = some c := by
  obtain ⟨before, rfl⟩ := h
  rw [← List.append_assoc, List.getLast?_concat]

/-- Ordinary characters that do not end with a line feed are ordinary text. -/
theorem ordinary_of_getLast? {s : String} (hchars : OrdinaryChars s.toList)
    (hend : s.toList.getLast? ≠ some '\n') : Ordinary s := by
  refine ⟨hchars, fun heq => hend ?_, fun hsuffix => hend ?_⟩
  · rw [heq]
    rfl
  · exact @getLast?_of_suffix ['\n'] '\n' s.toList hsuffix

/-- Ordinary text after a text that does not end with a line feed. -/
theorem Ordinary.append_left {before s : String} (h : Ordinary s)
    (hchars : OrdinaryChars before.toList) (hend : before.toList.getLast? ≠ some '\n') :
    Ordinary (before ++ s) := by
  have hall : OrdinaryChars (before ++ s).toList := by
    rw [String.toList_append]
    exact hchars.append h.chars
  by_cases hlast : s.toList.getLast? = some '\n'
  · -- The text holds more than its last line feed, so what stands before it does not matter.
    obtain ⟨init, hinit⟩ := List.getLast?_eq_some_iff.1 hlast
    have hne : init ≠ [] := by
      rintro rfl
      exact h.ne_lineFeed hinit
    obtain ⟨first, c, rfl⟩ := List.eq_nil_or_concat init |>.resolve_left hne
    refine ⟨hall, fun heq => ?_, fun hsuffix => h.not_two_lineFeeds ?_⟩
    · rw [String.toList_append, hinit] at heq
      have hlength := congrArg List.length heq
      simp at hlength
      omega
    · rw [String.toList_append] at hsuffix
      refine List.suffix_of_suffix_length_le hsuffix (List.suffix_append _ _) ?_
      rw [hinit]
      simp
  · refine ordinary_of_getLast? hall ?_
    rw [String.toList_append, List.getLast?_append]
    cases hs : s.toList.getLast? with
    | none => simpa using hend
    | some c => simpa [hs] using hlast

end Text
end CiPipelines
