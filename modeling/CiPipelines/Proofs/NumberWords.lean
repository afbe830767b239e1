import CiPipelines.Model.Node
import CiPipelines.Proofs.PlainScalars
import CiPipelines.Proofs.OrdinaryText
import CiPipelines.Proofs.ShortestDigits

/-!
# Words for numbers and truth values

A plain scalar that denotes a number or a truth value is printed anew, and the text of the scalar is
lost.  Such a word consists of letters, digits, signs and points, so that it can stand as a plain
scalar wherever a text can.  Of the words for truth values `true` and `false` are printed as they
stand, and of those for integers the ones in decimal without a plus sign, other than `-0`.  A word
with a capital letter or a plus sign is never printed as it stands.  Neither is a real number without
an exponent that ends in a zero behind another digit, such as the version `3.10`.
-/

namespace CiPipelines
namespace Yaml

/-- How a word denotes a number or a truth value. -/
inductive Denotes (w : String) : Value → Prop
  | truth {b : Bool} (h : Value.bool? w = some b) : Denotes w (.bool b)
  | integer {n : Int} (h : integer? w.toList = some n) : Denotes w (.integer n)
  | real {x : Real} (h : real? w.toList = some x) : Denotes w (.real x)

/-- Whether a value is a number or a truth value. -/
def Value.isNumberOrTruth : Value → Bool
  | .bool _ | .integer _ | .real _ => true
  | _ => false

theorem denotes_of_integer? {w : String} {v : Value} (h : (Value.integer? w).join = some v) :
    Denotes w v := by
  unfold Value.integer? at h
  split at h
  · cases h
  · rename_i n hn
    split at h
    · exact Option.some.inj h ▸ .integer hn
    · cases h
    · cases h

/-- A plain scalar that is read as a number or a truth value denotes it. -/
theorem denotes_of_ofPlain? {w : String} {v : Value} (h : Value.ofPlain? w = some v)
    (hv : v.isNumberOrTruth = true) : Denotes w v := by
  have htext : ∀ {s : String}, some (Value.text s) = some v → False := by
    rintro s heq
    obtain rfl := Option.some.inj heq
    cases hv
  unfold Value.ofPlain? at h
  split at h
  · obtain rfl := Option.some.inj h
    cases hv
  split at h
  · rename_i b hbool
    exact Option.some.inj h ▸ .truth hbool
  split at h
  · rename_i result hinteger
    exact denotes_of_integer? (by rw [hinteger]; exact h)
  split at h
  · exact (htext h).elim
  split at h
  · rename_i x hx
    exact Option.some.inj h ▸ .real hx
  · exact (htext h).elim

/-! ## The characters of a word -/

/-- A letter, a digit, a sign or a point. -/
def isWordMark (c : Char) : Bool := c.isAlphanum || c == '+' || c == '-' || c == '.'

/-- A text of such characters. -/
def WordMarks (text : List Char) : Prop := ∀ c ∈ text, isWordMark c = true

theorem isWordMark_iff {c : Char} : isWordMark c = true ↔
    ((((65 ≤ c.toNat ∧ c.toNat ≤ 90 ∨ 97 ≤ c.toNat ∧ c.toNat ≤ 122) ∨
      48 ≤ c.toNat ∧ c.toNat ≤ 57) ∨ c.toNat = 43) ∨ c.toNat = 45) ∨ c.toNat = 46 := by
  rw [isWordMark, Bool.or_eq_true, Bool.or_eq_true, Bool.or_eq_true, Text.isAlphanum_iff,
    Text.beq_eq_toNat_beq, Text.beq_eq_toNat_beq, Text.beq_eq_toNat_beq, beq_iff_eq, beq_iff_eq,
    beq_iff_eq]
  rfl

theorem isWordMark_of_isAlphanum {c : Char} (h : c.isAlphanum = true) : isWordMark c = true := by
  simp [isWordMark, h]

theorem isWordMark_of_isDigit {c : Char} (h : c.isDigit = true) : isWordMark c = true :=
  isWordMark_of_isAlphanum (by simp [Char.isAlphanum, h])

/-- Whether a text is made of word marks can be computed. -/
theorem wordMarks_of_all {text : List Char} (h : text.all isWordMark = true) : WordMarks text :=
  List.all_eq_true.1 h

theorem WordMarks.append {a b : List Char} (ha : WordMarks a) (hb : WordMarks b) :
    WordMarks (a ++ b) :=
  List.forall_mem_append.2 ⟨ha, hb⟩

theorem WordMarks.cons {c : Char} {text : List Char} (h : WordMarks text)
    (hc : isWordMark c = true) : WordMarks (c :: text) :=
  List.forall_mem_cons.2 ⟨hc, h⟩

/-- Word marks are ordinary text. -/
theorem WordMarks.ordinary {text : List Char} (h : WordMarks text) : Text.OrdinaryChars text := by
  intro c hc
  have hmark := isWordMark_iff.1 (h c hc)
  simp [Text.isOrdinary]
  omega

/-- Word marks can stand as a plain scalar, unless they are a dash alone or a document mark. -/
theorem WordMarks.isPlainText {text : List Char} (h : WordMarks text) (hne : text ≠ [])
    (hdash : text ≠ ['-']) (hstart : text ≠ ['-', '-', '-']) (hend : text ≠ ['.', '.', '.']) :
    isPlainText text = true := by
  have hmark : ∀ c ∈ text, isBlank c = false ∧ isBreak c = false ∧ (c == '#') = false ∧
      (c == ':') = false := by
    intro c hc
    have hmark := isWordMark_iff.1 (h c hc)
    simp only [isBlank, isBreak, Text.beq_eq_toNat_beq]
    simp
    omega
  -- Word marks are neither blanks nor breaks, so only the end of the text counts as one.
  have hblank : ∀ rest, (∀ c ∈ rest, c ∈ text) → startsBlank rest = true → rest = [] := by
    intro rest hrest hblank
    cases rest with
    | nil => rfl
    | cons c rest =>
      obtain ⟨hc, hc', -⟩ := hmark c (hrest c (List.mem_cons_self ..))
      simp [startsBlank, hc, hc'] at hblank
  obtain ⟨c, rest, rfl⟩ := List.exists_cons_of_ne_nil hne
  rw [Yaml.isPlainText, Bool.and_eq_true, Bool.and_eq_true, Bool.not_eq_true', Bool.eq_false_iff]
  refine ⟨⟨?_, fun hdocument => ?_⟩, plainTail_of_forall false hmark⟩
  · unfold startsPlain
    split
    · rename_i hc
      rw [Bool.not_eq_true', Bool.eq_false_iff]
      intro hrest
      have hnil := hblank rest (fun d hd => List.mem_cons_of_mem _ hd) hrest
      have hfirst := h c (List.mem_cons_self ..)
      rw [Bool.or_eq_true, Bool.or_eq_true, beq_iff_eq, beq_iff_eq, beq_iff_eq] at hc
      rcases hc with (rfl | rfl) | rfl
      · exact hdash (by rw [hnil])
      · exact absurd hfirst (by decide)
      · exact absurd hfirst (by decide)
    · obtain ⟨hblank, hbreak, -, -⟩ := hmark c (List.mem_cons_self ..)
      have hindicator : "[]\x7b\x7d,*&!|>'\"#%@\x60".toList.contains c = false := by
        rw [Bool.eq_false_iff, Ne, List.contains_iff_mem]
        intro hmem
        have hnone : ("[]\x7b\x7d,*&!|>'\"#%@\x60".toList.all fun d => !isWordMark d) = true := by
          decide
        have hfirst := List.all_eq_true.1 hnone c hmem
        rw [h c (List.mem_cons_self ..)] at hfirst
        exact absurd hfirst (by decide)
      rw [hblank, hbreak, hindicator]
      rfl
  · obtain ⟨-, more, hmore, hdashes | hdots⟩ := (atDocumentMark_iff 0 _).1 hdocument
    · obtain rfl := hblank more (fun d hd => by simp [hdashes, hd]) hmore
      exact hstart hdashes
    · obtain rfl := hblank more (fun d hd => by simp [hdots, hd]) hmore
      exact hend hdots

/-! ## Digits -/

/-- The digit that a character is in base `radix`, and `radix` itself if it is none. -/
def digitValue (radix : Nat) (c : Char) : Nat :=
  if c.isDigit then c.toNat - '0'.toNat
  else if 'a' ≤ c && c ≤ 'z' then c.toNat - 'a'.toNat + 10
  else if 'A' ≤ c && c ≤ 'Z' then c.toNat - 'A'.toNat + 10
  else radix

/-- Reads one more digit. -/
def addDigit (radix n : Nat) (c : Char) : Option Nat :=
  if digitValue radix c < radix then some (radix * n + digitValue radix c) else none

theorem addDigit_eq_some_iff {radix n m : Nat} {c : Char} : addDigit radix n c = some m ↔
    digitValue radix c < radix ∧ radix * n + digitValue radix c = m := by
  unfold addDigit
  split
  · rename_i hlt
    rw [Option.some_inj, and_iff_right hlt]
  · rename_i hge
    exact iff_of_false nofun fun h => hge h.1

theorem natural?_eq (radix : Nat) (digits : List Char) : natural? radix digits =
    if digits.isEmpty then none else digits.foldlM (addDigit radix) 0 := rfl

theorem isAlphanum_of_digitValue_lt {radix : Nat} {c : Char} (h : digitValue radix c < radix) :
    c.isAlphanum = true := by
  have hrange : ∀ low high : Char, (decide (low ≤ c) && decide (c ≤ high)) = true →
      low.toNat ≤ c.toNat ∧ c.toNat ≤ high.toNat := by
    intro low high hrange
    rw [Bool.and_eq_true, decide_eq_true_eq, decide_eq_true_eq] at hrange
    exact ⟨UInt32.le_iff_toNat_le.1 hrange.1, UInt32.le_iff_toNat_le.1 hrange.2⟩
  rw [Text.isAlphanum_iff]
  unfold digitValue at h
  split at h
  · rename_i hdigit
    exact .inr (Text.isDigit_iff.1 hdigit)
  split at h
  · rename_i hlower
    exact .inl (.inr (hrange _ _ hlower))
  split at h
  · rename_i hupper
    exact .inl (.inl (hrange _ _ hupper))
  · exact absurd h (Nat.lt_irrefl _)

theorem isDigit_of_digitValue_lt {c : Char} (h : digitValue 10 c < 10) : c.isDigit = true := by
  unfold digitValue at h
  split at h
  · assumption
  · split at h
    · omega
    · split at h <;> omega

/-- What all characters satisfy that can be read in turn. -/
theorem forall_of_foldlM {α : Type} {step : α → Char → Option α} {p : Char → Prop}
    (hstep : ∀ a c b, step a c = some b → p c) {text : List Char} {a b : α}
    (h : text.foldlM step a = some b) : ∀ c ∈ text, p c := by
  induction text generalizing a with
  | nil => exact fun c hc => absurd hc List.not_mem_nil
  | cons d text ih =>
    rw [List.foldlM_cons] at h
    obtain ⟨next, hnext, hrest⟩ := Option.bind_eq_some_iff.1 h
    intro c hc
    rcases List.mem_cons.1 hc with rfl | hc
    · exact hstep _ _ _ hnext
    · exact ih hrest c hc

section

variable {radix n : Nat} {digits : List Char}

theorem digitValue_lt_of_natural? (h : natural? radix digits = some n) :
    ∀ c ∈ digits, digitValue radix c < radix := by
  rw [natural?_eq] at h
  split at h
  · cases h
  · refine forall_of_foldlM (fun a c b hadd => ?_) h
    exact (addDigit_eq_some_iff.1 hadd).1

theorem wordMarks_of_natural? (h : natural? radix digits = some n) : WordMarks digits :=
  fun c hc => isWordMark_of_isAlphanum
    (isAlphanum_of_digitValue_lt (digitValue_lt_of_natural? h c hc))

theorem isDigit_of_natural? (h : natural? 10 digits = some n) : ∀ c ∈ digits, c.isDigit = true :=
  fun c hc => isDigit_of_digitValue_lt (digitValue_lt_of_natural? h c hc)

end

/-! ## Numbers -/

/-- A sign and what follows it. -/
theorem splitSign_eq (text : List Char) : text = (splitSign text).1.toList ++ (splitSign text).2 ∧
    ((splitSign text).1 = none ∨ (splitSign text).1 = some '+' ∨
      (splitSign text).1 = some '-') := by
  fun_cases splitSign text <;> simp

/-- A text is made of word marks if it is behind its sign. -/
theorem wordMarks_of_splitSign {text : List Char} (h : WordMarks (splitSign text).2) :
    WordMarks text := by
  obtain ⟨heq, hsign⟩ := splitSign_eq text
  rw [heq]
  refine WordMarks.append ?_ h
  rcases hsign with hsign | hsign | hsign <;> rw [hsign] <;> exact wordMarks_of_all (by decide)

theorem wordMarks_of_magnitude? {digits : List Char} {n : Nat} (h : magnitude? digits = some n) :
    WordMarks digits := by
  have hbase : ∀ {radix : Nat} {c : Char} {rest : List Char}, isWordMark c = true →
      natural? radix rest = some n → WordMarks ('0' :: c :: rest) :=
    fun hc hrest => ((wordMarks_of_natural? hrest).cons hc).cons (by decide)
  unfold magnitude? at h
  split at h
  · exact hbase (by decide) h
  · exact hbase (by decide) h
  · exact hbase (by decide) h
  · exact wordMarks_of_natural? h

theorem exists_of_map_cast {x : Option Nat} {f : Int → Int} {n : Int}
    (h : ((do let m ← x; pure (m : Int)) : Option Int).map f = some n) :
    ∃ m : Nat, x = some m ∧ n = f m := by
  cases x with
  | none => cases h
  | some m => exact ⟨m, rfl, (Option.some.inj h).symm⟩

/-- An integer is its magnitude with its sign, and has no leading zero. -/
theorem exists_magnitude?_of_integer? {text : List Char} {n : Int} (h : integer? text = some n) :
    isPaddedDigits text = false ∧ ∃ m, magnitude? (splitSign text).2 = some m ∧
      n = if (splitSign text).1 = some '-' then -(m : Int) else m := by
  unfold integer? at h
  split at h
  · cases h
  · rename_i hpadded
    refine ⟨by simpa using hpadded, ?_⟩
    split at h
    · rename_i digits hsplit
      obtain ⟨m, hm, rfl⟩ := exists_of_map_cast h
      rw [hsplit]
      exact ⟨m, hm, rfl⟩
    · rename_i sign digits hsign hsplit
      obtain ⟨m, hm, rfl⟩ := exists_of_map_cast h
      rw [hsplit]
      exact ⟨m, hm, (if_neg hsign).symm⟩

/-- An exponent is made of word marks. -/
theorem wordMarks_of_exponent? {text : List Char} {e : Int} (h : exponent? text = some e) :
    WordMarks text := by
  unfold exponent? at h
  split at h
  · exact fun c hc => absurd hc List.not_mem_nil
  · rename_i c rest
    split at h
    · rename_i hletter
      have hc : isWordMark c = true := by
        rw [Bool.or_eq_true, beq_iff_eq, beq_iff_eq] at hletter
        rcases hletter with rfl | rfl <;> decide
      have hrest : WordMarks (splitSign rest).2 := by
        split at h <;>
        · rename_i hsplit
          obtain ⟨m, hm, -⟩ := exists_of_map_cast h
          rw [hsplit]
          exact wordMarks_of_natural? hm
      exact (wordMarks_of_splitSign hrest).cons hc
    · cases h

/-- A decimal is made of word marks. -/
theorem wordMarks_of_decimal? {text : List Char} {r : Nat × Int} (h : decimal? text = some r) :
    WordMarks text := by
  have hdigits : ∀ text : List Char, WordMarks (text.takeWhile Char.isDigit) :=
    fun text c hc => isWordMark_of_isDigit (List.all_eq_true.1 List.all_takeWhile c hc)
  -- The digits in front of the point, then either the point and what follows it or an exponent.
  have htext := List.prefix_iff_eq_append.1 (List.takeWhile_prefix (l := text) Char.isDigit)
  rw [← htext]
  unfold decimal? at h
  dsimp only at h
  simp only [Option.bind_eq_bind, Option.bind_eq_some_iff] at h
  obtain ⟨n, hn, e, he, hr⟩ := h
  refine (hdigits text).append ?_
  split at he
  · rename_i more hafter
    rw [hafter, ← List.takeWhile_append_dropWhile (p := Char.isDigit) (l := more)]
    exact ((hdigits more).append (wordMarks_of_exponent? he)).cons (by decide)
  · exact wordMarks_of_exponent? he

theorem wordMarks_of_real? {text : List Char} {x : Real} (h : real? text = some x) :
    WordMarks text := by
  have hwords : ∀ {words : List String}, (words.any (·.toList == text)) = true →
      (words.all fun w => w.toList.all isWordMark) = true → WordMarks text := by
    intro words hany hwords
    obtain ⟨w, hw, htext⟩ := List.any_eq_true.1 hany
    exact beq_iff_eq.1 htext ▸ wordMarks_of_all (List.all_eq_true.1 hwords w hw)
  unfold real? at h
  split at h
  · rename_i hany
    exact hwords hany (by decide)
  split at h
  · rename_i hany
    exact hwords hany (by decide)
  split at h
  · rename_i hany
    exact hwords hany (by decide)
  · simp only [Option.bind_eq_bind, Option.bind_eq_some_iff] at h
    obtain ⟨r, hr, -⟩ := h
    exact wordMarks_of_splitSign (wordMarks_of_decimal? hr)

theorem mem_of_bool? {w : String} {b : Bool} (h : Value.bool? w = some b) :
    w ∈ if b then Value.trueWords else Value.falseWords := by
  unfold Value.bool? at h
  split at h
  · rename_i htrue
    obtain rfl := Option.some.inj h
    exact List.contains_iff_mem.1 htrue
  split at h
  · rename_i hfalse
    obtain rfl := Option.some.inj h
    exact List.contains_iff_mem.1 hfalse
  · cases h

/-! ## Words as plain scalars -/

namespace Denotes

variable {w : String} {v : Value} (h : Denotes w v)

include h

theorem wordMarks : WordMarks w.toList := by
  cases h with
  | @truth b hbool =>
    have hall : ((if b then Value.trueWords else Value.falseWords).all
        fun w => w.toList.all isWordMark) = true := by
      cases b <;> decide
    exact wordMarks_of_all (List.all_eq_true.1 hall w (mem_of_bool? hbool))
  | integer hinteger =>
    obtain ⟨-, m, hm, -⟩ := exists_magnitude?_of_integer? hinteger
    exact wordMarks_of_splitSign (wordMarks_of_magnitude? hm)
  | real hreal => exact wordMarks_of_real? hreal

/-- Such a word can stand as a plain scalar. -/
theorem isPlainText : Yaml.isPlainText w.toList = true := by
  have hne : ∀ s : String, Value.bool? s = none → integer? s.toList = none →
      real? s.toList = none → w.toList ≠ s.toList := by
    rintro s hbool hinteger hreal heq
    obtain rfl := String.toList_inj.1 heq
    cases h with
    | truth hw => exact absurd hw (by rw [hbool]; nofun)
    | integer hw => exact absurd hw (by rw [hinteger]; nofun)
    | real hw => exact absurd hw (by rw [hreal]; nofun)
  -- What no plain scalar can be does not denote anything either.
  refine h.wordMarks.isPlainText (hne "" ?_ ?_ ?_) (hne "-" ?_ ?_ ?_) (hne "---" ?_ ?_ ?_)
    (hne "..." ?_ ?_ ?_) <;> decide +kernel

end Denotes

/-! ## Printed forms -/

/-- A character of a printed number or truth value. -/
def isPrintedMark (c : Char) : Bool := c.isLower || c.isDigit || c == '-' || c == '.'

theorem isPrintedMark_iff {c : Char} : isPrintedMark c = true ↔
    ((97 ≤ c.toNat ∧ c.toNat ≤ 122 ∨ 48 ≤ c.toNat ∧ c.toNat ≤ 57) ∨ c.toNat = 45) ∨
      c.toNat = 46 := by
  rw [isPrintedMark, Bool.or_eq_true, Bool.or_eq_true, Bool.or_eq_true, Text.isLower_iff,
    Text.isDigit_iff, Text.beq_eq_toNat_beq, Text.beq_eq_toNat_beq, beq_iff_eq, beq_iff_eq]
  rfl

theorem isPrintedMark_of_isDigit {c : Char} (h : c.isDigit = true) : isPrintedMark c = true := by
  simp [isPrintedMark, h]

theorem isPrintedMark_of_mem_toDigits {n : Nat} {c : Char} (h : c ∈ Nat.toDigits 10 n) :
    isPrintedMark c = true :=
  isPrintedMark_of_isDigit (Nat.isDigit_of_mem_toDigits (by decide) (by decide) h)

/-- An integer is printed as the digits of its magnitude, behind a dash if it is negative. -/
theorem toList_toString_int (n : Int) :
    (toString n).toList = (if n < 0 then ['-'] else []) ++ Nat.toDigits 10 n.natAbs := by
  rw [Int.toString_eq_repr, Int.repr_eq_if]
  split
  · rename_i hn
    rw [if_neg (by omega), Nat.toList_repr, List.nil_append]
    congr 1
    omega
  · rename_i hn
    rw [if_pos (by omega), String.toList_append, Nat.toList_repr]
    have habs : (-n).toNat = n.natAbs := by omega
    rw [habs]
    rfl

theorem isPrintedMark_of_mem_toString {n : Int} {c : Char} (h : c ∈ (toString n).toList) :
    isPrintedMark c = true := by
  rw [toList_toString_int] at h
  rcases List.mem_append.1 h with h | h
  · split at h
    · rw [List.mem_singleton.1 h]
      decide
    · exact absurd h List.not_mem_nil
  · exact isPrintedMark_of_mem_toDigits h

theorem isPrintedMark_of_mem_layOut (layout : RealLayout) (digits : Nat) (scale : Int) :
    ∀ c ∈ layOut layout digits scale, isPrintedMark c = true := by
  have hdigits : ∀ c ∈ Nat.toDigits 10 digits, isPrintedMark c = true :=
    fun c hc => isPrintedMark_of_mem_toDigits hc
  have hzeros : ∀ n, ∀ c ∈ List.replicate n '0', isPrintedMark c = true := by
    intro n c hc
    rw [List.eq_of_mem_replicate hc]
    decide
  have hpoint : isPrintedMark '.' = true := by decide
  have hzero : isPrintedMark '0' = true := by decide
  simp only [layOut]
  generalize Nat.toDigits 10 digits = text at hdigits ⊢
  split
  · exact List.forall_mem_append.2 ⟨List.forall_mem_append.2 ⟨hdigits, hzeros _⟩,
      List.all_eq_true.1 (by decide)⟩
  split
  · exact List.forall_mem_append.2 ⟨fun c hc => hdigits c (List.mem_of_mem_take hc),
      List.forall_mem_cons.2 ⟨hpoint, fun c hc => hdigits c (List.mem_of_mem_drop hc)⟩⟩
  split
  · exact List.forall_mem_append.2
      ⟨List.forall_mem_cons.2 ⟨hzero, List.forall_mem_cons.2 ⟨hpoint, hzeros _⟩⟩, hdigits⟩
  · refine List.forall_mem_append.2 ⟨?_, List.forall_mem_cons.2
      ⟨by decide, fun c hc => isPrintedMark_of_mem_toString hc⟩⟩
    split
    · obtain ⟨hfirst, hrest⟩ := List.forall_mem_cons.1 hdigits
      exact List.forall_mem_cons.2 ⟨hfirst, List.forall_mem_cons.2 ⟨hpoint, hrest⟩⟩
    · exact hdigits

theorem isPrintedMark_of_mem_text (x : Real) : ∀ c ∈ x.text, isPrintedMark c = true := by
  unfold Real.text
  split
  · exact List.all_eq_true.1 (by decide)
  · split <;> exact List.all_eq_true.1 (by decide)
  · refine List.forall_mem_append.2 ⟨?_, isPrintedMark_of_mem_layOut _ _ _⟩
    split <;> exact List.all_eq_true.1 (by decide)

/-- A printed number or truth value consists of word marks. -/
theorem isWordMark_of_isPrintedMark {c : Char} (h : isPrintedMark c = true) :
    isWordMark c = true := by
  rw [isPrintedMark_iff] at h
  rw [isWordMark_iff]
  omega

/-- A number or a truth value is printed in lower case letters, digits, dashes and points. -/
theorem Denotes.exists_scalarText? {w : String} {v : Value} (h : Denotes w v) :
    ∃ s, Node.scalarText? v = some s ∧ ∀ c ∈ s.toList, isPrintedMark c = true := by
  cases h with
  | @truth b hbool => exact ⟨_, rfl, by cases b <;> exact List.all_eq_true.1 (by decide)⟩
  | integer hinteger => exact ⟨_, rfl, fun c hc => isPrintedMark_of_mem_toString hc⟩
  | @real x hreal =>
    refine ⟨_, rfl, ?_⟩
    rw [String.toList_ofList]
    exact isPrintedMark_of_mem_text x

/-! ## Words that are printed as they stand -/

theorem scalarText?_bool_iff {w : String} {b : Bool} (h : Value.bool? w = some b) :
    Node.scalarText? (.bool b) = some w ↔ w = "true" ∨ w = "false" := by
  rw [Node.scalarText?, Option.some_inj]
  constructor
  · rintro rfl
    cases b <;> simp
  · rintro (rfl | rfl)
    · obtain rfl : true = b :=
        Option.some.inj ((by decide : some true = Value.bool? "true").trans h)
      rfl
    · obtain rfl : false = b :=
        Option.some.inj ((by decide : some false = Value.bool? "false").trans h)
      rfl

/-- A digit is printed as it stands. -/
theorem toDigits_digitValue {c : Char} (h : digitValue 10 c < 10) :
    Nat.toDigits 10 (digitValue 10 c) = [c] := by
  have hdigit := isDigit_of_digitValue_lt h
  have hrange := Text.isDigit_iff.1 hdigit
  have hvalue : digitValue 10 c = c.toNat - 48 := if_pos hdigit
  rw [Nat.toDigits_of_lt_base h, List.singleton_inj, ← Char.toNat_inj,
    Nat.toNat_digitChar_of_lt_ten h]
  omega

/-- Digits that are read behind others are printed behind them. -/
theorem toDigits_append_of_foldlM {digits : List Char} {m n : Nat} (hm : 0 < m)
    (h : digits.foldlM (addDigit 10) m = some n) :
    Nat.toDigits 10 m ++ digits = Nat.toDigits 10 n := by
  induction digits generalizing m with
  | nil =>
    obtain rfl := Option.some.inj h
    exact List.append_nil _
  | cons c digits ih =>
    rw [List.foldlM_cons] at h
    obtain ⟨next, hnext, hrest⟩ := Option.bind_eq_some_iff.1 h
    obtain ⟨hlt, rfl⟩ := addDigit_eq_some_iff.1 hnext
    rw [← ih (by omega) hrest, ← Nat.toDigits_append_toDigits (by decide) hm hlt,
      toDigits_digitValue hlt, List.append_assoc, List.singleton_append]

/-- Digits without a leading zero are printed as they stand. -/
theorem toDigits_of_natural? {digits : List Char} {n : Nat} (h : natural? 10 digits = some n)
    (hlead : ∀ c rest, digits ≠ '0' :: c :: rest) : Nat.toDigits 10 n = digits := by
  rw [natural?_eq] at h
  cases digits with
  | nil => cases h
  | cons c rest =>
    rw [if_neg (by simp), List.foldlM_cons] at h
    obtain ⟨first, hfirst, hrest⟩ := Option.bind_eq_some_iff.1 h
    obtain ⟨hlt, hvalue⟩ := addDigit_eq_some_iff.1 hfirst
    obtain rfl : digitValue 10 c = first := by omega
    have hdigit := toDigits_digitValue hlt
    rcases Nat.eq_zero_or_pos (digitValue 10 c) with hzero | hpos
    · -- Behind a zero there is no other digit.
      obtain rfl : '0' = c := by simpa [hzero] using hdigit
      cases rest with
      | nil =>
        obtain rfl := Option.some.inj hrest
        exact hdigit
      | cons d rest => exact absurd rfl (hlead d rest)
    · rw [← toDigits_append_of_foldlM hpos hrest, hdigit, List.singleton_append]

/-- An integer without letters has decimal digits. -/
theorem natural?_of_magnitude? {digits : List Char} {n : Nat} (h : magnitude? digits = some n)
    (hdigits : ∀ c ∈ digits, c.isDigit = true ∨ c = '-') : natural? 10 digits = some n := by
  unfold magnitude? at h
  split at h
  · exact absurd (hdigits 'x' (by simp)) (by decide)
  · exact absurd (hdigits 'o' (by simp)) (by decide)
  · exact absurd (hdigits 'b' (by simp)) (by decide)
  · exact h

/-- A printed integer is no `-0`. -/
theorem toString_ne_negativeZero (n : Int) : toString n ≠ "-0" := by
  intro heq
  have hlist : (if n < 0 then ['-'] else []) ++ Nat.toDigits 10 n.natAbs = ['-', '0'] := by
    rw [← toList_toString_int, heq]
    rfl
  split at hlist
  · rename_i hneg
    have hzero : Nat.toDigits 10 n.natAbs = Nat.toDigits 10 0 := (List.cons.inj hlist).2
    have habs : n.natAbs = 0 := by
      rw [← @Nat.ofDigitChars_ten_toDigits n.natAbs, hzero, Nat.ofDigitChars_ten_toDigits]
    omega
  · have hdash : '-' ∈ Nat.toDigits 10 n.natAbs := by
      rw [List.nil_append] at hlist
      rw [hlist]
      exact List.mem_cons_self ..
    exact absurd (Nat.isDigit_of_mem_toDigits (by decide) (by decide) hdash) (by decide)

/-- An integer in decimal, without a plus sign and other than `-0`, is printed as it stands. -/
theorem toString_of_integer? {w : String} {n : Int} (h : integer? w.toList = some n)
    (hchars : ∀ c ∈ w.toList, c.isDigit = true ∨ c = '-') (hne : w ≠ "-0") : toString n = w := by
  obtain ⟨hpadded, m, hm, rfl⟩ := exists_magnitude?_of_integer? h
  obtain ⟨hsplit, hsign⟩ := splitSign_eq w.toList
  have hnatural := natural?_of_magnitude? hm
    fun c hc => hchars c (hsplit ▸ List.mem_append_right _ hc)
  have hdigits : Nat.toDigits 10 m = (splitSign w.toList).2 := by
    refine toDigits_of_natural? hnatural fun c rest heq => ?_
    have hall := List.all_eq_true.2 (isDigit_of_natural? hnatural)
    rw [heq, List.all_cons, Bool.and_eq_true] at hall
    rw [isPaddedDigits, heq] at hpadded
    exact absurd hall.2 (Bool.eq_false_iff.1 hpadded)
  rw [← hdigits] at hsplit
  rw [← String.toList_inj, toList_toString_int]
  -- No sign, a plus sign, a minus sign.
  rcases hsign with hsign | hsign | hsign <;> rw [hsign] at hsplit ⊢
  · have hnone : (none : Option Char) ≠ some '-' := nofun
    rw [if_neg hnone, if_neg (by omega), Int.natAbs_natCast, hsplit]
    rfl
  · exact absurd (hchars '+' (hsplit ▸ List.mem_cons_self ..)) (by decide)
  · have hpos : 0 < m := by
      refine Nat.pos_of_ne_zero fun hzero => hne (String.toList_inj.1 ?_)
      rw [hsplit, hzero]
      rfl
    rw [if_pos rfl, if_pos (by omega), Int.natAbs_neg, Int.natAbs_natCast, hsplit]
    rfl

/-- Of the words for an integer those in decimal are printed as they stand that have no plus sign
and are not `-0`. -/
theorem scalarText?_integer_iff {w : String} {n : Int} (h : integer? w.toList = some n) :
    Node.scalarText? (.integer n) = some w ↔
      (∀ c ∈ w.toList, c.isDigit = true ∨ c = '-') ∧ w ≠ "-0" := by
  rw [Node.scalarText?, Option.some_inj]
  constructor
  · rintro rfl
    refine ⟨fun c hc => ?_, toString_ne_negativeZero n⟩
    rw [toList_toString_int] at hc
    rcases List.mem_append.1 hc with hc | hc
    · split at hc
      · exact .inr (List.mem_singleton.1 hc)
      · exact absurd hc List.not_mem_nil
    · exact .inl (Nat.isDigit_of_mem_toDigits (by decide) (by decide) hc)
  · rintro ⟨hchars, hne⟩
    exact toString_of_integer? h hchars hne

/-! ## Real numbers -/

theorem getLast?_toDigits (n : Nat) :
    (Nat.toDigits 10 n).getLast? = some (Nat.digitChar (n % 10)) := by
  rw [Nat.toDigits_eq_if (by decide)]
  split
  · rename_i hlt
    rw [Nat.mod_eq_of_lt hlt]
    rfl
  · exact List.getLast?_concat ..

/-- A number without an exponent does not end in a zero behind another digit, if its digits do not
end in a zero. -/
theorem mem_layOut_of_suffix {digits : Nat} {scale : Int} {d : Char} (hd : d.isDigit = true)
    (hlast : digits % 10 ≠ 0) (h : [d, '0'] <:+ layOut realLayout digits scale) :
    'e' ∈ layOut realLayout digits scale := by
  obtain ⟨last, hdigits, hne⟩ :
      ∃ last, (Nat.toDigits 10 digits).getLast? = some last ∧ last ≠ '0' := by
    have hdigit : ∀ n < 10, n ≠ 0 → Nat.digitChar n ≠ '0' := by decide
    exact ⟨_, getLast?_toDigits digits, hdigit _ (Nat.mod_lt _ (by decide)) hlast⟩
  have hend : ∀ {text : List Char}, text.getLast? = some last → ¬[d, '0'] <:+ text := by
    rintro text htext ⟨front, rfl⟩
    rw [List.getLast?_append, List.getLast?_cons_cons] at htext
    exact hne (Option.some.inj htext).symm
  simp only [layOut] at h ⊢
  generalize Nat.toDigits 10 digits = text at hdigits h ⊢
  split at h
  · -- Behind the point stands a zero alone.
    obtain ⟨front, hfront⟩ := h
    have hpoint : [d, '0'] = ['.', '0'] := (List.append_inj' hfront rfl).2
    obtain rfl := (List.cons.inj hpoint).1
    exact absurd hd (by decide)
  rename_i hwhole
  split at h
  · rename_i hpoint
    simp only [Bool.and_eq_true, decide_eq_true_eq] at hwhole hpoint
    have hlength : ¬text.length ≤ ((text.length : Int) + scale).toNat := by omega
    refine absurd h (hend ?_)
    rw [List.getLast?_append, List.getLast?_cons, List.getLast?_drop, if_neg hlength, hdigits]
    rfl
  rename_i hpoint
  split at h
  · refine absurd h (hend ?_)
    rw [List.getLast?_append, hdigits]
    rfl
  · rename_i hzeros
    rw [if_neg hwhole, if_neg hpoint, if_neg hzeros]
    exact List.mem_append_right _ (List.mem_cons_self ..)

/-- A finite number that is read has no lower exponent than zero. -/
theorem le_exponent_of_real? {text : List Char} {negative : Bool} {x : Decimal.Binary64}
    (h : real? text = some (.finite negative x)) : -1074 ≤ x.exponent := by
  unfold real? at h
  split at h
  · cases h
  split at h
  · cases h
  split at h
  · cases h
  · simp only [Option.bind_eq_bind, Option.bind_eq_some_iff] at h
    obtain ⟨r, -, magnitude, hmagnitude, hx⟩ := h
    cases Option.some.inj hx
    exact Decimal.le_exponent_of_ofDecimal hmagnitude

/-- A real number that is read is printed without a zero at its end behind another digit, unless it
is printed with an exponent. -/
theorem mem_text_of_suffix {text : List Char} {x : Real} (hx : real? text = some x) {d : Char}
    (hd : d.isDigit = true) (h : [d, '0'] <:+ x.text) : 'e' ∈ x.text := by
  have hends : x.text.getLast? = some '0' := by
    obtain ⟨front, hfront⟩ := h
    rw [← hfront, List.getLast?_append]
    rfl
  cases x with
  | nan => exact absurd hends (by decide)
  | infinity negative => exact absurd hends (by cases negative <;> decide)
  | finite negative x =>
    unfold Real.text at h ⊢
    dsimp only at h ⊢
    generalize hdigits : (if x.significand = 0 then (0, 0) else Decimal.shortest x) = decimal at h ⊢
    have hsuffix : [d, '0'] <:+ layOut realLayout decimal.1 decimal.2 := by
      cases negative with
      | false => exact h
      | true =>
        rcases List.suffix_cons_iff.1 h with hdash | hsuffix
        · obtain rfl := (List.cons.inj hdash).1
          exact absurd hd (by decide)
        · exact hsuffix
    refine List.mem_append_right _ ?_
    have hcases : decimal = (0, 0) ∨ decimal.1 % 10 ≠ 0 := by
      rw [← hdigits]
      split
      · exact .inl rfl
      · exact Decimal.shortest_mod_ten_ne_zero (le_exponent_of_real? hx)
    rcases hcases with rfl | hlast
    · -- Zero is printed with a zero alone behind its point.
      obtain ⟨front, hfront⟩ := hsuffix
      have hzero : front ++ [d, '0'] = ['0'] ++ ['.', '0'] := hfront
      have hpoint : [d, '0'] = ['.', '0'] := (List.append_inj' hzero rfl).2
      obtain rfl := (List.cons.inj hpoint).1
      exact absurd hd (by decide)
    · exact mem_layOut_of_suffix hd hlast hsuffix

/-! ## Words that are printed otherwise -/

/-- A word with a capital letter or a plus sign is not printed as it stands. -/
theorem Denotes.scalarText?_ne_of_mem {w : String} {v : Value} (h : Denotes w v) {c : Char}
    (hc : c ∈ w.toList) (hmark : c.isUpper = true ∨ c = '+') : Node.scalarText? v ≠ some w := by
  intro hw
  obtain ⟨s, hs, hmarks⟩ := h.exists_scalarText?
  obtain rfl := Option.some.inj (hs.symm.trans hw)
  have hprinted := hmarks c hc
  rcases hmark with hupper | rfl
  · have hrange := Text.isUpper_iff.1 hupper
    rw [isPrintedMark_iff] at hprinted
    omega
  · exact absurd hprinted (by decide)

/-- A real number without an exponent that ends in a zero behind another digit is not printed as it
stands. -/
theorem scalarText?_real_ne {w : String} {x : Real} (h : real? w.toList = some x) {d : Char}
    (hd : d.isDigit = true) (hend : [d, '0'] <:+ w.toList) (hexponent : 'e' ∉ w.toList) :
    Node.scalarText? (.real x) ≠ some w := by
  intro hw
  rw [Node.scalarText?, Option.some_inj] at hw
  subst hw
  rw [String.toList_ofList] at h hend hexponent
  exact hexponent (mem_text_of_suffix h hd hend)

end Yaml
end CiPipelines
