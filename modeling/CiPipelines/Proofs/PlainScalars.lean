import CiPipelines.Proofs.Places

/-!
# Plain scalars in context

`isPlainText` says of a text on one line that it can stand as a plain scalar: its first character
starts one, and it holds nothing that ends one.  Such a scalar is read in full in front of a colon
that ends a key and in front of a line feed, wherever it stands in a block.
-/

namespace CiPipelines
namespace Yaml

/-- Whether a plain scalar may go on with the text, up to its last character.  `spaced` says that
a blank stands in front of it. -/
def plainTail (spaced : Bool) : List Char → Bool
  | [] => !spaced
  | c :: rest =>
    if isBlank c then plainTail true rest
    else !isBreak c && !(c == '#' && spaced) && !(c == ':' && startsBlank rest)
      && plainTail false rest

/-- Whether a plain scalar may start with `c`, followed by `rest`. -/
def startsPlain (c : Char) (rest : List Char) : Bool :=
  if c == '-' || c == '?' || c == ':' then !startsBlank rest
  else !isBlank c && !isBreak c && !"[]\x7b\x7d,*&!|>'\"#%@\x60".toList.contains c

/-- Whether a text can stand as a plain scalar. -/
def isPlainText : List Char → Bool
  | [] => false
  | c :: rest => startsPlain c rest && !atDocumentMark 0 (c :: rest) && plainTail false (c :: rest)

/-- Characters that never end a plain scalar may go on with it, also behind a blank. -/
theorem plainTail_of_forall {c : Char} {text : List Char} (spaced : Bool)
    (h : ∀ d ∈ c :: text,
      isBlank d = false ∧ isBreak d = false ∧ (d == '#') = false ∧ (d == ':') = false) :
    plainTail spaced (c :: text) = true := by
  induction text generalizing c spaced with
  | nil =>
    obtain ⟨hblank, hbreak, hnote, hcolon⟩ := h c (List.mem_cons_self ..)
    simp [plainTail, hblank, hbreak, hnote, hcolon]
  | cons d text ih =>
    obtain ⟨hblank, hbreak, hnote, hcolon⟩ := h c (List.mem_cons_self ..)
    have hrest := ih false fun e he => h e (List.mem_cons_of_mem _ he)
    rw [plainTail]
    simp [hblank, hbreak, hnote, hcolon, hrest]

theorem startsBlank_append {rest : List Char} (h : rest ≠ []) (more : List Char) :
    startsBlank (rest ++ more) = startsBlank rest := by
  cases rest with
  | nil => exact absurd rfl h
  | cons c rest => rfl

theorem atDocumentMark_iff (column : Nat) (text : List Char) :
    atDocumentMark column text = true ↔ column = 0 ∧ ∃ rest, startsBlank rest = true ∧
      (text = '-' :: '-' :: '-' :: rest ∨ text = '.' :: '.' :: '.' :: rest) := by
  unfold atDocumentMark
  split <;> simp_all

/-- A text that is no document mark does not become one by what follows it, unless that goes on
with dashes or dots. -/
theorem atDocumentMark_append {text : List Char} {x : Char} (column : Nat) (more : List Char)
    (hne : text ≠ []) (hdash : x ≠ '-') (hdot : x ≠ '.') (h : atDocumentMark column text = false) :
    atDocumentMark column (text ++ x :: more) = false := by
  rw [Bool.eq_false_iff, Ne, atDocumentMark_iff] at h ⊢
  rintro ⟨hcolumn, rest, hrest, hmark⟩
  apply h
  -- The three characters of the mark lie in the text, since what follows it is none of them.
  match text with
  | [] => exact absurd rfl hne
  | [a] => simp_all
  | [a, b] => simp_all
  | a :: b :: c :: text =>
    refine ⟨hcolumn, text, ?_, ?_⟩
    · cases text with
      | nil => rfl
      | cons d text =>
        have htail : rest = d :: (text ++ x :: more) := by
          rcases hmark with hmark | hmark <;> simp_all
        rw [htail] at hrest
        exact hrest
    · rcases hmark with hmark | hmark <;> simp_all

/-- Off the first column there are no document marks. -/
theorem atDocumentMark_of_pos {column : Nat} (h : 0 < column) (text : List Char) :
    atDocumentMark column text = false := by
  have hne : (column == 0) = false := by simpa using Nat.ne_of_gt h
  simp [atDocumentMark, hne]

/-- One step of reading a plain scalar on its line, at a character that is no blank. -/
theorem readPlain_char {margin : Nat} {read blanks : List Char} {place : Place} {c : Char}
    {rest : List Char} (hbreak : isBreak c = false) (hblank : isBlank c = false)
    (hmark : atDocumentMark place.column (c :: rest) = false)
    (hhash : (c == '#' && !blanks.isEmpty) = false)
    (hcolon : (c == ':' && startsBlank rest) = false) :
    readPlain false margin read (.blanks blanks) place (c :: rest) =
      readPlain false margin (c :: (blanks.reverse ++ read)) .empty (place.forward 1) rest := by
  have hends : endsPlain false margin (.blanks blanks) place.column c rest = false := by
    simp [endsPlain, Gap.hasBreak, Gap.isEmpty, hmark, hhash, hcolon]
  rw [readPlain.eq_3 _ _ _ _ _ _ _ fun _ h => absurd h (ne_carriageReturn_of_isBreak hbreak)]
  simp [hbreak, hblank, hends, colonTouches, Gap.fold]

/-- A blank on the line of a plain scalar. -/
theorem readPlain_blank {margin : Nat} {read blanks : List Char} {place : Place} {c : Char}
    {rest : List Char} (hblank : isBlank c = true) :
    readPlain false margin read (.blanks blanks) place (c :: rest) =
      readPlain false margin read (.blanks (blanks ++ [c])) (place.forward 1) rest := by
  have hc : c = ' ' ∨ c = '\t' := by simpa [isBlank] using hblank
  have hcr : c ≠ '\r' := by rcases hc with rfl | rfl <;> decide
  have hbreak : isBreak c = false := by rcases hc with rfl | rfl <;> decide
  rw [readPlain.eq_3 _ _ _ _ _ _ _ fun _ h => absurd h hcr]
  simp [hbreak, hblank, Gap.hasBreak, Gap.addBlank]

/-- Text that a plain scalar may go on with is read in full, whatever follows it. -/
theorem readPlain_plainTail {text : List Char} (margin : Nat) (read blanks : List Char)
    (place : Place) (x : Char) (more : List Char) (hcolumn : 0 < place.column)
    (h : plainTail (!blanks.isEmpty) text = true) :
    readPlain false margin read (.blanks blanks) place (text ++ x :: more) =
      readPlain false margin (text.reverse ++ blanks.reverse ++ read) .empty
        (place.forward text.length) (x :: more) := by
  -- Blanks wait in `blanks` until a character shows that they are inside the scalar.
  induction text generalizing read blanks place with
  | nil =>
    have hnone : blanks = [] := by simpa [plainTail] using h
    simp [hnone, Gap.empty]
  | cons c rest ih =>
    rw [plainTail] at h
    have hnext : 0 < (place.forward 1).column := Nat.succ_pos _
    by_cases hblank : isBlank c = true
    · rw [if_pos hblank] at h
      have hspaced : (blanks ++ [c]).isEmpty = false := by cases blanks <;> rfl
      rw [List.cons_append, readPlain_blank hblank,
        ih read (blanks ++ [c]) _ hnext (by rw [hspaced]; exact h)]
      simp [Nat.add_comm]
    · simp only [if_neg hblank, Bool.and_eq_true, Bool.not_eq_true'] at h
      obtain ⟨⟨⟨hbreak, hhash⟩, hcolon⟩, hrest⟩ := h
      have hcolon' : (c == ':' && startsBlank (rest ++ x :: more)) = false := by
        cases rest with
        | nil => simp_all [startsBlank]
        | cons d rest => exact hcolon
      rw [List.cons_append, readPlain_char hbreak (by simpa using hblank)
        (atDocumentMark_of_pos hcolumn _) hhash hcolon']
      have hempty : (Gap.empty : Gap) = .blanks [] := rfl
      rw [hempty, ih _ [] _ hnext hrest]
      simp [Nat.add_comm, Gap.empty]

/-- A plain scalar ends before a colon that ends a key. -/
theorem readPlain_colon (margin : Nat) (read : List Char) (place : Place) {more : List Char}
    (h : startsBlank more = true) :
    readPlain false margin read .empty place (':' :: more) =
      some ⟨read.reverse, ⟨':' :: more, place⟩, false⟩ := by
  have hends : endsPlain false margin .empty place.column ':' more = true := by
    simp [endsPlain, h]
  rw [readPlain.eq_3 _ _ _ _ _ _ _ fun _ h => absurd h (by decide)]
  simp only [show isBreak ':' = false by decide, show isBlank ':' = false by decide, hends,
    Bool.false_eq_true, if_false, if_true]
  rfl

/-- What follows a text does not change whether a plain scalar may start with it. -/
theorem startsPlain_append {c : Char} {rest : List Char} (h : startsPlain c rest = true)
    (more : List Char) : startsPlain c (rest ++ more) = true := by
  unfold startsPlain at h ⊢
  split at h
  · rename_i hc
    have hne : rest ≠ [] := by
      rintro rfl
      simp [startsBlank] at h
    rw [if_pos hc, startsBlank_append hne]
    exact h
  · rename_i hc
    rw [if_neg hc]
    exact h

/-- A text that can stand as a plain scalar is no document mark. -/
theorem atDocumentMark_isPlainText {text : List Char} (column : Nat) {x : Char} (more : List Char)
    (h : isPlainText text = true) (hdash : x ≠ '-') (hdot : x ≠ '.') :
    atDocumentMark column (text ++ x :: more) = false := by
  rcases Nat.eq_zero_or_pos column with rfl | hpos
  · cases text with
    | nil => simp [isPlainText] at h
    | cons c rest =>
      simp only [isPlainText, Bool.and_eq_true, Bool.not_eq_true'] at h
      exact atDocumentMark_append 0 more (by simp) hdash hdot h.1.2
  · exact atDocumentMark_of_pos hpos _

/-- The first step of reading a text that can stand as a plain scalar. -/
theorem readPlain_isPlainText {text : List Char} (margin : Nat) (place : Place) {x : Char}
    (more : List Char) (h : isPlainText text = true) (hdash : x ≠ '-') (hdot : x ≠ '.') :
    readPlain false margin [] .empty place (text ++ x :: more) =
      readPlain false margin text.reverse .empty (place.forward text.length) (x :: more) := by
  have hmark := atDocumentMark_isPlainText place.column more h hdash hdot
  cases text with
  | nil => simp [isPlainText] at h
  | cons c rest =>
    simp only [isPlainText, Bool.and_eq_true, Bool.not_eq_true'] at h
    obtain ⟨⟨hstart, -⟩, htail⟩ := h
    have hblank : isBlank c = false := by
      cases hb : isBlank c with
      | false => rfl
      | true =>
        have hc : c = ' ' ∨ c = '\t' := by simpa [isBlank] using hb
        rcases hc with rfl | rfl <;> simp [startsPlain, isBlank] at hstart
    simp only [plainTail, hblank, Bool.false_eq_true, if_false, Bool.and_eq_true,
      Bool.not_eq_true'] at htail
    obtain ⟨⟨⟨hbreak, -⟩, hcolon⟩, hrest⟩ := htail
    -- A text with a colon at its end is refused, so nobody has to look at what follows the text.
    have hcolon' : (c == ':' && startsBlank (rest ++ x :: more)) = false := by
      cases rest with
      | nil => simp_all [startsBlank]
      | cons d rest => exact hcolon
    have hfirst : readPlain false margin [] (.blanks []) place (c :: (rest ++ x :: more)) =
        readPlain false margin [c] (.blanks []) (place.forward 1) (rest ++ x :: more) :=
      readPlain_char hbreak hblank hmark (by simp) hcolon'
    have hempty : (Gap.empty : Gap) = .blanks [] := rfl
    rw [List.cons_append, hempty, hfirst,
      readPlain_plainTail margin _ [] _ x more (Nat.succ_pos _) hrest]
    simp [Nat.add_comm, hempty]

end Yaml
end CiPipelines
