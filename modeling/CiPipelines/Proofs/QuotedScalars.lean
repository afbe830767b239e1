import CiPipelines.Proofs.PlainScalars
import CiPipelines.Json.Quote
import CiPipelines.Yaml.QuotedScalar

/-!
# Quoted scalars in context

A text between single quotes, its quotes doubled, and a text between double quotes, escaped as in
JSON, are read back as they are.  Neither may hold a line break that is written as such.
-/

namespace CiPipelines
namespace Yaml

/-- The text with each single quote written twice. -/
def doubleQuotes (text : List Char) : List Char :=
  text.flatMap fun c => if c == '\'' then ['\'', '\''] else [c]

theorem doubleQuotes_cons (c : Char) (text : List Char) :
    doubleQuotes (c :: text) = (if c == '\'' then ['\'', '\''] else [c]) ++ doubleQuotes text := by
  simp [doubleQuotes]

/-- A single-quoted text is read up to its closing quote. -/
theorem readSingleQuoted_doubleQuotes {text : List Char} (read blanks : List Char) (place : Place)
    {rest : List Char} (htext : ∀ c ∈ text, isBreak c = false) (hcolumn : 0 < place.column)
    (hrest : rest.head? ≠ some '\'') :
    readSingleQuoted read (.blanks blanks) place (doubleQuotes text ++ '\'' :: rest) =
      some (read.reverse ++ blanks ++ text,
        ⟨rest, place.forward ((doubleQuotes text).length + 1)⟩) := by
  -- On the text, with blanks held back until a character follows them.
  induction text generalizing read blanks place with
  | nil =>
    have hquote : ∀ more : List Char, '\'' = '\'' → rest = '\'' :: more → False := by
      rintro more - rfl
      exact hrest rfl
    rw [show doubleQuotes [] = [] from rfl, List.nil_append,
      readSingleQuoted.eq_4 _ _ _ _ _ (fun _ h => absurd h (by decide)) hquote]
    simp [show isBreak '\'' = false by decide, show isBlank '\'' = false by decide,
      atDocumentMark_of_pos hcolumn, Gap.fold]
  | cons c text ih =>
    have hbreak : isBreak c = false := htext c (List.mem_cons_self ..)
    have ih := fun read blanks place => ih read blanks place
      fun d hd => htext d (List.mem_cons_of_mem _ hd)
    rw [doubleQuotes_cons]
    by_cases hquote : c = '\''
    · subst hquote
      rw [if_pos (by decide), List.append_assoc, List.cons_append, List.cons_append,
        List.nil_append, readSingleQuoted.eq_3]
      refine (ih _ [] _ (Nat.succ_pos _)).trans ?_
      have hlength : 2 + ((doubleQuotes text).length + 1) = (doubleQuotes text).length + 2 + 1 := by
        omega
      simp [Gap.fold, hlength]
    · rw [if_neg (by simpa using hquote), List.append_assoc, List.cons_append, List.nil_append,
        readSingleQuoted.eq_4 _ _ _ _ _
          (fun _ h => absurd h (ne_carriageReturn_of_isBreak hbreak)) fun _ h => absurd h hquote,
        if_neg (by simp [hbreak])]
      cases hblank : isBlank c with
      | true =>
        rw [if_pos rfl]
        refine (ih _ (blanks ++ [c]) _ (Nat.succ_pos _)).trans ?_
        simp [Nat.add_comm]
      | false =>
        rw [if_neg (by simp), if_neg (by simp [atDocumentMark_of_pos hcolumn]),
          if_neg (by simpa using hquote)]
        refine (ih _ [] _ (Nat.succ_pos _)).trans ?_
        simp [Gap.fold, Nat.add_comm]

/-- The code of a control character is read back from four digits. -/
theorem escapedCode?_hexText : ∀ n < 32,
    escapedCode? (Text.hexText 'a' 4 n) = some (Char.ofNat n) := by
  decide

/-- A character that is neither a blank nor an unescaped line break is read back from what JSON
writes for it. -/
theorem readDoubleQuoted_escape {c : Char} (read blanks : List Char) (place : Place)
    (rest : List Char) (hc : c.toNat < 0x20 ∨ isBreak c = false) (hspace : c ≠ ' ')
    (hcolumn : 0 < place.column) :
    readDoubleQuoted read (.blanks blanks) place (Json.escape c ++ rest) =
      readDoubleQuoted (c :: (blanks.reverse ++ read)) .empty
        (place.forward (Json.escape c).length) rest := by
  -- A character is written by four digits, as itself, or by a letter of its own.
  unfold Json.escape
  split
  case h_8 hquote hslash hlineFeed hreturn htab hback hform =>
    split
    · rename_i hlow
      have hcode := escapedCode?_hexText c.toNat hlow
      rw [Char.ofNat_toNat] at hcode
      obtain ⟨d₁, d₂, d₃, d₄, hdigits⟩ :
          ∃ d₁ d₂ d₃ d₄, Text.hexText 'a' 4 c.toNat = [d₁, d₂, d₃, d₄] := ⟨_, _, _, _, rfl⟩
      rw [hdigits] at hcode ⊢
      simp only [List.cons_append, List.nil_append]
      rw [readDoubleQuoted.eq_5, hcode]
      rfl
    · rename_i hlow
      have hbreak : isBreak c = false := hc.resolve_left hlow
      have hblank : isBlank c = false := by simpa [isBlank, hspace] using htab
      rw [List.cons_append, List.nil_append, readDoubleQuoted.eq_8 _ _ _ _ _
        (fun _ h => absurd h hreturn) (fun _ h => absurd h hslash) (fun _ _ _ h => absurd h hslash)
        (fun _ _ _ _ _ h => absurd h hslash) (fun _ _ _ _ _ _ _ _ _ h => absurd h hslash)
        fun _ _ h => absurd h hslash]
      simpa [hbreak, hblank, atDocumentMark_of_pos hcolumn, Gap.fold] using fun h => (hquote h).elim
  all_goals
    rw [List.cons_append, List.cons_append, List.nil_append, readDoubleQuoted.eq_7]
    <;> simp [escapedChar?, isBreak, Gap.fold]

/-- A text as JSON quotes it is read up to its closing quote. -/
theorem readDoubleQuoted_escapeAll {text : List Char} (read blanks : List Char) (place : Place)
    (rest : List Char) (htext : ∀ c ∈ text, c.toNat < 0x20 ∨ isBreak c = false)
    (hcolumn : 0 < place.column) :
    readDoubleQuoted read (.blanks blanks) place (Json.escapeAll text ++ '"' :: rest) =
      some (read.reverse ++ blanks ++ text,
        ⟨rest, place.forward ((Json.escapeAll text).length + 1)⟩) := by
  induction text generalizing read blanks place with
  | nil =>
    rw [show Json.escapeAll [] = [] from rfl, List.nil_append,
      readDoubleQuoted.eq_8 _ _ _ _ _ (fun _ h => absurd h (by decide))
        (fun _ h => absurd h (by decide)) (fun _ _ _ h => absurd h (by decide))
        (fun _ _ _ _ _ h => absurd h (by decide)) (fun _ _ _ _ _ _ _ _ _ h => absurd h (by decide))
        fun _ _ h => absurd h (by decide)]
    simp [show isBreak '"' = false by decide, show isBlank '"' = false by decide,
      atDocumentMark_of_pos hcolumn, Gap.fold]
  | cons c text ih =>
    have hc := htext c (List.mem_cons_self ..)
    have ih := fun read blanks place => ih read blanks place
      fun d hd => htext d (List.mem_cons_of_mem _ hd)
    have hsplit : Json.escapeAll (c :: text) = Json.escape c ++ Json.escapeAll text := rfl
    rw [hsplit, List.append_assoc]
    -- A space waits among the blanks; all else is read at once, a tab by its escape.
    by_cases hspace : c = ' '
    · subst hspace
      have hself : Json.escape ' ' = [' '] := by decide
      rw [hself, List.cons_append, List.nil_append, readDoubleQuoted.eq_8 _ _ _ _ _
        (fun _ h => absurd h (by decide)) (fun _ h => absurd h (by decide))
        (fun _ _ _ h => absurd h (by decide)) (fun _ _ _ _ _ h => absurd h (by decide))
        (fun _ _ _ _ _ _ _ _ _ h => absurd h (by decide)) fun _ _ h => absurd h (by decide)]
      refine (ih _ (blanks ++ [' ']) _ (Nat.succ_pos _)).trans ?_
      simp [Nat.add_comm]
    · rw [readDoubleQuoted_escape read blanks place _ hc hspace hcolumn]
      have hpos : 0 < (place.forward (Json.escape c).length).column :=
        Nat.lt_of_lt_of_le hcolumn (Nat.le_add_right ..)
      refine (ih _ [] _ hpos).trans ?_
      simp [Nat.add_assoc]

end Yaml
end CiPipelines
