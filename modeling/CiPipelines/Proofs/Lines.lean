import CiPipelines.Text.Lines
import Mathlib.Data.List.DropRight

/-!
# Laws of lines

The pieces between the line feeds of a text, with a line feed behind each, are the text and one
more line feed.  Without carriage returns the lines of a text are these pieces, but for an empty
last one.  What is removed from the end of a text is what `List.rdropWhile` removes.
-/

namespace CiPipelines
namespace Text

/-! ## Pieces -/

/-- The characters of a piece are those of the text that do not separate. -/
theorem of_mem_splitOnP {p : Char → Bool} {text piece : List Char} {c : Char}
    (hpiece : piece ∈ text.splitOnP p) (hc : c ∈ piece) : c ∈ text ∧ p c = false := by
  induction text generalizing piece with
  | nil => simp_all [List.splitOnP_nil]
  | cons d rest ih =>
    rw [List.splitOnP_cons_eq_if_modifyHead] at hpiece
    split at hpiece
    · rcases List.mem_cons.1 hpiece with rfl | hpiece
      · exact absurd hc List.not_mem_nil
      · exact (ih hpiece hc).imp_left (List.mem_cons_of_mem _)
    · rename_i hd
      obtain ⟨first, more, hsplit⟩ := List.exists_cons_of_ne_nil (List.splitOnP_ne_nil p rest)
      rw [hsplit] at ih
      rw [hsplit, List.modifyHead_cons] at hpiece
      rcases List.mem_cons.1 hpiece with rfl | hpiece
      · rcases List.mem_cons.1 hc with rfl | hc
        · exact ⟨List.mem_cons_self .., Bool.eq_false_iff.2 hd⟩
        · exact (ih (List.mem_cons_self ..) hc).imp_left (List.mem_cons_of_mem _)
      · exact (ih (List.mem_cons_of_mem _ hpiece) hc).imp_left (List.mem_cons_of_mem _)

/-- The characters of a piece between line feeds. -/
theorem of_mem_splitOn {text piece : List Char} {c : Char} (hpiece : piece ∈ text.splitOn '\n')
    (hc : c ∈ piece) : c ∈ text ∧ c ≠ '\n' :=
  (of_mem_splitOnP hpiece hc).imp_right beq_eq_false_iff_ne.1

theorem flatMap_concat {c : Char} {pieces : List (List Char)} (hne : pieces ≠ []) :
    pieces.flatMap (· ++ [c]) = [c].intercalate pieces ++ [c] := by
  induction pieces with
  | nil => exact absurd rfl hne
  | cons piece more ih =>
    cases more with
    | nil => simp [List.intercalate]
    | cons next more =>
      rw [List.flatMap_cons, ih (List.cons_ne_nil next more)]
      simp [List.intercalate]

/-- The lines of a text, each with a line feed, are the text with a line feed at its end. -/
theorem flatMap_splitOn (text : List Char) :
    (text.splitOn '\n').flatMap (· ++ ['\n']) = text ++ ['\n'] := by
  rw [flatMap_concat (List.splitOn_ne_nil _ _), List.intercalate_splitOn]

/-- The last line of a text is empty only after a line feed. -/
theorem splitOn_eq_concat {text : List Char} (hne : text ≠ [])
    (hend : text.getLast? ≠ some '\n') :
    ∃ lines last, text.splitOn '\n' = lines ++ [last] ∧ last ≠ [] := by
  obtain ⟨lines, last, hsplit⟩ : ∃ lines last, text.splitOn '\n' = lines ++ [last] :=
    ⟨_, _, (List.dropLast_concat_getLast (List.splitOn_ne_nil _ _)).symm⟩
  refine ⟨lines, last, hsplit, ?_⟩
  rintro rfl
  have htext : text = lines.flatMap (· ++ ['\n']) := by
    have h := flatMap_splitOn text
    rw [hsplit, List.flatMap_append] at h
    exact (List.append_cancel_right h).symm
  rcases List.eq_nil_or_concat lines with rfl | ⟨before, line, rfl⟩
  · exact hne (by simpa using htext)
  · exact hend (by rw [htext]; simp)

/-- The pieces of a text that consists of whole lines. -/
theorem splitOn_flatMap {ls : List (List Char)} (h : ∀ l ∈ ls, '\n' ∉ l) :
    (ls.flatMap (· ++ ['\n'])).splitOn '\n' = ls ++ [[]] := by
  induction ls with
  | nil => rfl
  | cons l ls ih =>
    rw [List.flatMap_cons, List.append_assoc, List.singleton_append,
      List.splitOn_append_cons_self_of_not_mem (h l (List.mem_cons_self ..)),
      ih fun other hother => h other (List.mem_cons_of_mem _ hother), List.cons_append]

/-! ## Lines -/

/-- A piece of a text without carriage returns is a line as it is. -/
theorem dropLastChar_of_mem_splitOn {text : List Char} (hreturn : '\r' ∉ text) :
    ∀ piece ∈ text.splitOn '\n', dropLastChar '\r' piece = piece := fun _ hpiece =>
  if_neg fun h => hreturn (of_mem_splitOn hpiece (List.mem_of_getLast? h)).1

/-- Without carriage returns, lines are the pieces between line feeds. -/
theorem lines_eq_splitOn {text : List Char} (hreturn : '\r' ∉ text) (hne : text ≠ [])
    (hend : text.getLast? ≠ some '\n') : lines text = text.splitOn '\n' := by
  obtain ⟨before, last, hsplit, hlast⟩ := splitOn_eq_concat hne hend
  have hkeep := dropLastChar_of_mem_splitOn hreturn
  rw [hsplit] at hkeep
  have hmap : before.map (dropLastChar '\r') = before := by
    rw [List.map_congr_left fun piece hpiece => hkeep piece (List.mem_append_left _ hpiece),
      List.map_id']
  obtain ⟨c, line, rfl⟩ := List.exists_cons_of_ne_nil hlast
  simp only [lines, hsplit, List.dropLast_concat, hmap, List.getLast?_concat]

/-- A line feed at the end opens no further line. -/
theorem lines_concat_lineFeed {text : List Char} (hreturn : '\r' ∉ text) :
    lines (text ++ ['\n']) = text.splitOn '\n' := by
  have hsplit : (text ++ ['\n']).splitOn '\n' = text.splitOn '\n' ++ [[]] :=
    List.splitOn_append_cons_self ..
  simp only [lines, hsplit, List.dropLast_concat, List.getLast?_concat]
  rw [List.map_congr_left (dropLastChar_of_mem_splitOn hreturn), List.map_id']

theorem lines_flatMap {ls : List (List Char)} (h : ∀ l ∈ ls, '\n' ∉ l) :
    lines (ls.flatMap (· ++ ['\n'])) = ls.map (dropLastChar '\r') := by
  simp only [lines, splitOn_flatMap h, List.dropLast_concat, List.getLast?_concat]

/-! ## Ends -/

theorem dropEndWhile_eq_rdropWhile (p : Char → Bool) (text : List Char) :
    dropEndWhile p text = text.rdropWhile p := rfl

/-- Nothing is removed from before a character that is kept. -/
theorem dropEndWhile_append {p : Char → Bool} {c : Char} (h : p c = false)
    (before text : List Char) :
    dropEndWhile p (before ++ c :: text) = before ++ c :: dropEndWhile p text := by
  simp only [dropEndWhile_eq_rdropWhile]
  induction text using List.reverseRecOn with
  | nil => rw [List.rdropWhile_concat_neg _ _ _ (Bool.eq_false_iff.1 h), List.rdropWhile_nil]
  | append_singleton text d ih =>
    rw [← List.cons_append, ← List.append_assoc, List.rdropWhile_concat, List.rdropWhile_concat, ih]
    split
    · rfl
    · rw [List.append_assoc, List.cons_append]

end Text
end CiPipelines
