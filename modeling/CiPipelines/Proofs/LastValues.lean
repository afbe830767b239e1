import CiPipelines.Proofs.SpotParts

/-!
# Texts of several lines at the end of a document

A text of several lines that stands last in a document is read back as it is, with all its line
feeds: as a literal block, also one that keeps several line feeds at its end, or else in double
quotes.  Only a line feed alone is lost, as its block has no line whose break could stay.
-/

namespace CiPipelines

open Yaml

namespace Yaml

/-! ## Blocks at the end of a text -/

theorem Place.after_index (place : Place) (text : List Char) :
    (place.after text).index = place.index + text.length := by
  induction text generalizing place with
  | nil => rfl
  | cons c text ih =>
    have hnext : (place.next c).index = place.index + 1 := by
      unfold Place.next
      split <;> rfl
    rw [Place.after_cons, ih, hnext, List.length_cons]
    omega

/-- Empty lines up to the end of the text. -/
theorem readLeadingLines_end (breaks : List Char) {place : Place} (k : Nat)
    (hplace : place.column = 0) :
    readLeadingLines breaks 0 place (List.replicate k '\n') =
      some ⟨breaks ++ List.replicate k '\n', 0, ⟨[], place.after (List.replicate k '\n')⟩⟩ := by
  induction k generalizing breaks place with
  | zero =>
    rw [List.replicate_zero, readLeadingLines, hplace, List.append_nil]
    rfl
  | succ k ih =>
    rw [List.replicate_succ, readLeadingLines.eq_3 _ _ _ _ _ fun _ h => absurd h (by decide),
      if_neg (by decide), if_neg (by decide), if_pos (by decide), hplace, Nat.max_self]
    refine (ih (breaks ++ ['\n']) rfl).trans ?_
    rw [List.append_assoc]
    rfl

/-- The lines of a block, the first of which that is not empty starts with no blank. -/
def BlockBody (lines : List (List Char)) : Prop :=
  (∀ l ∈ lines, ∀ c ∈ l, isBreak c = false) ∧
    ((∃ k, lines = List.replicate k []) ∨
      ∃ k c line more, lines = List.replicate k [] ++ (c :: line) :: more ∧ isBlank c = false)

/-- A block at the end of a text is read with all its lines. -/
theorem blockScalar?_end {indent margin : Nat} {lines : List (List Char)} (chomping : Chomping)
    (place : Place) (hlines : BlockBody lines) (hindent : 0 < indent) (hmargin : margin ≤ indent) :
    Cursor.blockScalar? ⟨'|' :: (chomping.mark ++ '\n' :: blockLines indent lines), place⟩ false
        margin =
      some ((lines.foldl BlockText.addLine (.ofLeading [])).finish chomping,
        ⟨[], place.after ('|' :: (chomping.mark ++ '\n' :: blockLines indent lines))⟩) := by
  rw [blockScalar?_mark, after_mark]
  obtain ⟨hbreaks, ⟨k, rfl⟩ | ⟨k, c, line, more, hall, hblank⟩⟩ := hlines
  · rw [blockLines_replicate_nil, readLeadingLines_end _ _ rfl, foldl_addLine_replicate_nil]
    rfl
  · obtain ⟨leading, hleading, hcolumn, hread⟩ := @readBlockLines_all _ indent _ _ _ _ _ [] hall
      (fun l hl => hbreaks l (hall ▸ List.mem_append_right _ hl)) hblank
      (rfl : ((place.forward (chomping.mark.length + 1)).newLine 1).column = 0)
    have hmax : max leading.column (max margin 1) = indent := by omega
    rw [List.append_nil] at hleading
    rw [hleading]
    simp only [Option.bind_eq_bind, Option.bind_some, hmax, hread]
    rfl

/-- A block that keeps all line breaks holds its lines, each with its break. -/
theorem finish_keep_foldl_addLine (lines : List (List Char)) :
    (lines.foldl BlockText.addLine (.ofLeading [])).finish .keep = lines.flatMap (· ++ ['\n']) := by
  have hcontent := BlockText.content_foldl_addLine (.ofLeading []) lines
  exact hcontent

end Yaml

namespace Outline

/-- What is read of a text of several lines at the end of a document. -/
def lastText (s : String) : String := if s = "\n" then "" else s

/-- The lines of a text that fits a block, without its last line feed. -/
theorem blockBody_splitOn {body : List Char}
    (hchars : ∀ c ∈ body, isBreak c = false ∨ c = '\n')
    (hfits : fitsBlock (body ++ ['\n']) = true) :
    BlockBody (body.splitOn '\n') := by
  have hreturn : '\r' ∉ body := by
    intro hmem
    rcases hchars _ hmem with h | h <;> exact absurd h (by decide)
  refine ⟨fun l hl c hc => ?_, ?_⟩
  · obtain ⟨hchar, hne⟩ := Text.of_mem_splitOn hl hc
    exact (hchars c hchar).resolve_right hne
  · by_cases hfull : ∃ line ∈ body.splitOn '\n', line ≠ []
    · exact .inr (exists_firstLine (Text.lines_concat_lineFeed hreturn) hfits hfull)
    · refine .inl ⟨_, List.eq_replicate_iff.2 ⟨rfl, fun line hline => ?_⟩⟩
      by_contra hne
      exact hfull ⟨line, hline, hne⟩

/-- A text that fits a block is read back from its block at the end of a text, unless it is a line
feed alone. -/
theorem blockScalar?_literal_end {s : String} {indent : Nat} (hindent : 0 < indent)
    (hs : Text.OrdinaryChars s.toList) (hfits : fitsBlock s.toList = true) (hne : s.toList ≠ []) :
    ∃ written, (literal s.toList indent).toList = ' ' :: '|' :: written ∧
      ∀ place margin, margin ≤ indent →
        Cursor.blockScalar? ⟨'|' :: written, place⟩ false margin =
          some ((lastText s).toList, ⟨[], place.after ('|' :: written)⟩) := by
  have hchars := Text.isBreak_or_eq_lineFeed hs
  -- The header `|` alone, then `|+`; with other headers a block is read back wherever it stands.
  by_cases hlineFeed : s.toList = ['\n']
  · have hparts : blockParts s.toList = ("|", []) := by rw [hlineFeed]; rfl
    have hlast : lastText s = "" := if_pos (String.toList_inj.1 hlineFeed)
    refine ⟨_, toList_literal indent hparts, fun place margin hmargin => ?_⟩
    have hbody : BlockBody [[]] :=
      ⟨fun l hl c hc => by simp [List.mem_singleton.1 hl] at hc, .inl ⟨1, rfl⟩⟩
    have hread := blockScalar?_end .clip place hbody hindent hmargin
    rw [hlast]
    exact hread
  have hlast : lastText s = s := if_neg fun heq => hlineFeed (congrArg String.toList heq)
  by_cases htwo : ['\n', '\n'] <:+ s.toList
  · obtain ⟨front, hfront⟩ := htwo
    have hsplit : s.toList = (front ++ ['\n']) ++ ['\n'] := by simp [← hfront]
    have hparts : blockParts s.toList = ("|+", front ++ ['\n']) := by simp [hsplit, blockParts]
    refine ⟨_, toList_literal indent hparts, fun place margin hmargin => ?_⟩
    have hbody := blockBody_splitOn (fun c hc => hchars c (hsplit ▸ List.mem_append_left _ hc))
      (hsplit ▸ hfits)
    have hread := blockScalar?_end .keep place hbody hindent hmargin
    rw [finish_keep_foldl_addLine, Text.flatMap_splitOn, ← hsplit] at hread
    rw [hlast]
    exact hread
  · obtain ⟨written, hwritten, hread⟩ :=
      blockScalar?_literal hindent hchars hfits hne hlineFeed htwo
    refine ⟨written, hwritten, fun place margin hmargin => ?_⟩
    have hblock := hread place margin 0 [] hmargin hindent .nothing
    rw [List.append_nil] at hblock
    rw [hlast, hblock]
    rfl

/-! ## The last entry of a document -/

open Scan

/-- A text of several lines is read as one scalar at the end of a document. -/
theorem Spot.readsPart_valueText {spot : Spot} {s : String} {indent : Nat}
    (hs : Text.OrdinaryChars s.toList) (hlines : '\n' ∈ s.toList)
    (hindent : spot.column 0 < indent) :
    ∃ body, (valueText s indent).toList = ' ' :: body ∧
      spot.ReadsPart body [] (valueStyle s) (lastText s) := by
  have hpermitted : ∀ {body}, (valueText s indent).toList = ' ' :: body → Permitted body :=
    fun h c hc => permitted_valueText indent hs c (h ▸ List.mem_cons_of_mem _ hc)
  -- A text that no block carries is written on one line, its line feeds escaped.
  unfold valueStyle
  split
  · rename_i hblock
    have hvalue : valueText s indent = literal s.toList indent := if_pos hblock
    have hfits := (Bool.and_eq_true_iff.1 hblock).2
    obtain ⟨written, hwritten, hread⟩ := blockScalar?_literal_end (Nat.zero_lt_of_lt hindent) hs
      hfits (List.ne_nil_of_mem hlines)
    rw [← hvalue] at hwritten
    refine ⟨_, hwritten, hpermitted hwritten, fun place log margins keyAllowed hplace => ?_⟩
    have hblock := hread (place.forward 1) (spot.column 0 + 1) hindent
    refine ⟨(place.forward 1).after ('|' :: written), ⟨?_, ?_⟩, ?_⟩
    · rw [Place.after_index]
      exact Nat.lt_of_lt_of_le (Nat.succ_pos place.index) (Nat.le_add_right _ _)
    · have hcolumn := after_literal_column s.toList indent place
      rwa [← hvalue, hwritten] at hcolumn
    · rw [List.append_nil, result_literal hblock (Nat.le_succ_of_le (Nat.le_succ_of_le hplace)),
        String.ofList_toList]
      rfl
  · rename_i hblock
    have hvalue : valueText s indent = " " ++ inline s ++ "\n" := if_neg hblock
    have hwritten : (valueText s indent).toList = ' ' :: ((inline s).toList ++ ['\n']) := by
      rw [hvalue]
      simp [String.toList_append]
    have hlast : lastText s = s := by
      refine if_neg ?_
      rintro rfl
      exact hblock (by decide)
    rw [hlast]
    exact ⟨_, hwritten, readsPart_written (inline_of_ordinary hs) hs (permitted_inline hs) rfl⟩

theorem ofScalar?_valueStyle {s read : String} (hlines : '\n' ∈ s.toList) :
    Value.ofScalar? none (valueStyle s) read = some (.text read) := by
  have hstyle : (valueStyle s == .plain) = false := by
    have hcontrol : (s.toList.any fun c => Text.isControl c && c != '\t') = true :=
      List.any_eq_true.2 ⟨_, hlines, by decide⟩
    unfold valueStyle inlineStyle
    split <;> rfl
  rw [Value.ofScalar?, hstyle]
  rfl

/-- A text of several lines that stands last in a document, in lines that are indented right of its
entry, is read back as it is, but for a line feed alone.  For that the document must be readable
with some text there. -/
theorem Spot.valueText_read {spot : Spot} (hspot : spot.WellFormed) (hkey : spot.isKey = false)
    {p : String} (hp : Text.OrdinaryChars p.toList)
    (h : (Value.ofText? (spot.text p 0 0)).isSome = true) :
    ∃ around : Around Value spot, Value.ofText? (spot.text p 0 0) = some (around.fill values p) ∧
      ∀ (s : String) (indent : Nat), Text.OrdinaryChars s.toList → '\n' ∈ s.toList →
        spot.column 0 < indent →
          Value.ofText? (spot.lead 0 0 ++ (valueText s indent).toList) =
            some (around.fill values (lastText s)) := by
  rw [← List.append_nil (spot.text p 0 0)] at h ⊢
  obtain ⟨around, hp, hread⟩ := Spot.part_read hkey hspot (endsBefore_eq hkey 0 []) hp h
  refine ⟨around, hp, fun s indent hs hlines hindent => ?_⟩
  obtain ⟨body, hbody, hpart⟩ := readsPart_valueText hs hlines hindent
  have hvalue := hread _ _ _ hpart
  rw [List.append_nil, ofScalar?_valueStyle hlines] at hvalue
  rw [hbody, hvalue]
  exact congrArg some (around.put_text values _)

/-- Different texts at a spot make different values. -/
theorem Around.fill_injective {spot : Spot} (around : Around Value spot) :
    Function.Injective (around.fill values) := by
  have hbeside : ∀ {o : Opening} (beside : Beside Value o),
      Function.Injective (beside.fill values) := by
    intro o beside a b heq
    cases beside <;> simpa [Beside.fill, values] using heq
  induction around with
  | key above under below =>
    intro a b heq
    simpa [fill, values] using heq
  | behind beside =>
    intro a b heq
    exact Value.text.inj (hbeside beside heq)
  | inside beside within ih => exact fun a b heq => ih (hbeside beside heq)

/-- It is read back as it is exactly if it is no line feed alone. -/
theorem Spot.valueText_reads_back_iff {spot : Spot} (hspot : spot.WellFormed)
    (hkey : spot.isKey = false) {p : String} (hp : Text.OrdinaryChars p.toList)
    (h : (Value.ofText? (spot.text p 0 0)).isSome = true) :
    ∃ around : Around Value spot, Value.ofText? (spot.text p 0 0) = some (around.fill values p) ∧
      ∀ (s : String) (indent : Nat), Text.OrdinaryChars s.toList → '\n' ∈ s.toList →
        spot.column 0 < indent →
          (Value.ofText? (spot.lead 0 0 ++ (valueText s indent).toList) =
            some (around.fill values s) ↔ s ≠ "\n") := by
  obtain ⟨around, hp, hread⟩ := valueText_read hspot hkey hp h
  refine ⟨around, hp, fun s indent hs hlines hindent => ?_⟩
  rw [hread s indent hs hlines hindent, Option.some_inj, around.fill_injective.eq_iff, lastText]
  split
  · rename_i heq
    rw [heq]
    decide
  · rename_i hne
    exact iff_of_true rfl hne

/-- The command of the first step. -/
def firstRun : Spot :=
  .inside (.colon 0 [] "steps") (.inside (.dash 0 []) (.behind (.colon 0 [] "run")))

/-- Blank and indented lines and line feeds at the end are read back there. -/
theorem valueText_reads_back_firstRun :
    firstRun.WellFormed ∧ firstRun.isKey = false ∧ Text.OrdinaryChars "x".toList ∧
      (Value.ofText? (firstRun.text "x" 0 0)).isSome = true ∧
      ∃ around : Around Value firstRun,
        Value.ofText? (firstRun.text "x" 0 0) = some (around.fill values "x") ∧
        Value.ofText? (firstRun.lead 0 0 ++ (valueText "\n  make\n \n\ttest\n\n" 6).toList) =
          some (around.fill values "\n  make\n \n\ttest\n\n") := by
  have hlines : Sound 1 (.fields []) := .fields nofun nofun .nil nofun
  have hitems : Sound 1 (.list []) := .list nofun nofun
  have hspot : firstRun.WellFormed :=
    ⟨⟨⟨1, hlines⟩, by decide⟩, ⟨1, hitems⟩, ⟨1, hlines⟩, by decide⟩
  have hx : Text.OrdinaryChars "x".toList := by decide
  have hread : (Value.ofText? (firstRun.text "x" 0 0)).isSome = true := by decide +kernel
  obtain ⟨around, hfill, hiff⟩ := firstRun.valueText_reads_back_iff hspot rfl hx hread
  exact ⟨hspot, rfl, hx, hread, around, hfill,
    (hiff _ 6 (by decide) (by decide) (by decide)).2 (by decide)⟩

/-- A line feed alone as the value of a key is read as the empty text. -/
theorem textAt?_lineFeed :
    (Node.ofYaml? ("separator:" ++ valueText "\n" 2)).bind (·.textAt? "separator") = some "" := by
  decide +kernel

end Outline
end CiPipelines
