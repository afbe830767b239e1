import CiPipelines.Proofs.JenkinsLines

/-!
# Commands of a Jenkinsfile are read back

A command of several lines stands between fences, each of its lines behind the indentation of its
place.  Reading takes away the indentation that all lines share: that of the place, and with it what
the lines share of their own.  So a command comes back in a normal form, and one of a single line as
it is, but for line feeds at its end.
-/

namespace CiPipelines
namespace Jenkins

/-! ## Shared indentation -/

/-- How many characters of white space a line starts with. -/
def indentation (l : List Char) : Nat := (l.takeWhile Text.isSpace).length

/-- The indentation that all lines share, but for blank ones. -/
def sharedIndentation (ls : List (List Char)) : Nat :=
  (((ls.filter fun l => !Text.isBlank l).map indentation).min?).getD 0

theorem dedent_eq (ls : List (List Char)) :
    dedent ls = ls.map fun l => if Text.isBlank l then [] else l.drop (sharedIndentation ls) := rfl

theorem mem_indentations {ls : List (List Char)} {n : Nat} :
    n ∈ (ls.filter fun l => !Text.isBlank l).map indentation ↔
      ∃ l ∈ ls, Text.isBlank l = false ∧ indentation l = n := by
  simp [and_assoc]

/-- The shared indentation is the least one of all lines that are not blank. -/
theorem sharedIndentation_eq_iff {ls : List (List Char)} (h : ∃ l ∈ ls, Text.isBlank l = false)
    (n : Nat) : sharedIndentation ls = n ↔
      (∃ l ∈ ls, Text.isBlank l = false ∧ indentation l = n) ∧
        ∀ l ∈ ls, Text.isBlank l = false → n ≤ indentation l := by
  obtain ⟨l, hl, hfull⟩ := h
  have hsome : ∃ m, ((ls.filter fun l => !Text.isBlank l).map indentation).min? = some m := by
    have hmem := mem_indentations.2 ⟨l, hl, hfull, rfl⟩
    exact Option.isSome_iff_exists.1 (List.isSome_min?_of_mem hmem)
  obtain ⟨m, hmin⟩ := hsome
  have hshared : sharedIndentation ls = n ↔
      ((ls.filter fun l => !Text.isBlank l).map indentation).min? = some n := by
    rw [sharedIndentation, hmin]
    simp
  rw [hshared, List.min?_eq_some_iff, mem_indentations]
  refine and_congr_right fun _ => ⟨fun hle l hl hfull => ?_, fun hle b hb => ?_⟩
  · exact hle _ (mem_indentations.2 ⟨l, hl, hfull, rfl⟩)
  · obtain ⟨l, hl, hfull, rfl⟩ := mem_indentations.1 hb
    exact hle l hl hfull

theorem sharedIndentation_le {ls : List (List Char)} {l : List Char} (hl : l ∈ ls)
    (hfull : Text.isBlank l = false) : sharedIndentation ls ≤ indentation l :=
  ((sharedIndentation_eq_iff ⟨l, hl, hfull⟩ _).1 rfl).2 l hl hfull

/-! ## Lines between fences -/

/-- A line of a command as it stands between fences. -/
def fencedLine (width : Nat) (l : List Char) : List Char :=
  if Text.isBlank l then [] else List.replicate width ' ' ++ escape l

theorem dropWhile_escape (text : List Char) :
    (escape text).dropWhile Text.isSpace = escape (text.dropWhile Text.isSpace) := by
  induction text with
  | nil => rfl
  | cons c rest ih =>
    by_cases hspace : Text.isSpace c = true
    · rw [escape_cons_of_isSpace hspace, List.dropWhile_cons, List.dropWhile_cons, hspace,
        if_pos rfl, if_pos rfl, ih]
    · rw [List.dropWhile_cons, if_neg hspace, escape]
      split
      · rfl
      · rw [List.dropWhile_cons, if_neg hspace]

theorem isBlank_escape (text : List Char) : Text.isBlank (escape text) = Text.isBlank text := by
  induction text with
  | nil => rfl
  | cons c rest ih =>
    by_cases hspace : Text.isSpace c = true
    · rw [escape_cons_of_isSpace hspace, Text.isBlank, Text.isBlank, List.all_cons, List.all_cons]
      exact congrArg _ ih
    · have hblank : Text.isBlank (c :: rest) = false := by
        simp [Text.isBlank, Bool.eq_false_iff.2 hspace]
      rw [hblank, escape]
      split
      · rfl
      · simp [Text.isBlank, Bool.eq_false_iff.2 hspace]

section

variable (width : Nat)

theorem isBlank_fencedLine (l : List Char) : Text.isBlank (fencedLine width l) = Text.isBlank l := by
  rw [fencedLine]
  split
  · rename_i hblank
    exact hblank.symm
  · rw [Text.isBlank, List.all_append]
    have hspaces : (List.replicate width ' ').all Text.isSpace = true :=
      List.all_eq_true.2 fun c hc => by rw [List.eq_of_mem_replicate hc]; rfl
    rw [hspaces, Bool.true_and]
    exact isBlank_escape l

variable {l : List Char} (hfull : Text.isBlank l = false)

include hfull

theorem fencedLine_of_full : fencedLine width l = List.replicate width ' ' ++ escape l := by
  rw [fencedLine, hfull, if_neg Bool.false_ne_true]

theorem indentation_fencedLine : indentation (fencedLine width l) = width + indentation l := by
  rw [fencedLine_of_full width hfull, indentation, List.takeWhile_append_of_pos, takeWhile_escape,
    List.length_append, List.length_replicate]
  · rfl
  · intro c hc
    rw [List.eq_of_mem_replicate hc]
    rfl

theorem drop_fencedLine {n : Nat} (h : n ≤ indentation l) :
    (fencedLine width l).drop (width + n) = escape (l.drop n) := by
  rw [fencedLine_of_full width hfull, ← drop_escape h, ← List.drop_drop]
  congr 1
  exact List.drop_left' (by simp)

omit hfull

/-- All that lines share between fences is the indentation of their place and what they shared. -/
theorem sharedIndentation_fencedLines {ls : List (List Char)}
    (h : ∃ l ∈ ls, Text.isBlank l = false) :
    sharedIndentation (ls.map (fencedLine width)) = width + sharedIndentation ls := by
  obtain ⟨⟨least, hleast, hfull, heq⟩, hle⟩ := (sharedIndentation_eq_iff h _).1 rfl
  have hfull' : Text.isBlank (fencedLine width least) = false := by rw [isBlank_fencedLine, hfull]
  refine (sharedIndentation_eq_iff ⟨_, List.mem_map_of_mem hleast, hfull'⟩ _).2 ⟨?_, ?_⟩
  · exact ⟨_, List.mem_map_of_mem hleast, hfull', by rw [indentation_fencedLine width hfull, heq]⟩
  · intro _ hmem hfull
    obtain ⟨l, hl, rfl⟩ := List.mem_map.1 hmem
    rw [isBlank_fencedLine] at hfull
    rw [indentation_fencedLine width hfull]
    exact Nat.add_le_add_left (hle l hl hfull) width

/-- Lines between fences lose the indentation of their place. -/
theorem dedent_fencedLines (ls : List (List Char)) :
    dedent (ls.map (fencedLine width)) = (dedent ls).map escape := by
  rw [dedent_eq, dedent_eq, List.map_map, List.map_map]
  refine List.map_congr_left fun l hl => ?_
  simp only [Function.comp_apply, isBlank_fencedLine]
  split
  · rfl
  · rename_i hfull
    rw [Bool.not_eq_true] at hfull
    rw [sharedIndentation_fencedLines width ⟨l, hl, hfull⟩]
    exact drop_fencedLine width hfull (sharedIndentation_le hl hfull)

/-- No line of a command closes its fence: its quotes are escaped. -/
theorem closes_fencedLine (l : List Char) : Fence.single.closes (fencedLine width l) = false := by
  rw [Fence.closes, fencedLine]
  split
  · rfl
  · rw [skipSpace, dropWhile_replicate_append, dropWhile_escape, ← Bool.not_eq_true,
      List.isPrefixOf_iff_prefix]
    rintro ⟨rest, hrest⟩
    exact head?_escape _ (by rw [← hrest]; rfl)

end

theorem escape_intercalate (ls : List (List Char)) :
    escape (['\n'].intercalate ls) = ['\n'].intercalate (ls.map escape) := by
  induction ls with
  | nil => rfl
  | cons l ls ih =>
    cases ls with
    | nil => simp [List.intercalate]
    | cons next ls =>
      simp only [List.map_cons] at ih ⊢
      rw [List.intercalate_cons_cons, escape_append, escape_append, ih,
        List.intercalate_cons_cons]
      rfl

/-- Lines that do not close a command are lines of it. -/
theorem foldl_readLine_command {fence : Fence} {ls : List (List Char)}
    (h : ∀ l ∈ ls, fence.closes l = false) (c : Contents) (before : List (List Char)) :
    ls.foldl Contents.readLine { c with mode := .command fence before } =
      { c with mode := .command fence (ls.reverse ++ before) } := by
  induction ls generalizing before with
  | nil => rfl
  | cons l ls ih =>
    have hread : Contents.readLine { c with mode := .command fence before } l =
        { c with mode := .command fence (l :: before) } := by
      rw [Contents.readLine]
      dsimp only
      rw [h l (List.mem_cons_self ..), if_neg Bool.false_ne_true]
    rw [List.foldl_cons, hread, ih fun other hother => h other (List.mem_cons_of_mem _ hother),
      List.reverse_cons, List.append_assoc]
    rfl

/-! ## Commands -/

/-- A command as it is read back: without line feeds at its end, and if it still has several lines,
without the indentation that they share and with blank ones empty. -/
def normalCommand (command : String) : List Char :=
  let text := Text.dropEndWhile (· == '\n') command.toList
  if text.contains '\n' then ['\n'].intercalate (dedent (Text.lines text)) else text

/-- A text that is not blank keeps a character in front of the line feeds at its end. -/
theorem exists_dropEndWhile {text : List Char} (h : Text.isBlank text = false) :
    ∃ before c, Text.dropEndWhile (· == '\n') text = before ++ [c] ∧ c ≠ '\n' ∧
      before ++ [c] <+: text := by
  -- A text of line feeds alone would be blank.
  have hkept : text.rdropWhile (· == '\n') ≠ [] := by
    rw [Ne, List.rdropWhile_eq_nil_iff]
    intro hfeeds
    have hblank : Text.isBlank text = true := by
      refine List.all_eq_true.2 fun c hc => ?_
      rw [eq_of_beq (hfeeds c hc)]
      rfl
    exact absurd hblank (by rw [h]; decide)
  have hparts := List.dropLast_concat_getLast hkept
  refine ⟨_, _, hparts.symm, ?_, ?_⟩
  · exact fun hfeed => List.rdropWhile_last_not _ _ hkept (beq_iff_eq.2 hfeed)
  · rw [hparts]
    exact List.rdropWhile_prefix ..

/-- A command of one line is read as it is. -/
theorem reads_shellLine {text : List Char} (hne : text ≠ []) (hfeed : '\n' ∉ text) (level : Nat) :
    Reads (line level ("sh " ++ quote (String.ofList text))) fun c => c.addCommand text := by
  have hlist : ("sh " ++ quote (String.ofList text)).toList = shellLine text := by
    rw [String.toList_append, quote_toList, @String.toList_ofList text]
    exact (List.append_assoc ["s".toList, "h ".toList].flatten ('\'' :: escape text) ['\'']).symm
  refine reads_line level ?_ fun c hmode => ⟨?_, rfl⟩
  · rw [hlist, shellLine]
    intro hmem
    rcases List.mem_append.1 hmem with hmem | hmem
    · rcases List.mem_append.1 hmem with hmem | hmem
      · exact absurd hmem (by decide)
      · rcases mem_escape hmem with hmem | hmem
        · exact hfeed hmem
        · exact absurd hmem (by decide)
    · exact absurd hmem (by decide)
  · have hlast : (shellLine text).getLast? = some '\'' := List.getLast?_concat ..
    rw [hlist, @trim_line _ 's' '\'' rfl hlast (by decide), ← readShell_shellLine hne]
    cases c with
    | mk mode commands environment image => cases image <;> rfl

/-- A line of a command between fences holds no character that the line did not hold. -/
theorem not_mem_fencedLine {c : Char} (hc : c ≠ ' ' ∧ c ≠ '\\') {l : List Char} (h : c ∉ l)
    (width : Nat) : c ∉ fencedLine width l := by
  intro hmem
  rw [fencedLine] at hmem
  split at hmem
  · exact absurd hmem List.not_mem_nil
  · rcases List.mem_append.1 hmem with hmem | hmem
    · exact hc.1 (List.eq_of_mem_replicate hmem)
    · exact (mem_escape hmem).elim h hc.2

theorem fencedLine_toList (level : Nat) (l : List Char) :
    (if Text.isBlank l then "\n" else line level (String.ofList (escape l))).toList =
      fencedLine (4 * level) l ++ ['\n'] := by
  rw [fencedLine]
  split
  · rfl
  · rw [line_toList, @String.toList_ofList (escape l)]

/-- The lines of a command between fences are read as its normal form. -/
theorem reads_fencedLines {ls : List (List Char)} (hfeed : ∀ l ∈ ls, '\n' ∉ l)
    (hreturn : ∀ l ∈ ls, '\r' ∉ l) (level : Nat) :
    Reads (line level "sh '''"
        ++ String.join (ls.map fun l =>
          if Text.isBlank l then "\n" else line (level + 1) (String.ofList (escape l)))
        ++ line level "'''") fun c => c.addCommand (['\n'].intercalate (dedent ls)) := by
  -- No line closes the fence, since each quotation mark of the command is escaped.
  have hlines : ∀ l ∈ ls.map (fencedLine (4 * (level + 1))),
      '\n' ∉ l ∧ '\r' ∉ l ∧ Fence.single.closes l = false := by
    intro _ hmem
    obtain ⟨l, hl, rfl⟩ := List.mem_map.1 hmem
    exact ⟨not_mem_fencedLine (by decide) (hfeed l hl) _,
      not_mem_fencedLine (by decide) (hreturn l hl) _, closes_fencedLine _ l⟩
  refine reads_enclosed (ls.map (fencedLine (4 * (level + 1)))) ?_ (fun l hl => (hlines l hl).1)
    (by decide) fun c hmode => ⟨?_, rfl⟩
  · rw [String.toList_join, List.flatMap_map, List.flatMap_map]
    simp only [fencedLine_toList]
  · have hkeep : (ls.map (fencedLine (4 * (level + 1)))).map (Text.dropLastChar '\r') =
        ls.map (fencedLine (4 * (level + 1))) := by
      refine (List.map_congr_left fun l hl => ?_).trans (List.map_id _)
      exact if_neg fun hlast => (hlines l hl).2.1 (List.mem_of_getLast? hlast)
    have hopen : c.readLine (Text.dropLastChar '\r'
        (List.replicate (4 * level) ' ' ++ "sh '''".toList)) =
          { c with mode := .command .single [] } := by
      rw [Contents.readLine, hmode]
      dsimp only
      rw [@trim_line _ 's' '\'' rfl rfl (by decide)]
      cases c with
      | mk mode commands environment image => cases image <;> rfl
    have hmark : skipSpace (Text.dropLastChar '\r'
        (List.replicate (4 * level) ' ' ++ "'''".toList)) = "'''".toList := by
      rw [Text.dropLastChar, List.getLast?_append, if_neg (by simp), skipSpace,
        dropWhile_replicate_append]
      rfl
    have hclose : ∀ before : List (List Char), Contents.readLine
        { c with mode := .command .single before }
        (Text.dropLastChar '\r' (List.replicate (4 * level) ' ' ++ "'''".toList)) =
          c.endCommand .single before := by
      intro before
      rw [Contents.readLine]
      dsimp only
      rw [Fence.closes, hmark, if_pos (by decide)]
      rfl
    rw [hopen, hkeep, foldl_readLine_command (fun l hl => (hlines l hl).2.2), hclose,
      List.append_nil, Contents.endCommand, List.reverse_reverse, dedent_fencedLines,
      ← escape_intercalate]
    exact congrArg c.addCommand (unescape_escape _)

/-- A command is read as a step that runs its normal form. -/
theorem reads_commandText {command : String} (hblank : Text.isBlank command.toList = false)
    (hreturn : '\n' ∈ command.toList → '\r' ∉ command.toList) (level : Nat) :
    Reads (commandText level command) fun c => c.addCommand (normalCommand command) := by
  obtain ⟨before, last, hdrop, hlast, hleading⟩ := exists_dropEndWhile hblank
  simp only [commandText, normalCommand, hdrop]
  by_cases hmem : '\n' ∈ before ++ [last]
  · have hseveral : (before ++ [last]).contains '\n' = true := List.contains_iff_mem.2 hmem
    have hnone : '\r' ∉ before ++ [last] := fun h =>
      hreturn (hleading.subset hmem) (hleading.subset h)
    rw [hseveral, if_neg (by decide), if_pos rfl,
      Text.lines_eq_splitOn hnone (by simp) (by simpa using hlast)]
    refine reads_fencedLines ?_ ?_ level
    · intro l hl hfeed
      exact (Text.of_mem_splitOn hl hfeed).2 rfl
    · intro l hl hin
      exact hnone (Text.of_mem_splitOn hl hin).1
  · have hsingle : (before ++ [last]).contains '\n' = false :=
      Bool.eq_false_iff.2 fun h => hmem (List.contains_iff_mem.1 h)
    rw [hsingle, if_pos (by decide), if_neg Bool.false_ne_true]
    exact reads_shellLine (by simp) hmem level

end Jenkins
end CiPipelines
