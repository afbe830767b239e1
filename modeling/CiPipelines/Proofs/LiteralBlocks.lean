import CiPipelines.Proofs.Lines
import CiPipelines.Proofs.Places
import CiPipelines.Outline.Scalar
import Mathlib.Data.Option.Basic

/-!
# Literal blocks in context

The lines of a literal block, indented by the same number of spaces, are read back as they are.
What a block holds is followed through its lines by `BlockText.content`, the text with all the line
breaks that have been read; the header decides how many of the last ones stay.
-/

namespace CiPipelines
namespace Yaml

/-- A line of a literal block; an empty one is not indented. -/
def blockLine (indent : Nat) (line : List Char) : List Char :=
  if line.isEmpty then ['\n'] else List.replicate indent ' ' ++ line ++ ['\n']

/-- The lines of a literal block. -/
def blockLines (indent : Nat) (lines : List (List Char)) : List Char :=
  lines.flatMap (blockLine indent)

@[simp] theorem blockLines_cons (indent : Nat) (line : List Char) (lines : List (List Char)) :
    blockLines indent (line :: lines) = blockLine indent line ++ blockLines indent lines := rfl

/-- The end of a line leads to the next one. -/
theorem after_blockLine_column (place : Place) (indent : Nat) (line : List Char) :
    (place.after (blockLine indent line)).column = 0 := by
  unfold blockLine
  split
  · rfl
  · rw [Place.after_concat_lineFeed]
    rfl

theorem after_blockLines_column {place : Place} (indent : Nat) (lines : List (List Char))
    (h : place.column = 0) : (place.after (blockLines indent lines)).column = 0 := by
  induction lines generalizing place with
  | nil => exact h
  | cons line lines ih =>
    rw [blockLines_cons, Place.after_append]
    exact ih (after_blockLine_column place indent line)

namespace BlockText

/-- What has been read, with all line breaks. -/
def content (b : BlockText) : List Char := b.read.reverse ++ (b.lineEnd ++ b.emptyLines)

/-- The block after one more line. -/
def addLine (b : BlockText) : List Char → BlockText
  | [] => { b with emptyLines := b.emptyLines ++ ['\n'] }
  | c :: line =>
    ⟨line.reverse ++ c :: ((b.lineEnd ++ b.emptyLines).reverse ++ b.read), ['\n'], isBlank c, [],
      false⟩

/-- A line adds itself and its break. -/
theorem content_addLine (b : BlockText) (line : List Char) :
    (b.addLine line).content = b.content ++ line ++ ['\n'] := by
  cases line <;> simp [addLine, content]

@[simp] theorem inLine_addLine {b : BlockText} (line : List Char) (h : b.inLine = false) :
    (b.addLine line).inLine = false := by
  cases line
  · exact h
  · rfl

/-- After some lines all of them are there, each with its break. -/
theorem content_foldl_addLine (b : BlockText) (lines : List (List Char)) :
    (lines.foldl addLine b).content = b.content ++ lines.flatMap (· ++ ['\n']) := by
  induction lines generalizing b with
  | nil => simp
  | cons line lines ih => simp [ih, content_addLine]

theorem inLine_foldl_addLine {b : BlockText} (lines : List (List Char)) (h : b.inLine = false) :
    (lines.foldl addLine b).inLine = false := by
  induction lines generalizing b with
  | nil => exact h
  | cons line lines ih => exact ih (inLine_addLine line h)

end BlockText

/-- The characters of a line after its first one. -/
theorem readBlockLines_inLine {block : BlockText} (indent : Nat) (place : Place) {line : List Char}
    (rest : List Char) (hline : ∀ c ∈ line, isBreak c = false) (hin : block.inLine = true) :
    readBlockLines false indent block place (line ++ '\n' :: rest) =
      readBlockLines false indent
        { block with read := line.reverse ++ block.read, lineEnd := ['\n'], inLine := false }
        ((place.forward line.length).newLine 1) rest := by
  induction line generalizing block place with
  | nil =>
    rw [List.nil_append, readBlockLines.eq_3 _ _ _ _ _ _ fun _ h => absurd h (by decide),
      if_pos (by decide)]
    simp [BlockText.addBreak, hin, breakText]
  | cons c line ih =>
    have hbreak : isBreak c = false := hline c (List.mem_cons_self ..)
    rw [List.cons_append, readBlockLines.eq_3 _ _ _ _ _ _
      fun _ h => absurd h (ne_carriageReturn_of_isBreak hbreak), if_neg (by simp [hbreak]),
      if_pos hin]
    refine (@ih (block.add c) (place.forward 1)
      (fun d hd => hline d (List.mem_cons_of_mem _ hd)) hin).trans ?_
    simp [BlockText.add, Nat.add_comm]

/-- A line whose indentation has been read. -/
theorem readBlockLines_text {block : BlockText} {indent : Nat} {place : Place} {c : Char}
    {line : List Char} (rest : List Char) (hline : ∀ d ∈ c :: line, isBreak d = false)
    (hin : block.inLine = false) (hplace : place.column = indent) :
    readBlockLines false indent block place (c :: line ++ '\n' :: rest) =
      readBlockLines false indent (block.addLine (c :: line))
        ((place.forward (line.length + 1)).newLine 1) rest := by
  have hbreak : isBreak c = false := hline c (List.mem_cons_self ..)
  rw [List.cons_append, readBlockLines.eq_3 _ _ _ _ _ _
    fun _ h => absurd h (ne_carriageReturn_of_isBreak hbreak), if_neg (by simp [hbreak]),
    if_neg (by simp [hin]), if_neg (by omega), if_pos (by simpa using hplace)]
  refine (readBlockLines_inLine indent _ rest
    (fun d hd => hline d (List.mem_cons_of_mem _ hd)) rfl).trans ?_
  simp [BlockText.startLine, BlockText.addLine, Nat.add_comm]

/-- The indentation of a line. -/
theorem readBlockLines_spaces {block : BlockText} (indent n : Nat) (place : Place)
    (rest : List Char) (hin : block.inLine = false) (hplace : place.column + n ≤ indent) :
    readBlockLines false indent block place (List.replicate n ' ' ++ rest) =
      readBlockLines false indent block (place.forward n) rest := by
  induction n generalizing place with
  | zero => rfl
  | succ n ih =>
    have hnext : (place.forward 1).column + n ≤ indent := by
      simp only [Place.forward]
      omega
    rw [List.replicate_succ, List.cons_append,
      readBlockLines.eq_3 _ _ _ _ _ _ fun _ h => absurd h (by decide), if_neg (by decide),
      if_neg (by simp [hin]), if_pos (by omega), if_pos (by decide), ih _ hnext,
      Place.forward_forward, Nat.add_comm]

/-- A line of a block. -/
theorem readBlockLines_blockLine {block : BlockText} {indent : Nat} {place : Place}
    {line : List Char} (rest : List Char) (hline : ∀ c ∈ line, isBreak c = false)
    (hin : block.inLine = false) (hplace : place.column = 0) :
    readBlockLines false indent block place (blockLine indent line ++ rest) =
      readBlockLines false indent (block.addLine line) (place.after (blockLine indent line))
        rest := by
  cases line with
  | nil =>
    show readBlockLines false indent block place ('\n' :: rest) = _
    rw [readBlockLines.eq_3 _ _ _ _ _ _ fun _ h => absurd h (by decide), if_pos (by decide)]
    simp [BlockText.addBreak, BlockText.addLine, hin, blockLine, breakText, Place.next_lineFeed]
  | cons c line =>
    have hplaces : place.after (blockLine indent (c :: line)) =
        ((place.forward indent).forward (line.length + 1)).newLine 1 := by
      rw [blockLine, if_neg (by simp), Place.after_concat_lineFeed, Place.after_append,
        Place.after_spaces, Place.after_eq_forward _ fun d hd => ne_lineFeed_of_isBreak (hline d hd),
        List.length_cons]
    have hsplit : blockLine indent (c :: line) ++ rest =
        List.replicate indent ' ' ++ (c :: line ++ '\n' :: rest) := by
      simp [blockLine]
    rw [hsplit, readBlockLines_spaces indent indent place _ hin (by omega),
      readBlockLines_text rest hline hin (by simp [Place.forward, hplace]), hplaces]

/-- The lines of a block. -/
theorem readBlockLines_blockLines {block : BlockText} {indent : Nat} {place : Place}
    {lines : List (List Char)} (rest : List Char)
    (hlines : ∀ line ∈ lines, ∀ c ∈ line, isBreak c = false) (hin : block.inLine = false)
    (hplace : place.column = 0) :
    readBlockLines false indent block place (blockLines indent lines ++ rest) =
      readBlockLines false indent (lines.foldl BlockText.addLine block)
        (place.after (blockLines indent lines)) rest := by
  induction lines generalizing block place with
  | nil => rfl
  | cons line lines ih =>
    rw [blockLines_cons, List.append_assoc,
      readBlockLines_blockLine _ (hlines line (List.mem_cons_self ..)) hin hplace,
      ih (fun l hl => hlines l (List.mem_cons_of_mem _ hl)) (BlockText.inLine_addLine line hin)
        (after_blockLine_column place indent line), Place.after_append]
    rfl

/-- A block ends before a line whose text is left of its indentation.  Empty lines in between
count, but leave the last line with text as it is. -/
theorem readBlockLines_following {block : BlockText} {indent limit : Nat} {text : List Char}
    (place : Place) (h : StartsWithin limit text) (hlimit : limit < indent)
    (hin : block.inLine = false) (hplace : place.column = 0) :
    ∃ emptyLines, readBlockLines false indent block place text =
      some ({ block with emptyLines }, toFirstText place text) := by
  -- On the empty lines that come first.
  induction h generalizing block place with
  | nothing => exact ⟨block.emptyLines, rfl⟩
  | emptyLine _ ih =>
    rw [readBlockLines.eq_3 _ _ _ _ _ _ fun _ h => absurd h (by decide), if_pos (by decide),
      toFirstText_lineFeed]
    obtain ⟨emptyLines, h⟩ := @ih (block.addBreak (breakText '\n')) (place.newLine 1)
      (by simp [BlockText.addBreak, hin]) rfl
    exact ⟨emptyLines, by simpa [BlockText.addBreak, hin] using h⟩
  | @text column c rest hcolumn hblank hbreak _ =>
    have hleft : (place.forward column).column < indent := by
      simp only [Place.forward, hplace]
      omega
    refine ⟨block.emptyLines, ?_⟩
    rw [readBlockLines_spaces indent column place _ hin (by omega),
      readBlockLines.eq_3 _ _ _ _ _ _ fun _ h => absurd h (ne_carriageReturn_of_isBreak hbreak),
      toFirstText_spaces, toFirstText_text _ _ hblank hbreak, if_neg (by simp [hbreak]),
      if_neg (by simp [hin]), if_pos hleft, if_neg (by simpa using ne_space_of_isBlank hblank),
      if_neg (by simpa using ne_tab_of_isBlank hblank)]

/-- The empty lines in front of the first text, and its indentation. -/
theorem readLeadingLines_text (breaks : List Char) (place : Place) (k n : Nat) {c : Char}
    (rest : List Char) (hblank : isBlank c = false) (hbreak : isBreak c = false)
    (hplace : place.column = 0) :
    readLeadingLines breaks 0 place
        (List.replicate k '\n' ++ (List.replicate n ' ' ++ c :: rest)) =
      some ⟨breaks ++ List.replicate k '\n', n,
        ⟨c :: rest, (place.after (List.replicate k '\n')).forward n⟩⟩ := by
  induction k generalizing breaks place with
  | zero =>
    have hspaces : ∀ (m : Nat) (p : Place),
        readLeadingLines breaks 0 p (List.replicate m ' ' ++ c :: rest) =
          some ⟨breaks, p.column + m, ⟨c :: rest, p.forward m⟩⟩ := by
      intro m
      induction m with
      | zero =>
        intro p
        rw [List.replicate_zero, List.nil_append, readLeadingLines.eq_3 _ _ _ _ _
          fun _ h => absurd h (ne_carriageReturn_of_isBreak hbreak),
          if_neg (by simpa using ne_space_of_isBlank hblank),
          if_neg (by simpa using ne_tab_of_isBlank hblank), if_neg (by simp [hbreak])]
        simp
      | succ m ih =>
        intro p
        rw [List.replicate_succ, List.cons_append,
          readLeadingLines.eq_3 _ _ _ _ _ fun _ h => absurd h (by decide), if_pos (by decide),
          ih (p.forward 1), Place.forward_forward]
        simp [Place.forward, Nat.add_comm, Nat.add_left_comm]
    simpa [hplace] using hspaces n place
  | succ k ih =>
    rw [List.replicate_succ, List.cons_append,
      readLeadingLines.eq_3 _ _ _ _ _ fun _ h => absurd h (by decide), if_neg (by decide),
      if_neg (by decide), if_pos (by decide), hplace, Nat.max_self]
    refine (ih (breaks ++ ['\n']) (place.newLine 1) rfl).trans ?_
    simp [Place.next_lineFeed]

/-- The indicator of a chomping in the header of a block. -/
def Chomping.mark : Chomping → List Char
  | strip => ['-']
  | clip => []
  | keep => ['+']

theorem blockHeader?_mark (chomping : Chomping) (rest : List Char) :
    blockHeader? (chomping.mark ++ '\n' :: rest) = some (⟨chomping, none⟩, '\n' :: rest) := by
  cases chomping <;> rfl

theorem blockLines_append (indent : Nat) (a b : List (List Char)) :
    blockLines indent (a ++ b) = blockLines indent a ++ blockLines indent b :=
  List.flatMap_append

/-- Empty lines are line feeds. -/
theorem blockLines_replicate_nil (indent k : Nat) :
    blockLines indent (List.replicate k []) = List.replicate k '\n' := by
  induction k with
  | zero => rfl
  | succ k ih =>
    rw [List.replicate_succ, blockLines_cons, ih]
    rfl

/-- Reading on behind a header and its line break. -/
theorem skipHeader (place : Place) (rest : List Char) :
    (⟨'\n' :: rest, place⟩ : Cursor).skipBlanks.skipComment = ⟨'\n' :: rest, place⟩ := by
  simp [Cursor.skipBlanks, Cursor.skipComment, Cursor.span, Cursor.skip, isBlank]

theorem skipBreak_lineFeed (place : Place) (rest : List Char) :
    (⟨'\n' :: rest, place⟩ : Cursor).skipBreak = ⟨rest, place.newLine 1⟩ := by
  simp [Cursor.skipBreak, isBreak]

/-- Empty lines in front of the first text are the ones that a block starts with. -/
theorem foldl_addLine_replicate_nil (k : Nat) (breaks : List Char) :
    (List.replicate k []).foldl BlockText.addLine (.ofLeading breaks) =
      .ofLeading (breaks ++ List.replicate k '\n') := by
  induction k generalizing breaks with
  | zero => simp
  | succ k ih =>
    rw [List.replicate_succ, List.foldl_cons]
    refine (ih (breaks ++ ['\n'])).trans ?_
    rw [List.append_assoc, List.singleton_append, List.replicate_succ]

/-- The header of a literal block is a line of its own. -/
theorem after_mark (chomping : Chomping) (body : List Char) (place : Place) :
    place.after ('|' :: (chomping.mark ++ '\n' :: body)) =
      ((place.forward (chomping.mark.length + 1)).newLine 1).after body := by
  have hmark : ∀ d ∈ '|' :: chomping.mark, d ≠ '\n' := by
    cases chomping <;> simp [Chomping.mark]
  rw [← List.cons_append, Place.after_append, Place.after_eq_forward _ hmark, Place.after_cons,
    Place.next_lineFeed, List.length_cons]

/-- Reading a literal block starts with its header. -/
theorem blockScalar?_mark (chomping : Chomping) (body : List Char) (place : Place) (margin : Nat) :
    Cursor.blockScalar? ⟨'|' :: (chomping.mark ++ '\n' :: body), place⟩ false margin = (do
      let leading ← readLeadingLines [] 0 ((place.forward (chomping.mark.length + 1)).newLine 1) body
      let (block, next) ← readBlockLines false (max leading.column (max margin 1))
        (.ofLeading leading.breaks) leading.next.place leading.next.rest
      return (block.finish chomping, next)) := by
  have hplace : (place.forward 1).forward ((chomping.mark ++ '\n' :: body).length -
      ('\n' :: body).length) = place.forward (chomping.mark.length + 1) := by
    rw [Place.forward_forward, List.length_append, Nat.add_sub_cancel, Nat.add_comm]
  unfold Cursor.blockScalar?
  simp only [Cursor.skip, List.drop_succ_cons, List.drop_zero, blockHeader?_mark,
    Option.bind_eq_bind, Option.bind_some, hplace, skipHeader, skipBreak_lineFeed]
  rfl

/-- The lines of a literal block with some text are all read, whatever follows them. -/
theorem readBlockLines_all {place : Place} {indent k : Nat} {c : Char} {line : List Char}
    {lines all : List (List Char)} (rest : List Char) (hall : all = List.replicate k [] ++ (c :: line) :: lines)
    (hlines : ∀ l ∈ (c :: line) :: lines, ∀ d ∈ l, isBreak d = false) (hblank : isBlank c = false)
    (hplace : place.column = 0) :
    ∃ leading, readLeadingLines [] 0 place (blockLines indent all ++ rest) = some leading ∧
      leading.column = indent ∧
      readBlockLines false indent (.ofLeading leading.breaks) leading.next.place
          leading.next.rest =
        readBlockLines false indent (all.foldl BlockText.addLine (.ofLeading []))
          (place.after (blockLines indent all)) rest := by
  have hline := hlines _ (List.mem_cons_self ..)
  -- The place of the first text, behind the empty lines and its indentation.
  let first := (place.after (List.replicate k '\n')).forward indent
  have hcolumn : first.column = indent := by
    have hzero : (place.after (List.replicate k '\n')).column = 0 := by
      rw [← blockLines_replicate_nil indent]
      exact after_blockLines_column indent _ hplace
    simp [first, Place.forward, hzero]
  have hsplit : blockLines indent all ++ rest = List.replicate k '\n' ++
      (List.replicate indent ' ' ++ (c :: line ++ '\n' :: (blockLines indent lines ++ rest))) := by
    simp [hall, blockLines_append, blockLines_replicate_nil, blockLine]
  have hplaces : ((first.forward (line.length + 1)).newLine 1).after (blockLines indent lines) =
      place.after (blockLines indent all) := by
    rw [hall, blockLines_append, blockLines_replicate_nil, blockLines_cons, Place.after_append,
      Place.after_append, blockLine, if_neg (by simp), Place.after_concat_lineFeed,
      Place.after_append, Place.after_spaces,
      Place.after_eq_forward _ fun d hd => ne_lineFeed_of_isBreak (hline d hd), List.length_cons]
  have hstart : all.foldl BlockText.addLine (.ofLeading []) = lines.foldl BlockText.addLine
      ((BlockText.ofLeading (List.replicate k '\n')).addLine (c :: line)) := by
    rw [hall, List.foldl_append, foldl_addLine_replicate_nil, List.nil_append, List.foldl_cons]
  have hleading : readLeadingLines [] 0 place (blockLines indent all ++ rest) =
      some ⟨List.replicate k '\n', indent,
        ⟨c :: line ++ '\n' :: (blockLines indent lines ++ rest), first⟩⟩ := by
    rw [hsplit]
    exact readLeadingLines_text [] place k indent _ hblank (hline c (List.mem_cons_self ..)) hplace
  refine ⟨_, hleading, rfl, ?_⟩
  calc
    _ = readBlockLines false indent ((BlockText.ofLeading (List.replicate k '\n')).addLine
          (c :: line)) ((first.forward (line.length + 1)).newLine 1)
          (blockLines indent lines ++ rest) :=
      readBlockLines_text _ hline rfl hcolumn
    _ = _ := by
      rw [readBlockLines_blockLines rest (fun l hl => hlines l (List.mem_cons_of_mem _ hl)) rfl rfl,
        hplaces, hstart]

/-- They are read up to the line that follows them, if that is indented less. -/
theorem readBlockLines_body {place : Place} {indent limit k : Nat} {c : Char}
    {line rest : List Char} {lines all : List (List Char)}
    (hall : all = List.replicate k [] ++ (c :: line) :: lines)
    (hlines : ∀ l ∈ (c :: line) :: lines, ∀ d ∈ l, isBreak d = false) (hblank : isBlank c = false)
    (hlimit : limit < indent) (hrest : StartsWithin limit rest) (hplace : place.column = 0) :
    ∃ leading emptyLines,
      readLeadingLines [] 0 place (blockLines indent all ++ rest) = some leading ∧
      leading.column = indent ∧
      readBlockLines false indent (.ofLeading leading.breaks) leading.next.place
          leading.next.rest =
        some ({ all.foldl BlockText.addLine (.ofLeading []) with emptyLines },
          toFirstText (place.after (blockLines indent all)) rest) := by
  have hin : (all.foldl BlockText.addLine (.ofLeading [])).inLine = false :=
    BlockText.inLine_foldl_addLine all rfl
  obtain ⟨leading, hleading, hcolumn, hread⟩ := readBlockLines_all rest hall hlines hblank hplace
  obtain ⟨emptyLines, hend⟩ := readBlockLines_following (place.after (blockLines indent all)) hrest
    hlimit hin (after_blockLines_column indent all hplace)
  exact ⟨leading, emptyLines, hleading, hcolumn, hread.trans hend⟩

/-- A literal block with some text is read with all its lines; the header decides about the breaks
at its end. -/
theorem blockScalar?_block (place : Place) {margin indent limit k : Nat} (chomping : Chomping)
    {c : Char} {line rest : List Char} {lines all : List (List Char)}
    (hall : all = List.replicate k [] ++ (c :: line) :: lines)
    (hlines : ∀ l ∈ (c :: line) :: lines, ∀ d ∈ l, isBreak d = false) (hblank : isBlank c = false)
    (hindent : 0 < indent) (hmargin : margin ≤ indent) (hlimit : limit < indent)
    (hrest : StartsWithin limit rest) :
    ∃ emptyLines, Cursor.blockScalar?
        ⟨'|' :: (chomping.mark ++ '\n' :: (blockLines indent all ++ rest)), place⟩ false margin =
      some (BlockText.finish { all.foldl BlockText.addLine (.ofLeading []) with emptyLines }
          chomping,
        toFirstText (place.after ('|' :: (chomping.mark ++ '\n' :: blockLines indent all))) rest) := by
  obtain ⟨leading, emptyLines, hleading, hcolumn, hbody⟩ := readBlockLines_body hall hlines
    hblank hlimit hrest
    (rfl : ((place.forward (chomping.mark.length + 1)).newLine 1).column = 0)
  have hmax : max leading.column (max margin 1) = indent := by omega
  refine ⟨emptyLines, ?_⟩
  rw [blockScalar?_mark, hleading]
  simp only [Option.bind_eq_bind, Option.bind_some, hmax, hbody, after_mark]
  rfl

/-- What a block holds after the lines of a text that does not end in a line feed: the text. -/
theorem read_foldl_addLine {text : List Char} (hne : text ≠ [])
    (hend : text.getLast? ≠ some '\n') :
    let block := (text.splitOn '\n').foldl BlockText.addLine (.ofLeading [])
    block.read.reverse = text ∧ block.lineEnd = ['\n'] := by
  intro block
  obtain ⟨lines, last, hsplit, hlast⟩ := Text.splitOn_eq_concat hne hend
  have hcontent : block.content = text ++ ['\n'] := by
    have h := BlockText.content_foldl_addLine (.ofLeading []) (text.splitOn '\n')
    rw [Text.flatMap_splitOn] at h
    exact h
  have hblock : block = (lines.foldl BlockText.addLine (.ofLeading [])).addLine last := by
    simp only [block, hsplit, List.foldl_append, List.foldl_cons, List.foldl_nil]
  obtain ⟨c, line, rfl⟩ := List.exists_cons_of_ne_nil hlast
  have hlineEnd : block.lineEnd = ['\n'] := by rw [hblock]; rfl
  have hempty : block.emptyLines = [] := by rw [hblock]; rfl
  refine ⟨?_, hlineEnd⟩
  rw [BlockText.content, hlineEnd, hempty] at hcontent
  exact List.append_cancel_right hcontent

end Yaml

namespace Outline

open Yaml

/-- The first line with text of a text that fits a block, and the lines around it. -/
theorem exists_firstLine {text : List Char} {lines : List (List Char)}
    (hlines : Text.lines text = lines) (hfits : fitsBlock text = true)
    (hfull : ∃ line ∈ lines, line ≠ []) :
    ∃ k c line more, lines = List.replicate k [] ++ (c :: line) :: more ∧ isBlank c = false := by
  obtain ⟨full, hmem, hne⟩ := hfull
  have hsome : (lines.find? fun line => !line.isEmpty).isSome := by
    rw [List.find?_isSome]
    exact ⟨full, hmem, by simpa using hne⟩
  obtain ⟨first, hfirst⟩ := Option.isSome_iff_exists.1 hsome
  obtain ⟨hnonempty, before, more, hsplit, hbefore⟩ := List.find?_eq_some_iff_append.1 hfirst
  obtain ⟨c, line, rfl⟩ : ∃ c line, first = c :: line :=
    List.exists_cons_of_ne_nil (by simpa using hnonempty)
  refine ⟨before.length, c, line, more, ?_, ?_⟩
  · have hempty : before = List.replicate before.length [] :=
      List.eq_replicate_iff.2 ⟨rfl, fun l hl => by simpa using hbefore l hl⟩
    rw [hsplit, ← hempty]
  · simp only [fitsBlock, hlines, hfirst, Bool.and_eq_true, Bool.not_eq_true'] at hfits
    exact hfits.1.1

/-- The block of a text without its last line feed, if the header implies that one. -/
theorem toList_literal {text body : List Char} {header : String} (indent : Nat)
    (h : blockParts text = (header, body)) :
    (literal text indent).toList = ' ' :: (header.toList ++ '\n' ::
      blockLines indent (body.splitOn '\n')) := by
  have hpieces : (literal text indent).toList = " ".toList ++ header.toList ++ "\n".toList ++
      blockLines indent (body.splitOn '\n') := by
    simp only [literal, h, String.toList_append, String.toList_ofList]
    rfl
  simpa using hpieces

/-- A literal block ends with a line break. -/
theorem after_literal_column (text : List Char) (indent : Nat) (place : Place) :
    (place.after (literal text indent).toList).column = 0 := by
  obtain ⟨header, body, hparts⟩ : ∃ header body, blockParts text = (header, body) := ⟨_, _, rfl⟩
  have hsplit : (literal text indent).toList = (' ' :: header.toList) ++ ['\n'] ++
      blockLines indent (body.splitOn '\n') := by
    rw [toList_literal indent hparts]
    simp
  rw [hsplit, Place.after_append, Place.after_concat_lineFeed]
  exact after_blockLines_column indent _ rfl

/-- A text without line feed at its end, whose lines are written in a block, is read back with the
break that the header asks for. -/
theorem blockScalar?_blockLines {body : List Char} {indent : Nat} (chomping : Chomping)
    (hindent : 0 < indent) (hchars : ∀ c ∈ body, isBreak c = false ∨ c = '\n')
    (hne : body ≠ []) (hend : body.getLast? ≠ some '\n') (hkeep : chomping ≠ .keep)
    (hfirst : ∃ k c line more, body.splitOn '\n' =
      List.replicate k [] ++ (c :: line) :: more ∧ isBlank c = false)
    {margin limit : Nat} (place : Place) {rest : List Char} (hmargin : margin ≤ indent)
    (hlimit : limit < indent) (hrest : StartsWithin limit rest) :
    Cursor.blockScalar? ⟨'|' :: (chomping.mark ++ '\n' ::
        (blockLines indent (body.splitOn '\n') ++ rest)), place⟩ false margin =
      some (if chomping = .clip then body ++ ['\n'] else body,
        toFirstText (place.after ('|' :: (chomping.mark ++ '\n' ::
          blockLines indent (body.splitOn '\n')))) rest) := by
  obtain ⟨k, c, line, more, hsplit, hblank⟩ := hfirst
  have hlines : ∀ l ∈ (c :: line) :: more, ∀ d ∈ l, isBreak d = false := by
    intro l hl d hd
    have hmem : l ∈ body.splitOn '\n' := hsplit ▸ List.mem_append_right _ hl
    obtain ⟨hchar, hne⟩ := Text.of_mem_splitOn hmem hd
    exact (hchars d hchar).resolve_right hne
  obtain ⟨emptyLines, hread⟩ := blockScalar?_block place chomping hsplit hlines hblank hindent
    hmargin hlimit hrest
  obtain ⟨htext, hlineEnd⟩ := read_foldl_addLine hne hend
  rw [hread]
  cases chomping with
  | strip => simp [BlockText.finish, htext]
  | clip => simp [BlockText.finish, htext, hlineEnd]
  | keep => exact absurd rfl hkeep

/-- A text that a literal block carries is read back from it, up to the line that follows. -/
theorem blockScalar?_literal {text : List Char} {indent : Nat} (hindent : 0 < indent)
    (hchars : ∀ c ∈ text, isBreak c = false ∨ c = '\n') (hfits : fitsBlock text = true)
    (hne : text ≠ []) (hlineFeed : text ≠ ['\n']) (htwo : ¬ ['\n', '\n'] <:+ text) :
    ∃ written, (literal text indent).toList = ' ' :: '|' :: written ∧
      ∀ place margin limit rest, margin ≤ indent → limit < indent → StartsWithin limit rest →
        Cursor.blockScalar? ⟨'|' :: (written ++ rest), place⟩ false margin =
          some (text, toFirstText (place.after ('|' :: written)) rest) := by
  have hreturn : '\r' ∉ text := by
    intro hmem
    rcases hchars _ hmem with h | h <;> exact absurd h (by decide)
  by_cases hend : text.getLast? = some '\n'
  · -- The line feed at the end is left to the header.
    obtain ⟨body, rfl⟩ : ∃ body, text = body ++ ['\n'] := by
      obtain ⟨body, hbody⟩ := List.getLast?_eq_some_iff.1 hend
      exact ⟨body, hbody⟩
    have hbody : body ≠ [] := by
      rintro rfl
      exact hlineFeed rfl
    have hbodyEnd : body.getLast? ≠ some '\n' := by
      intro h
      obtain ⟨front, rfl⟩ := List.getLast?_eq_some_iff.1 h
      exact htwo ⟨front, by simp⟩
    have hreturn' : '\r' ∉ body := fun h => hreturn (List.mem_append_left _ h)
    have hparts : blockParts (body ++ ['\n']) = ("|", body) := by simp [blockParts, hbodyEnd]
    obtain ⟨lines, last, hlast, hlastNe⟩ := Text.splitOn_eq_concat hbody hbodyEnd
    have hfirst := exists_firstLine (Text.lines_concat_lineFeed hreturn') hfits
      ⟨last, hlast ▸ by simp, hlastNe⟩
    refine ⟨_, toList_literal indent hparts, ?_⟩
    intro place margin limit rest hmargin hlimit hrest
    exact blockScalar?_blockLines .clip hindent (fun c hc => hchars c (List.mem_append_left _ hc))
      hbody hbodyEnd (by decide) hfirst place hmargin hlimit hrest
  · -- Without a line feed at the end, the header strips the one that ends the last line.
    have hparts : blockParts text = ("|-", text) := by simp [blockParts, hend]
    obtain ⟨lines, last, hlast, hlastNe⟩ := Text.splitOn_eq_concat hne hend
    have hfirst := exists_firstLine (Text.lines_eq_splitOn hreturn hne hend) hfits
      ⟨last, hlast ▸ by simp, hlastNe⟩
    refine ⟨_, toList_literal indent hparts, ?_⟩
    intro place margin limit rest hmargin hlimit hrest
    exact blockScalar?_blockLines .strip hindent hchars hne hend (by decide) hfirst place hmargin
      hlimit hrest

end Outline
end CiPipelines
