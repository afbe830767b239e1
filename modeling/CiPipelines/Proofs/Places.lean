import CiPipelines.Proofs.OrdinaryText
import CiPipelines.Yaml.BlockScalar
import CiPipelines.Yaml.PlainScalar
import CiPipelines.Yaml.TokenReader

/-!
# Places behind a text, and the lines that follow an entry

The readers of scalars and of white space move through a text character by character.  Where they
are behind a text depends on its line feeds and its length only (`Place.after`).

A block entry ends where the following lines have their text further left.  `Outside limit` says
that of a text at the start of a line: up to its first token, comments included, no line has its
text right of column `limit`.  Plain scalars and literal blocks stop in front of such lines, all
at the same place, from where white space is skipped as from the start of the line.
-/

namespace CiPipelines
namespace Yaml

namespace Place

/-- The place behind a character. -/
def next (p : Place) (c : Char) : Place :=
  if c = '\n' then p.newLine 1 else p.forward 1

/-- The place behind a text. -/
def after (p : Place) (text : List Char) : Place := text.foldl next p

@[simp] theorem after_nil (p : Place) : p.after [] = p := rfl

@[simp] theorem after_cons (p : Place) (c : Char) (text : List Char) :
    p.after (c :: text) = (p.next c).after text := rfl

theorem after_append (p : Place) (a b : List Char) : p.after (a ++ b) = (p.after a).after b := by
  simp [after]

theorem next_lineFeed (p : Place) : p.next '\n' = p.newLine 1 := rfl

theorem next_of_ne {c : Char} (p : Place) (h : c ≠ '\n') : p.next c = p.forward 1 := if_neg h

theorem newLine_column (p : Place) (width : Nat) : (p.newLine width).column = 0 := rfl

@[simp] theorem forward_zero (p : Place) : p.forward 0 = p := rfl

@[simp] theorem forward_forward (p : Place) (m n : Nat) :
    (p.forward m).forward n = p.forward (m + n) := by
  simp [forward, Nat.add_assoc]

/-- Without line feeds only the length counts. -/
theorem after_eq_forward {text : List Char} (p : Place) (h : ∀ c ∈ text, c ≠ '\n') :
    p.after text = p.forward text.length := by
  induction text generalizing p with
  | nil => rfl
  | cons c rest ih =>
    rw [after_cons, next_of_ne p (h c (List.mem_cons_self ..)),
      ih _ fun d hd => h d (List.mem_cons_of_mem _ hd), forward_forward, List.length_cons,
      Nat.add_comm]

@[simp] theorem after_spaces (p : Place) (n : Nat) :
    p.after (List.replicate n ' ') = p.forward n := by
  rw [after_eq_forward p fun c hc => by rw [List.eq_of_mem_replicate hc]; decide,
    List.length_replicate]

/-- A line feed at the end leads to the first column of a later line. -/
theorem after_concat_lineFeed (p : Place) (text : List Char) :
    p.after (text ++ ['\n']) = (p.after text).newLine 1 := by
  rw [after_append]
  rfl

end Place

/-- Where the first text stands, behind empty lines and indentation. -/
def toFirstText (place : Place) : List Char → Cursor
  | [] => ⟨[], place⟩
  | c :: rest =>
    if c = '\n' then toFirstText (place.newLine 1) rest
    else if c = ' ' then toFirstText (place.forward 1) rest
    else ⟨c :: rest, place⟩

/-- No line of the text has its first character right of column `limit`, up to the first line with
a token. -/
inductive Outside (limit : Nat) : List Char → Prop where
  | nothing : Outside limit []
  | emptyLine {rest : List Char} : Outside limit rest → Outside limit ('\n' :: rest)
  | comment {column : Nat} {note rest : List Char} (hcolumn : column ≤ limit)
      (hnote : ∀ c ∈ note, isBreak c = false) :
      Outside limit rest →
      Outside limit (List.replicate column ' ' ++ '#' :: (note ++ '\n' :: rest))
  | token {column : Nat} {c : Char} {rest : List Char} (hcolumn : column ≤ limit)
      (hblank : isBlank c = false) (hbreak : isBreak c = false) (hhash : c ≠ '#')
      (hmark : c ≠ '\ufeff') :
      Outside limit (List.replicate column ' ' ++ c :: rest)

theorem Outside.mono {limit limit' : Nat} {text : List Char} (h : Outside limit text)
    (hle : limit ≤ limit') : Outside limit' text := by
  induction h with
  | nothing => exact .nothing
  | emptyLine _ ih => exact .emptyLine ih
  | comment hcolumn hnote _ ih => exact .comment (Nat.le_trans hcolumn hle) hnote ih
  | token hcolumn hblank hbreak hhash hmark =>
    exact .token (Nat.le_trans hcolumn hle) hblank hbreak hhash hmark

/-- The first line that is not empty has its first character at column `limit` at most. -/
inductive StartsWithin (limit : Nat) : List Char → Prop where
  | nothing : StartsWithin limit []
  | emptyLine {rest : List Char} : StartsWithin limit rest → StartsWithin limit ('\n' :: rest)
  | text {column : Nat} {c : Char} {rest : List Char} (hcolumn : column ≤ limit)
      (hblank : isBlank c = false) (hbreak : isBreak c = false) (hmark : c ≠ '\ufeff') :
      StartsWithin limit (List.replicate column ' ' ++ c :: rest)

theorem Outside.startsWithin {limit : Nat} {text : List Char} (h : Outside limit text) :
    StartsWithin limit text := by
  induction h with
  | nothing => exact .nothing
  | emptyLine _ ih => exact .emptyLine ih
  | comment hcolumn _ _ _ => exact .text hcolumn (by decide) (by decide) (by decide)
  | token hcolumn hblank hbreak _ hmark => exact .text hcolumn hblank hbreak hmark

/-- Whether the first line that is not blank is indented by `limit` spaces at most, if the text
starts at the given column. -/
def indentedAtMost (limit column : Nat) : List Char → Bool
  | [] => true
  | '\r' :: '\n' :: rest => indentedAtMost limit 0 rest
  | c :: rest =>
    if isBreak c then indentedAtMost limit 0 rest
    else if c == ' ' then indentedAtMost limit (column + 1) rest
    else c != '\t' && column ≤ limit

theorem indentedAtMost_spaces (limit column n : Nat) (text : List Char) :
    indentedAtMost limit column (List.replicate n ' ' ++ text) =
      indentedAtMost limit (column + n) text := by
  induction n generalizing column with
  | zero => rfl
  | succ n ih =>
    rw [List.replicate_succ, List.cons_append, indentedAtMost.eq_3 _ _ _ _ fun _ h =>
      absurd h (by decide), if_neg (by decide), if_pos (by decide), ih, Nat.add_assoc,
      Nat.add_comm 1]

theorem ne_lineFeed_of_isBreak {c : Char} (h : isBreak c = false) : c ≠ '\n' := by
  rintro rfl
  exact absurd h (by decide)

theorem ne_carriageReturn_of_isBreak {c : Char} (h : isBreak c = false) : c ≠ '\r' := by
  rintro rfl
  exact absurd h (by decide)

theorem ne_space_of_isBlank {c : Char} (h : isBlank c = false) : c ≠ ' ' := by
  rintro rfl
  exact absurd h (by decide)

theorem ne_tab_of_isBlank {c : Char} (h : isBlank c = false) : c ≠ '\t' := by
  rintro rfl
  exact absurd h (by decide)

theorem indentedAtMost_text {limit column : Nat} {c : Char} (rest : List Char)
    (hcolumn : column ≤ limit) (hblank : isBlank c = false) (hbreak : isBreak c = false) :
    indentedAtMost limit 0 (List.replicate column ' ' ++ c :: rest) = true := by
  rw [indentedAtMost_spaces, indentedAtMost.eq_3 _ _ _ _ fun _ h =>
    absurd h (ne_carriageReturn_of_isBreak hbreak)]
  simp [hbreak, ne_space_of_isBlank hblank, ne_tab_of_isBlank hblank, hcolumn]

theorem Outside.indentedAtMost {limit : Nat} {text : List Char} (h : Outside limit text) :
    indentedAtMost limit 0 text = true := by
  induction h with
  | nothing => rfl
  | emptyLine _ ih => exact ih
  | comment hcolumn _ _ _ => exact indentedAtMost_text _ hcolumn (by decide) (by decide)
  | token hcolumn hblank hbreak _ _ => exact indentedAtMost_text _ hcolumn hblank hbreak

@[simp] theorem toFirstText_lineFeed (place : Place) (rest : List Char) :
    toFirstText place ('\n' :: rest) = toFirstText (place.newLine 1) rest := by
  simp [toFirstText]

theorem toFirstText_text {c : Char} (place : Place) (rest : List Char) (hblank : isBlank c = false)
    (hbreak : isBreak c = false) : toFirstText place (c :: rest) = ⟨c :: rest, place⟩ := by
  rw [toFirstText, if_neg (ne_lineFeed_of_isBreak hbreak), if_neg (ne_space_of_isBlank hblank)]

@[simp] theorem toFirstText_spaces (place : Place) (n : Nat) (rest : List Char) :
    toFirstText place (List.replicate n ' ' ++ rest) = toFirstText (place.forward n) rest := by
  induction n generalizing place with
  | zero => rfl
  | succ n ih =>
    have hstep : toFirstText place (' ' :: (List.replicate n ' ' ++ rest)) =
        toFirstText (place.forward 1) (List.replicate n ' ' ++ rest) := by
      simp [toFirstText]
    rw [List.replicate_succ, List.cons_append, hstep, ih, Place.forward_forward, Nat.add_comm]

end Yaml
end CiPipelines
