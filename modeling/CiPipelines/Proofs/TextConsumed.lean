import CiPipelines.Yaml.TokenReader
import Mathlib.Data.Option.Basic

/-!
# How much text a token takes

Each token takes at least one character of the text, and a scalar holds at most as many characters
as it takes; a scalar that is not plain takes more, for its indicator or quotes.  All readers of
parts of tokens are bounded alike.
-/

namespace CiPipelines
namespace Yaml

namespace Cursor

theorem length_span_le (c : Cursor) (p : Char → Bool) :
    (c.span p).2.rest.length ≤ c.rest.length := by
  simp [span, skip]

theorem length_skipBlanks_le (c : Cursor) : c.skipBlanks.rest.length ≤ c.rest.length :=
  length_span_le c _

theorem length_skipComment_le (c : Cursor) : c.skipComment.rest.length ≤ c.rest.length := by
  unfold skipComment
  split
  · exact length_span_le c _
  · exact Nat.le_refl _

theorem length_skipBreak_le (c : Cursor) : c.skipBreak.rest.length ≤ c.rest.length := by
  unfold skipBreak
  split
  · rename_i h
    simp only [h, List.length_cons]
    omega
  · rename_i h
    split
    · simp [h]
    · exact Nat.le_refl _
  · exact Nat.le_refl _

theorem length_skip_one_lt {c : Cursor} (h : c.rest ≠ []) :
    (c.skip 1).rest.length < c.rest.length := by
  simp only [skip, List.length_drop]
  have := List.length_pos_iff.2 h
  omega

theorem length_anchorName?_lt {c next : Cursor} {name : List Char} (hc : c.rest ≠ [])
    (h : c.anchorName? = some (name, next)) : next.rest.length < c.rest.length := by
  simp only [anchorName?, Option.bind_eq_bind, Option.bind_eq_some_iff] at h
  obtain ⟨-, -, -, -, h⟩ := h
  have hnext : next = ((c.skip 1).span isWordChar).2 := by
    simpa using (congrArg Prod.snd (Option.some.inj h)).symm
  rw [hnext]
  exact Nat.lt_of_le_of_lt (length_span_le _ _) (length_skip_one_lt hc)

end Cursor

theorem length_readUri_le {full : Bool} {read uri : Uri} {pending : Option Octets} {place : Place}
    {text : List Char} {next : Cursor} (h : readUri full read pending place text = some (uri, next)) :
    next.rest.length ≤ text.length := by
  fun_induction readUri full read pending place text with
  | case1 | case2 | case5 | case7 => simp at h
  | case3 read pending place d₁ d₂ rest octet _ o _ _ ih
  | case4 read pending place d₁ d₂ rest octet _ o _ _ ih =>
    have := ih h
    simp only [List.length_cons]
    omega
  | case6 read place c rest _ _ ih =>
    have := ih h
    simp only [List.length_cons]
    omega
  | case8 | case9 =>
    obtain ⟨-, rfl⟩ := Prod.mk.inj (Option.some.inj h)
    exact Nat.le_refl _

namespace Cursor

theorem length_handle?_lt {c next : Cursor} {handle : List Char}
    (h : c.handle? = some (handle, next)) : next.rest.length < c.rest.length := by
  unfold handle? at h
  split at h
  · rename_i rest hrest
    have hword : ((c.skip 1).span isWordChar).2.rest.length < c.rest.length :=
      Nat.lt_of_le_of_lt (length_span_le _ _) (length_skip_one_lt (by simp [hrest]))
    split at h
    rename_i word after hspan
    rw [hspan] at hword
    split at h
    · obtain ⟨-, rfl⟩ := Prod.mk.inj (Option.some.inj h)
      exact Nat.lt_of_le_of_lt (by simp [skip]) hword
    · obtain ⟨-, rfl⟩ := Prod.mk.inj (Option.some.inj h)
      exact hword
  · simp at h

theorem length_tag?_lt {c next : Cursor} {inFlow : Bool} {word : TagWord}
    (h : c.tag? inFlow = some (word, next)) : next.rest.length < c.rest.length := by
  simp only [tag?, Option.bind_eq_bind] at h
  split at h
  · rename_i tail hrest
    obtain ⟨⟨uri, after⟩, huri, h⟩ := Option.bind_eq_some_iff.1 h
    obtain ⟨-, -, h⟩ := Option.bind_eq_some_iff.1 h
    have hafter : after.rest.length ≤ (c.skip 2).rest.length := length_readUri_le huri
    split at h
    · simp only [Option.bind_some, Option.bind_eq_some_iff] at h
      obtain ⟨-, -, h⟩ := h
      obtain ⟨-, rfl⟩ := Prod.mk.inj (Option.some.inj h)
      simp only [skip, hrest, List.length_drop, List.length_cons] at hafter ⊢
      omega
    · simp at h
  · obtain ⟨⟨handle, afterHandle⟩, hhandle, h⟩ := Option.bind_eq_some_iff.1 h
    obtain ⟨⟨uri, after⟩, huri, h⟩ := Option.bind_eq_some_iff.1 h
    have hafter : after.rest.length < c.rest.length :=
      Nat.lt_of_le_of_lt (length_readUri_le huri) (length_handle?_lt hhandle)
    -- In all three forms of a tag with a handle, reading goes on behind the same characters.
    have hnext : next = after := by
      split at h
      · simp only [Option.bind_some, Option.bind_eq_some_iff] at h
        obtain ⟨-, -, -, -, h⟩ := h
        exact (Prod.mk.inj (Option.some.inj h)).2.symm
      · split at h
        all_goals
          simp only [Option.bind_some, Option.bind_eq_some_iff] at h
          obtain ⟨-, -, h⟩ := h
          exact (Prod.mk.inj (Option.some.inj h)).2.symm
    rw [hnext]
    exact hafter

theorem length_versionNumber?_le {c next : Cursor} {n : Nat}
    (h : c.versionNumber? = some (n, next)) : next.rest.length ≤ c.rest.length := by
  simp only [versionNumber?, Option.bind_eq_bind, Option.bind_eq_some_iff] at h
  obtain ⟨-, -, h⟩ := h
  obtain ⟨-, rfl⟩ := Prod.mk.inj (Option.some.inj h)
  exact length_span_le c _

theorem length_directive?_lt {c next : Cursor} {d : Directive} (hc : c.rest ≠ [])
    (h : c.directive? = some (d, next)) : next.rest.length < c.rest.length := by
  simp only [directive?, Option.bind_eq_bind] at h
  obtain ⟨-, -, h⟩ := Option.bind_eq_some_iff.1 h
  -- The name takes at least a character, and nothing behind it gives one back.
  have hname : ((c.skip 1).span isWordChar).2.skipBlanks.rest.length < c.rest.length :=
    Nat.lt_of_le_of_lt (Nat.le_trans (length_skipBlanks_le _) (length_span_le _ _))
      (length_skip_one_lt hc)
  have hend : ∀ after : Cursor,
      after.skipBlanks.skipComment.skipBreak.rest.length ≤ after.rest.length := fun after =>
    Nat.le_trans (length_skipBreak_le _)
      (Nat.le_trans (length_skipComment_le _) (length_skipBlanks_le _))
  split at h
  · obtain ⟨⟨major, afterMajor⟩, hmajor, h⟩ := Option.bind_eq_some_iff.1 h
    obtain ⟨-, -, h⟩ := Option.bind_eq_some_iff.1 h
    obtain ⟨⟨minor, after⟩, hminor, h⟩ := Option.bind_eq_some_iff.1 h
    simp only [Option.bind_some, Option.bind_eq_some_iff] at h
    obtain ⟨-, -, h⟩ := h
    obtain ⟨-, rfl⟩ := Prod.mk.inj (Option.some.inj h)
    have hafter : after.rest.length ≤ afterMajor.rest.length :=
      Nat.le_trans (length_versionNumber?_le hminor) (by simp [skip])
    exact Nat.lt_of_le_of_lt (Nat.le_trans (hend after)
      (Nat.le_trans hafter (length_versionNumber?_le hmajor))) hname
  · split at h
    · obtain ⟨⟨handle, afterHandle⟩, hhandle, h⟩ := Option.bind_eq_some_iff.1 h
      obtain ⟨-, -, h⟩ := Option.bind_eq_some_iff.1 h
      obtain ⟨-, -, h⟩ := Option.bind_eq_some_iff.1 h
      obtain ⟨⟨uri, after⟩, huri, h⟩ := Option.bind_eq_some_iff.1 h
      obtain ⟨-, -, h⟩ := Option.bind_eq_some_iff.1 h
      obtain ⟨-, -, h⟩ := Option.bind_eq_some_iff.1 h
      simp only [Option.bind_some, Option.bind_eq_some_iff] at h
      obtain ⟨-, -, h⟩ := h
      obtain ⟨-, rfl⟩ := Prod.mk.inj (Option.some.inj h)
      have hafter : after.rest.length ≤ afterHandle.rest.length :=
        Nat.le_trans (length_readUri_le huri) (length_skipBlanks_le _)
      exact Nat.lt_of_le_of_lt (Nat.le_trans (hend after)
        (Nat.le_trans hafter (Nat.le_of_lt (length_handle?_lt hhandle)))) hname
    · simp at h

end Cursor

/-! ## Scalars -/

/-- How many characters a gap stands for at most. -/
def Gap.size : Gap → Nat
  | .blanks text => text.length
  | .breaks none more => more.length
  | .breaks (some _) more => more.length + 1

@[simp] theorem Gap.size_empty : Gap.empty.size = 0 := rfl

/-- Reading on after a gap adds at most its size. -/
theorem Gap.length_fold_append_le (gap : Gap) (read : List Char) :
    (gap.fold.reverse ++ read).length ≤ read.length + gap.size := by
  have hfold : gap.fold.length ≤ gap.size := by
    unfold Gap.fold
    split <;> simp [Gap.size]
  rw [List.length_append, List.length_reverse]
  omega

theorem Gap.size_addBlank_le (gap : Gap) (c : Char) : (gap.addBlank c).size ≤ gap.size + 1 := by
  cases gap with
  | blanks text => simp [Gap.addBlank, Gap.size]
  | breaks first more => exact Nat.le_succ _

theorem Gap.size_addBreak_le (gap : Gap) (c : Char) : (gap.addBreak c).size ≤ gap.size + 1 := by
  cases gap with
  | blanks text => simp [Gap.addBreak, Gap.size]
  | breaks first more => cases first <;> simp [Gap.addBreak, Gap.size]

theorem length_readPlain_le {inFlow : Bool} {margin : Nat} {read : List Char} {gap : Gap}
    {place : Place} {text : List Char} {scalar : PlainScalar}
    (h : readPlain inFlow margin read gap place text = some scalar) :
    scalar.text.length + scalar.next.rest.length ≤ read.length + gap.size + text.length := by
  fun_induction readPlain inFlow margin read gap place text with
  | case1 read gap place =>
    obtain rfl := Option.some.inj h
    simp
  | case2 read gap place rest ih =>
    have := ih h
    have := gap.size_addBreak_le '\n'
    simp only [List.length_cons]
    omega
  | case3 read gap place c rest _ _ ih =>
    have := ih h
    have := gap.size_addBreak_le (breakText c)
    simp only [List.length_cons]
    omega
  | case4 | case7 => simp at h
  | case5 read gap place c rest _ _ _ _ ih =>
    have := ih h
    have := gap.size_addBlank_le c
    simp only [List.length_cons]
    omega
  | case6 read gap place c rest =>
    obtain rfl := Option.some.inj h
    simp only [List.length_reverse]
    omega
  | case8 read gap place c rest _ _ _ _ _ ih =>
    have := ih h
    have := gap.length_fold_append_le read
    simp only [List.length_cons, Gap.size_empty] at *
    omega

theorem length_readSingleQuoted_lt {read : List Char} {gap : Gap} {place : Place}
    {text written : List Char} {next : Cursor}
    (h : readSingleQuoted read gap place text = some (written, next)) :
    written.length + next.rest.length < read.length + gap.size + text.length := by
  fun_induction readSingleQuoted read gap place text with
  | case1 | case6 => simp at h
  | case2 read gap place rest ih =>
    have := ih h
    have := gap.size_addBreak_le '\n'
    simp only [List.length_cons]
    omega
  | case3 read gap place rest ih =>
    have := ih h
    have := gap.length_fold_append_le read
    simp only [List.length_cons, Gap.size_empty] at *
    omega
  | case4 read gap place c rest _ _ _ ih =>
    have := ih h
    have := gap.size_addBreak_le (breakText c)
    simp only [List.length_cons]
    omega
  | case5 read gap place c rest _ _ _ _ ih =>
    have := ih h
    have := gap.size_addBlank_le c
    simp only [List.length_cons]
    omega
  | case7 read gap place c rest =>
    obtain ⟨rfl, rfl⟩ := Prod.mk.inj (Option.some.inj h)
    have := gap.length_fold_append_le read
    simp only [List.length_cons, List.length_reverse]
    omega
  | case8 read gap place c rest _ _ _ _ _ _ ih =>
    have := ih h
    have := gap.length_fold_append_le read
    simp only [List.length_cons, Gap.size_empty] at *
    omega

theorem length_readDoubleQuoted_lt {read : List Char} {gap : Gap} {place : Place}
    {text written : List Char} {next : Cursor}
    (h : readDoubleQuoted read gap place text = some (written, next)) :
    written.length + next.rest.length < read.length + gap.size + text.length := by
  -- The cases differ in what they do with the gap: lengthen it, fold it, or end the scalar.
  fun_induction readDoubleQuoted read gap place text with
  | case1 | case5 | case7 | case9 | case12 | case15 => simp at h
  | case2 read gap place rest ih =>
    have := ih h
    have := gap.size_addBreak_le '\n'
    simp only [List.length_cons]
    omega
  | case3 read gap place rest ih
  | case10 read gap place e rest _ _ _ _ _ ih =>
    have := ih h
    have := gap.length_fold_append_le read
    simp only [List.length_cons, Gap.size, List.length_nil] at *
    omega
  | case4 read gap place d₁ d₂ rest c _ ih
  | case6 read gap place d₁ d₂ d₃ d₄ rest c _ ih
  | case8 read gap place d₁ d₂ d₃ d₄ d₅ d₆ d₇ d₈ rest c _ ih
  | case11 read gap place e rest _ _ _ _ _ c _ ih
  | case17 read gap place c rest _ _ _ _ _ _ _ _ _ _ ih =>
    have := ih h
    have := gap.length_fold_append_le read
    simp only [List.length_cons, Gap.size_empty] at *
    omega
  | case13 read gap place c rest _ _ _ _ _ _ _ ih =>
    have := ih h
    have := gap.size_addBreak_le (breakText c)
    simp only [List.length_cons]
    omega
  | case14 read gap place c rest _ _ _ _ _ _ _ _ ih =>
    have := ih h
    have := gap.size_addBlank_le c
    simp only [List.length_cons]
    omega
  | case16 read gap place c rest =>
    obtain ⟨rfl, rfl⟩ := Prod.mk.inj (Option.some.inj h)
    have := gap.length_fold_append_le read
    simp only [List.length_cons, List.length_reverse]
    omega

theorem length_chomping?_le {text rest : List Char} {chomping : Chomping}
    (h : chomping? text = some (chomping, rest)) : rest.length ≤ text.length := by
  unfold chomping? at h
  split at h
  · obtain ⟨-, rfl⟩ := Prod.mk.inj (Option.some.inj h)
    exact Nat.le_succ _
  · obtain ⟨-, rfl⟩ := Prod.mk.inj (Option.some.inj h)
    exact Nat.le_succ _
  · simp at h

theorem length_indentDigit_le {text rest : List Char} {indent : Option Nat}
    (h : indentDigit text = some (indent, rest)) : rest.length ≤ text.length := by
  unfold indentDigit at h
  split at h
  · split at h
    · simp at h
    · split at h
      · obtain ⟨-, rfl⟩ := Prod.mk.inj (Option.some.inj h)
        exact Nat.le_succ _
      · obtain ⟨-, rfl⟩ := Prod.mk.inj (Option.some.inj h)
        exact Nat.le_refl _
  · obtain ⟨-, rfl⟩ := Prod.mk.inj (Option.some.inj h)
    exact Nat.le_refl _

theorem length_blockHeader?_le {text rest : List Char} {header : BlockHeader}
    (h : blockHeader? text = some (header, rest)) : rest.length ≤ text.length := by
  unfold blockHeader? at h
  split at h
  · rename_i chomping afterMark hmark
    obtain ⟨⟨indent, after⟩, hindent, h⟩ := Option.bind_eq_some_iff.1 h
    obtain ⟨-, rfl⟩ := Prod.mk.inj (Option.some.inj h)
    exact Nat.le_trans (length_indentDigit_le hindent) (length_chomping?_le hmark)
  · obtain ⟨⟨indent, after⟩, hindent, h⟩ := Option.bind_eq_some_iff.1 h
    have hafter := length_indentDigit_le hindent
    simp only at h
    split at h
    · rename_i n chomping afterMark hmark
      obtain ⟨-, rfl⟩ := Prod.mk.inj (Option.some.inj h)
      exact Nat.le_trans (length_chomping?_le hmark) hafter
    · obtain ⟨-, rfl⟩ := Prod.mk.inj (Option.some.inj h)
      exact hafter

theorem length_readLeadingLines_le {breaks : List Char} {column : Nat} {place : Place}
    {text : List Char} {lines : LeadingLines}
    (h : readLeadingLines breaks column place text = some lines) :
    lines.breaks.length + lines.next.rest.length ≤ breaks.length + text.length := by
  fun_induction readLeadingLines breaks column place text with
  | case1 | case6 =>
    obtain rfl := Option.some.inj h
    exact Nat.le_refl _
  | case2 breaks column place rest ih
  | case5 breaks column place c rest _ _ _ _ ih =>
    have := ih h
    simp only [List.length_append, List.length_cons, List.length_nil] at *
    omega
  | case3 breaks column place c rest _ _ ih =>
    have := ih h
    simp only [List.length_cons]
    omega
  | case4 => simp at h

namespace BlockText

/-- How many characters a block holds at most. -/
def size (b : BlockText) : Nat := b.read.length + b.lineEnd.length + b.emptyLines.length

theorem size_addBreak_le (b : BlockText) (c : Char) : (b.addBreak c).size ≤ b.size + 1 := by
  unfold addBreak
  split <;> simp only [size, List.length_append, List.length_cons, List.length_nil] <;> omega

theorem size_add (b : BlockText) (c : Char) : (b.add c).size = b.size + 1 := by
  simp only [add, size, List.length_cons]
  omega

theorem size_startLine_le (folded : Bool) (b : BlockText) (c : Char) :
    (startLine folded b c).size ≤ b.size + 1 := by
  have hjoin : ∀ joins : Bool, (joins = true → b.lineEnd = ['\n']) →
      (if joins then (if b.emptyLines.isEmpty then [' '] else []) else b.lineEnd).length ≤
        b.lineEnd.length := by
    intro joins hjoins
    cases joins with
    | false => exact Nat.le_refl _
    | true =>
      rw [hjoins rfl]
      cases b.emptyLines <;> simp
  have hend := hjoin (folded && b.lineEnd == ['\n'] && !b.startedBlank && !isBlank c)
    (fun h => by simp only [Bool.and_eq_true, beq_iff_eq] at h; exact h.1.1.2)
  simp only [startLine, size, List.length_cons, List.length_append, List.length_reverse,
    List.length_nil] at hend ⊢
  omega

theorem length_finish_le (b : BlockText) (chomping : Chomping) :
    (b.finish chomping).length ≤ b.size := by
  cases chomping <;> simp [finish, size] <;> omega

end BlockText

theorem length_readBlockLines_le {folded : Bool} {indent : Nat} {block final : BlockText}
    {place : Place} {text : List Char} {next : Cursor}
    (h : readBlockLines folded indent block place text = some (final, next)) :
    final.size + next.rest.length ≤ block.size + text.length := by
  fun_induction readBlockLines folded indent block place text with
  | case1 | case7 | case9 =>
    obtain ⟨rfl, rfl⟩ := Prod.mk.inj (Option.some.inj h)
    exact Nat.le_refl _
  | case2 block place rest ih =>
    have := ih h
    have := block.size_addBreak_le '\n'
    simp only [List.length_cons]
    omega
  | case3 block place c rest _ _ ih =>
    have := ih h
    have := block.size_addBreak_le (breakText c)
    simp only [List.length_cons]
    omega
  | case4 block place c rest _ _ _ ih =>
    have := ih h
    have := block.size_add c
    simp only [List.length_cons]
    omega
  | case5 block place c rest _ _ _ _ _ ih =>
    have := ih h
    simp only [List.length_cons]
    omega
  | case6 => simp at h
  | case8 block place c rest _ _ _ _ _ ih =>
    have := ih h
    have := block.size_startLine_le folded c
    simp only [List.length_cons]
    omega

/-- A block scalar holds fewer characters than it takes. -/
theorem Cursor.length_blockScalar?_lt {c next : Cursor} {folded : Bool} {margin : Nat}
    {text : List Char} (hc : c.rest ≠ [])
    (h : c.blockScalar? folded margin = some (text, next)) :
    text.length + next.rest.length < c.rest.length := by
  simp only [blockScalar?, Option.bind_eq_bind] at h
  obtain ⟨⟨header, rest⟩, hheader, h⟩ := Option.bind_eq_some_iff.1 h
  obtain ⟨-, -, h⟩ := Option.bind_eq_some_iff.1 h
  have hrest : rest.length < c.rest.length :=
    Nat.lt_of_le_of_lt (length_blockHeader?_le hheader) (length_skip_one_lt hc)
  have hbody : ∀ place : Place,
      (⟨rest, place⟩ : Cursor).skipBlanks.skipComment.skipBreak.rest.length ≤ rest.length :=
    fun place => Nat.le_trans (length_skipBreak_le _)
      (Nat.le_trans (length_skipComment_le _) (length_skipBlanks_le ⟨rest, place⟩))
  have hfinish : ∀ (block : BlockText) (chomping : Chomping),
      (block.finish chomping).length ≤ block.size := fun block => block.length_finish_le
  -- Without an indentation in the header, the leading lines are read first, to find it.
  split at h
  · obtain ⟨⟨block, after⟩, hblock, h⟩ := Option.bind_eq_some_iff.1 h
    obtain ⟨rfl, rfl⟩ := Prod.mk.inj (Option.some.inj h)
    have hlines := length_readBlockLines_le hblock
    have := hfinish block header.chomping
    have := hbody ((c.skip 1).place.forward ((c.skip 1).rest.length - rest.length))
    simp only [BlockText.ofLeading, BlockText.size, List.length_nil] at *
    omega
  · obtain ⟨leading, hleading, h⟩ := Option.bind_eq_some_iff.1 h
    obtain ⟨⟨block, after⟩, hblock, h⟩ := Option.bind_eq_some_iff.1 h
    obtain ⟨rfl, rfl⟩ := Prod.mk.inj (Option.some.inj h)
    have hlines := length_readBlockLines_le hblock
    have hbreaks := length_readLeadingLines_le hleading
    have := hfinish block header.chomping
    have := hbody ((c.skip 1).place.forward ((c.skip 1).rest.length - rest.length))
    simp only [BlockText.ofLeading, BlockText.size, List.length_nil] at *
    omega

end Yaml
end CiPipelines
