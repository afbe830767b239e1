import CiPipelines.Proofs.TextConsumed

/-!
# Readers side by side

Two texts that end alike are read alike from where they become the same, although that may be behind
a different number of characters.  Readers look at an index or a line only to see how far they have
come, so they cannot tell places apart that are in the same column.
-/

namespace CiPipelines

/-- Related steps behind related results are related. -/
theorem rel_bind {α β γ δ : Type} {R : α → β → Prop} {S : γ → δ → Prop} {x : Option α}
    {y : Option β} {f : α → Option γ} {g : β → Option δ} (h : Option.Rel R x y)
    (hstep : ∀ a b, R a b → Option.Rel S (f a) (g b)) : Option.Rel S (x.bind f) (y.bind g) := by
  cases h with
  | some hab => exact hstep _ _ hab
  | none => exact .none

/-- Where related results come from may be kept in mind. -/
theorem rel_remember {α β : Type} {R : α → β → Prop} {x : Option α} {y : Option β}
    (h : Option.Rel R x y) : Option.Rel (fun a b => x = some a ∧ R a b) x y := by
  cases h with
  | some hab => exact .some ⟨rfl, hab⟩
  | none => exact .none

/-- A condition that both sides test. -/
theorem rel_guard {α β : Type} {S : α → β → Prop} {p q : Prop} [Decidable p] [Decidable q]
    {x : Option α} {y : Option β} (hpq : p ↔ q) (h : p → Option.Rel S x y) :
    Option.Rel S ((guard p : Option Unit).bind fun _ => x) ((guard q : Option Unit).bind fun _ => y) := by
  by_cases hp : p
  · simpa [guard, hp, hpq.1 hp] using h hp
  · have hq : ¬q := fun hq => hp (hpq.2 hq)
    simp [guard, hp, hq]

/-- A choice that both sides make. -/
theorem rel_ite {α β : Type} {S : α → β → Prop} {p : Prop} [Decidable p] {x x' : Option α}
    {y y' : Option β} (h : Option.Rel S x y) (h' : Option.Rel S x' y') :
    Option.Rel S (if p then x else x') (if p then y else y') := by
  by_cases hp : p
  · rwa [if_pos hp, if_pos hp]
  · rwa [if_neg hp, if_neg hp]

namespace Yaml

/-- Two places behind which texts are the same, and the tokens in front of either. -/
structure Junction where
  left : Place
  right : Place
  leftTokens : List Token
  rightTokens : List Token

/-- Places at the same distance from a junction, in the same column. -/
structure Place.Alike (j : Junction) (p q : Place) : Prop where
  index : p.index + j.right.index = q.index + j.left.index
  started : 0 < p.index ∧ 0 < q.index
  line : p.line + j.right.line = q.line + j.left.line
  column : q.column = p.column

namespace Place.Alike

variable {j : Junction} {p q : Place} (h : p.Alike j q)

include h

theorem forward (n : Nat) : (p.forward n).Alike j (q.forward n) := by
  obtain ⟨hindex, hstarted, hline, hcolumn⟩ := h
  refine ⟨?_, ?_, hline, congrArg (· + n) hcolumn⟩ <;> simp only [Place.forward] <;> omega

theorem newLine (width : Nat) : (p.newLine width).Alike j (q.newLine width) := by
  obtain ⟨hindex, hstarted, hline, -⟩ := h
  refine ⟨?_, ?_, ?_, rfl⟩ <;> simp only [Place.newLine] <;> omega

/-- How far a reader has come is the same. -/
theorem index_bne {p' q' : Place} (h' : p'.Alike j q') (n : Nat) :
    (q'.index != q.index + n) = (p'.index != p.index + n) := by
  have hleft := h.index
  have hright := h'.index
  rw [Bool.eq_iff_iff, bne_iff_ne, bne_iff_ne]
  omega

end Place.Alike

/-- Cursors at the same distance from a junction, with the same text behind them. -/
structure Cursor.Alike (j : Junction) (c d : Cursor) : Prop where
  rest : d.rest = c.rest
  place : c.place.Alike j d.place

/-- Results of readers that hold the same, up to alike cursors. -/
def ReadAlike {α : Type} (j : Junction) (a b : α × Cursor) : Prop :=
  b.1 = a.1 ∧ a.2.Alike j b.2

variable {j : Junction} {p q : Place}

/-- Readers go on alike behind a part that was read alike. -/
theorem rel_read {α γ δ : Type} {S : γ → δ → Prop} {x y : Option (α × Cursor)}
    {f : α × Cursor → Option γ} {g : α × Cursor → Option δ} (h : Option.Rel (ReadAlike j) x y)
    (hstep : ∀ part c d, c.Alike j d → Option.Rel S (f (part, c)) (g (part, d))) :
    Option.Rel S (x.bind f) (y.bind g) := by
  refine rel_bind h fun (part, c) (part', d) hread => ?_
  obtain ⟨rfl, hnext⟩ : part' = part ∧ c.Alike j d := hread
  exact hstep part' c d hnext

/-! ## Scalars -/

/-- Plain scalars that are the same, up to alike cursors. -/
structure PlainScalar.Alike (j : Junction) (a b : PlainScalar) : Prop where
  text : b.text = a.text
  next : a.next.Alike j b.next
  onNewLine : b.onNewLine = a.onNewLine

theorem rel_readPlain (h : p.Alike j q) (inFlow : Bool) (margin : Nat) (read : List Char) (gap : Gap)
    (text : List Char) :
    Option.Rel (PlainScalar.Alike j) (readPlain inFlow margin read gap p text)
      (readPlain inFlow margin read gap q text) := by
  fun_induction readPlain inFlow margin read gap p text generalizing q with
  | case1 read gap place => exact .some ⟨rfl, ⟨rfl, h⟩, rfl⟩
  | case2 read gap place rest ih => exact ih (h.newLine 2)
  | case3 read gap place c rest hcrlf hbreak ih =>
    rw [readPlain.eq_3 _ _ _ _ _ _ _ hcrlf, if_pos hbreak]
    exact ih (h.newLine 1)
  | case4 read gap place c rest hcrlf hbreak hblank htab =>
    rw [readPlain.eq_3 _ _ _ _ _ _ _ hcrlf, if_neg hbreak, if_pos hblank, h.column, if_pos htab]
    exact .none
  | case5 read gap place c rest hcrlf hbreak hblank htab ih =>
    rw [readPlain.eq_3 _ _ _ _ _ _ _ hcrlf, if_neg hbreak, if_pos hblank, h.column, if_neg htab]
    exact ih (h.forward 1)
  | case6 read gap place c rest hcrlf hbreak hblank hends =>
    rw [readPlain.eq_3 _ _ _ _ _ _ _ hcrlf, if_neg hbreak, if_neg hblank, h.column, if_pos hends]
    exact .some ⟨rfl, ⟨rfl, h⟩, rfl⟩
  | case7 read gap place c rest hcrlf hbreak hblank hends htouches =>
    rw [readPlain.eq_3 _ _ _ _ _ _ _ hcrlf, if_neg hbreak, if_neg hblank, h.column, if_neg hends,
      if_pos htouches]
    exact .none
  | case8 read gap place c rest hcrlf hbreak hblank hends htouches ih =>
    rw [readPlain.eq_3 _ _ _ _ _ _ _ hcrlf, if_neg hbreak, if_neg hblank, h.column, if_neg hends,
      if_neg htouches]
    exact ih (h.forward 1)

theorem rel_readSingleQuoted (h : p.Alike j q) (read : List Char) (gap : Gap) (text : List Char) :
    Option.Rel (ReadAlike j) (readSingleQuoted read gap p text)
      (readSingleQuoted read gap q text) := by
  fun_induction readSingleQuoted read gap p text generalizing q with
  | case1 read gap place => exact .none
  | case2 read gap place rest ih => exact ih (h.newLine 2)
  | case3 read gap place rest ih => exact ih (h.forward 2)
  | case4 read gap place c rest hcrlf hquotes hbreak ih =>
    rw [readSingleQuoted.eq_4 _ _ _ _ _ hcrlf hquotes, if_pos hbreak]
    exact ih (h.newLine 1)
  | case5 read gap place c rest hcrlf hquotes hbreak hblank ih =>
    rw [readSingleQuoted.eq_4 _ _ _ _ _ hcrlf hquotes, if_neg hbreak, if_pos hblank]
    exact ih (h.forward 1)
  | case6 read gap place c rest hcrlf hquotes hbreak hblank hmark =>
    rw [readSingleQuoted.eq_4 _ _ _ _ _ hcrlf hquotes, if_neg hbreak, if_neg hblank,
      h.column, if_pos hmark]
    exact .none
  | case7 read gap place c rest hcrlf hquotes hbreak hblank hmark hend =>
    rw [readSingleQuoted.eq_4 _ _ _ _ _ hcrlf hquotes, if_neg hbreak, if_neg hblank,
      h.column, if_neg hmark, if_pos hend]
    exact .some ⟨rfl, rfl, h.forward 1⟩
  | case8 read gap place c rest hcrlf hquotes hbreak hblank hmark hend ih =>
    rw [readSingleQuoted.eq_4 _ _ _ _ _ hcrlf hquotes, if_neg hbreak, if_neg hblank,
      h.column, if_neg hmark, if_neg hend]
    exact ih (h.forward 1)

theorem rel_readDoubleQuoted (h : p.Alike j q) (read : List Char) (gap : Gap) (text : List Char) :
    Option.Rel (ReadAlike j) (readDoubleQuoted read gap p text)
      (readDoubleQuoted read gap q text) := by
  -- Of a place the reader asks only for the column, so both runs take the same branch.
  fun_induction readDoubleQuoted read gap p text generalizing q with
  | case1 => exact .none
  | case2 read gap place rest ih => exact ih (h.newLine 2)
  | case3 read gap place rest ih => exact ih (h.newLine 3)
  | case4 read gap place d₁ d₂ rest c hcode ih =>
    simp only [readDoubleQuoted.eq_4, hcode]
    exact ih (h.forward 4)
  | case5 read gap place d₁ d₂ rest hcode =>
    simp only [readDoubleQuoted.eq_4, hcode]
    exact .none
  | case6 read gap place d₁ d₂ d₃ d₄ rest c hcode ih =>
    simp only [readDoubleQuoted.eq_5, hcode]
    exact ih (h.forward 6)
  | case7 read gap place d₁ d₂ d₃ d₄ rest hcode =>
    simp only [readDoubleQuoted.eq_5, hcode]
    exact .none
  | case8 read gap place d₁ d₂ d₃ d₄ d₅ d₆ d₇ d₈ rest c hcode ih =>
    simp only [readDoubleQuoted.eq_6, hcode]
    exact ih (h.forward 10)
  | case9 read gap place d₁ d₂ d₃ d₄ d₅ d₆ d₇ d₈ rest hcode =>
    simp only [readDoubleQuoted.eq_6, hcode]
    exact .none
  | case10 read gap place e rest hcrlf htwo hfour height hbreak ih =>
    rw [readDoubleQuoted.eq_7 _ _ _ _ _ hcrlf htwo hfour height, if_pos hbreak]
    exact ih (h.newLine 2)
  | case11 read gap place e rest hcrlf htwo hfour height hbreak c hescape ih =>
    simp only [readDoubleQuoted.eq_7 _ _ _ _ _ hcrlf htwo hfour height, hbreak, hescape,
      Bool.false_eq_true, if_false]
    exact ih (h.forward 2)
  | case12 read gap place e rest hcrlf htwo hfour height hbreak hescape =>
    simp only [readDoubleQuoted.eq_7 _ _ _ _ _ hcrlf htwo hfour height, hbreak, hescape,
      Bool.false_eq_true, if_false]
    exact .none
  | case13 read gap place c rest hcrlf hescaped htwo hfour height hescape hbreak ih =>
    rw [readDoubleQuoted.eq_8 _ _ _ _ _ hcrlf hescaped htwo hfour height hescape, if_pos hbreak]
    exact ih (h.newLine 1)
  | case14 read gap place c rest hcrlf hescaped htwo hfour height hescape hbreak hblank ih =>
    rw [readDoubleQuoted.eq_8 _ _ _ _ _ hcrlf hescaped htwo hfour height hescape, if_neg hbreak,
      if_pos hblank]
    exact ih (h.forward 1)
  | case15 read gap place c rest hcrlf hescaped htwo hfour height hescape hbreak hblank hmark =>
    rw [readDoubleQuoted.eq_8 _ _ _ _ _ hcrlf hescaped htwo hfour height hescape, if_neg hbreak,
      if_neg hblank, h.column, if_pos hmark]
    exact .none
  | case16 read gap place c rest hcrlf hescaped htwo hfour height hescape hbreak hblank hmark hend =>
    rw [readDoubleQuoted.eq_8 _ _ _ _ _ hcrlf hescaped htwo hfour height hescape, if_neg hbreak,
      if_neg hblank, h.column, if_neg hmark, if_pos hend]
    exact .some ⟨rfl, rfl, h.forward 1⟩
  | case17 read gap place c rest hcrlf hescaped htwo hfour height hescape hbreak hblank hmark hend
      ih =>
    rw [readDoubleQuoted.eq_8 _ _ _ _ _ hcrlf hescaped htwo hfour height hescape, if_neg hbreak,
      if_neg hblank, h.column, if_neg hmark, if_neg hend]
    exact ih (h.forward 1)

/-! ## Along a line -/

namespace Cursor.Alike

variable {c d : Cursor} (h : c.Alike j d)

include h

theorem skip (n : Nat) : (c.skip n).Alike j (d.skip n) :=
  ⟨congrArg (List.drop n) h.rest, h.place.forward n⟩

theorem span (f : Char → Bool) : ReadAlike j (c.span f) (d.span f) := by
  unfold Cursor.span
  rw [h.rest]
  exact ⟨rfl, h.skip _⟩

theorem skipBlanks : c.skipBlanks.Alike j d.skipBlanks := (h.span isBlank).2

theorem skipComment : c.skipComment.Alike j d.skipComment := by
  unfold Cursor.skipComment
  rw [h.rest]
  split
  · exact (h.span _).2
  · exact h

theorem skipBreak : c.skipBreak.Alike j d.skipBreak := by
  unfold Cursor.skipBreak
  rw [h.rest]
  split
  · exact ⟨rfl, h.place.newLine 2⟩
  · split
    · exact ⟨rfl, h.place.newLine 1⟩
    · exact h
  · exact h

end Cursor.Alike

/-! ## Block scalars -/

/-- Leading lines that are the same, up to alike cursors. -/
structure LeadingLines.Alike (j : Junction) (a b : LeadingLines) : Prop where
  breaks : b.breaks = a.breaks
  column : b.column = a.column
  next : a.next.Alike j b.next

theorem rel_readLeadingLines (h : p.Alike j q) (breaks : List Char) (column : Nat) (text : List Char) :
    Option.Rel (LeadingLines.Alike j) (readLeadingLines breaks column p text)
      (readLeadingLines breaks column q text) := by
  fun_induction readLeadingLines breaks column p text generalizing q with
  | case1 breaks column place => exact .some ⟨rfl, congrArg (max column) h.column, ⟨rfl, h⟩⟩
  | case2 breaks column place rest ih =>
    rw [readLeadingLines.eq_2, h.column]
    exact ih (h.newLine 2)
  | case3 breaks column place c rest hcrlf hspace ih =>
    rw [readLeadingLines.eq_3 _ _ _ _ _ hcrlf, if_pos hspace]
    exact ih (h.forward 1)
  | case4 breaks column place c rest hcrlf hspace htab =>
    rw [readLeadingLines.eq_3 _ _ _ _ _ hcrlf, if_neg hspace, if_pos htab]
    exact .none
  | case5 breaks column place c rest hcrlf hspace htab hbreak ih =>
    rw [readLeadingLines.eq_3 _ _ _ _ _ hcrlf, if_neg hspace, if_neg htab, if_pos hbreak, h.column]
    exact ih (h.newLine 1)
  | case6 breaks column place c rest hcrlf hspace htab hbreak =>
    rw [readLeadingLines.eq_3 _ _ _ _ _ hcrlf, if_neg hspace, if_neg htab, if_neg hbreak]
    exact .some ⟨rfl, congrArg (max column) h.column, ⟨rfl, h⟩⟩

theorem rel_readBlockLines (h : p.Alike j q) (folded : Bool) (indent : Nat) (block : BlockText)
    (text : List Char) :
    Option.Rel (ReadAlike j) (readBlockLines folded indent block p text)
      (readBlockLines folded indent block q text) := by
  fun_induction readBlockLines folded indent block p text generalizing q with
  | case1 block place => exact .some ⟨rfl, rfl, h⟩
  | case2 block place rest ih => exact ih (h.newLine 2)
  | case3 block place c rest hcrlf hbreak ih =>
    rw [readBlockLines.eq_3 _ _ _ _ _ _ hcrlf, if_pos hbreak]
    exact ih (h.newLine 1)
  | case4 block place c rest hcrlf hbreak hline ih =>
    rw [readBlockLines.eq_3 _ _ _ _ _ _ hcrlf, if_neg hbreak, if_pos hline]
    exact ih (h.forward 1)
  | case5 block place c rest hcrlf hbreak hline hleft hspace ih =>
    rw [readBlockLines.eq_3 _ _ _ _ _ _ hcrlf, if_neg hbreak, if_neg hline, h.column, if_pos hleft,
      if_pos hspace]
    exact ih (h.forward 1)
  | case6 block place c rest hcrlf hbreak hline hleft hspace htab =>
    rw [readBlockLines.eq_3 _ _ _ _ _ _ hcrlf, if_neg hbreak, if_neg hline, h.column, if_pos hleft,
      if_neg hspace, if_pos htab]
    exact .none
  | case7 block place c rest hcrlf hbreak hline hleft hspace htab =>
    rw [readBlockLines.eq_3 _ _ _ _ _ _ hcrlf, if_neg hbreak, if_neg hline, h.column, if_pos hleft,
      if_neg hspace, if_neg htab]
    exact .some ⟨rfl, rfl, h⟩
  | case8 block place c rest hcrlf hbreak hline hleft hindent ih =>
    rw [readBlockLines.eq_3 _ _ _ _ _ _ hcrlf, if_neg hbreak, if_neg hline, h.column, if_neg hleft,
      if_pos hindent]
    exact ih (h.forward 1)
  | case9 block place c rest hcrlf hbreak hline hleft hindent =>
    rw [readBlockLines.eq_3 _ _ _ _ _ _ hcrlf, if_neg hbreak, if_neg hline, h.column, if_neg hleft,
      if_neg hindent]
    exact .some ⟨rfl, rfl, h⟩

theorem Cursor.Alike.blockScalar? {c d : Cursor} (h : c.Alike j d) (folded : Bool) (margin : Nat) :
    Option.Rel (ReadAlike j) (c.blockScalar? folded margin) (d.blockScalar? folded margin) := by
  have hinner := h.skip 1
  unfold Cursor.blockScalar?
  simp only [hinner.rest]
  cases hheader : blockHeader? (c.skip 1).rest with
  | none => exact .none
  | some read =>
    obtain ⟨header, rest⟩ := read
    have hbehind : Cursor.Alike j ⟨rest, (c.skip 1).place.forward ((c.skip 1).rest.length - rest.length)⟩
        ⟨rest, (d.skip 1).place.forward ((c.skip 1).rest.length - rest.length)⟩ :=
      ⟨rfl, hinner.place.forward _⟩
    have hend := hbehind.skipBlanks.skipComment
    have hbody := hend.skipBreak
    simp only [Option.bind_eq_bind, Option.bind_some]
    refine rel_guard (by rw [hend.rest]) fun _ => ?_
    have hfinish : ∀ a b : BlockText × Cursor, ReadAlike j a b → Option.Rel (ReadAlike j)
        (some (a.1.finish header.chomping, a.2)) (some (b.1.finish header.chomping, b.2)) :=
      fun a b hab => .some ⟨by rw [hab.1], hab.2⟩
    simp only [hbody.rest]
    cases header.indent with
    | none =>
      refine rel_bind (rel_readLeadingLines hbody.place ..) fun a b hab => ?_
      rw [hab.breaks, hab.column, hab.next.rest]
      exact rel_bind (rel_readBlockLines hab.next.place ..) hfinish
    | some n => exact rel_bind (rel_readBlockLines hbody.place ..) hfinish

/-! ## Tags, anchors and directives -/

theorem rel_readUri (h : p.Alike j q) (full : Bool) (read : Uri) (pending : Option Octets)
    (text : List Char) : Option.Rel (ReadAlike j) (readUri full read pending p text)
      (readUri full read pending q text) := by
  fun_induction readUri full read pending p text generalizing q with
  | case1 read pending place d₁ d₂ rest hoctet =>
    simp only [readUri.eq_1, hoctet]
    exact .none
  | case2 read pending place d₁ d₂ rest octet hoctet hnext =>
    simp only [readUri.eq_1, hoctet, hnext]
    exact .none
  | case3 read pending place d₁ d₂ rest octet hoctet o hnext hlast ih =>
    simp only [readUri.eq_1, hoctet, hnext, if_pos hlast]
    exact ih (h.forward 3)
  | case4 read pending place d₁ d₂ rest octet hoctet o hnext hlast ih =>
    simp only [readUri.eq_1, hoctet, hnext, if_neg hlast]
    exact ih (h.forward 3)
  | case5 read place text hescape o =>
    rw [readUri.eq_2 _ _ _ _ _ hescape]
    exact .none
  | case6 read place c rest huri hescape ih =>
    rw [readUri.eq_3 _ _ _ _ _ hescape]
    rw [if_pos huri]
    exact ih (h.forward 1)
  | case7 read place c rest huri hpercent hescape =>
    rw [readUri.eq_3 _ _ _ _ _ hescape]
    rw [if_neg huri, if_pos hpercent]
    exact .none
  | case8 read place c rest huri hpercent hescape =>
    rw [readUri.eq_3 _ _ _ _ _ hescape]
    rw [if_neg huri, if_neg hpercent]
    exact .some ⟨rfl, rfl, h⟩
  | case9 read place =>
    rw [readUri.eq_4]
    exact .some ⟨rfl, rfl, h⟩

namespace Cursor.Alike

variable {c d : Cursor} (h : c.Alike j d)

include h

theorem uri? (full : Bool) : Option.Rel (ReadAlike j) (c.uri? full) (d.uri? full) := by
  unfold Cursor.uri?
  rw [h.rest]
  exact rel_readUri h.place ..

theorem handle? : Option.Rel (ReadAlike j) c.handle? d.handle? := by
  unfold Cursor.handle?
  rw [h.rest]
  split
  · obtain ⟨hword, hnext⟩ := (h.skip 1).span isWordChar
    dsimp only
    rw [hnext.rest, hword]
    split
    · exact .some ⟨rfl, hnext.skip 1⟩
    · exact .some ⟨rfl, hnext⟩
  · exact .none

theorem anchorName? : Option.Rel (ReadAlike j) c.anchorName? d.anchorName? := by
  have hspan := (h.skip 1).span isWordChar
  unfold Cursor.anchorName?
  generalize (c.skip 1).span isWordChar = a at hspan ⊢
  generalize (d.skip 1).span isWordChar = b at hspan ⊢
  obtain ⟨hname, hnext⟩ := hspan
  dsimp only
  refine rel_guard (by rw [hname]) fun _ => rel_guard (by rw [hnext.rest]) fun _ => ?_
  exact .some ⟨hname, hnext⟩

theorem tag? (inFlow : Bool) : Option.Rel (ReadAlike j) (c.tag? inFlow) (d.tag? inFlow) := by
  have hend : ∀ a b : TagWord × Cursor, ReadAlike j a b → Option.Rel (ReadAlike j)
      ((guard (startsBlank a.2.rest || (inFlow && a.2.rest.head? == some ',')) : Option Unit).bind
        fun _ => some (a.1, a.2))
      ((guard (startsBlank b.2.rest || (inFlow && b.2.rest.head? == some ',')) : Option Unit).bind
        fun _ => some (b.1, b.2)) := fun a b hab =>
    rel_guard (by rw [hab.2.rest]) fun _ => .some ⟨hab.1, hab.2⟩
  unfold Cursor.tag?
  rw [h.rest]
  split
  · refine rel_bind ((h.skip 2).uri? true) fun a b hab => ?_
    refine rel_guard (by rw [h.place.index_bne hab.2.place]) fun _ => ?_
    simp only [hab.2.rest]
    split
    · exact hend _ _ ⟨by rw [hab.1], hab.2.skip 1⟩
    · exact .none
  · refine rel_bind h.handle? fun a b hab => rel_bind (hab.2.uri? false) fun a' b' hab' => ?_
    simp only [hab.1, hab'.1]
    split
    · have hindex := hab.2.place.index_bne hab'.2.place 0
      simp only [Nat.add_zero] at hindex
      refine rel_guard (by rw [hindex]) fun _ => hend _ _ ⟨rfl, hab'.2⟩
    · split
      · exact hend _ _ ⟨rfl, hab'.2⟩
      · exact hend _ _ ⟨rfl, hab'.2⟩

theorem versionNumber? : Option.Rel (ReadAlike j) c.versionNumber? d.versionNumber? := by
  have hspan := h.span Char.isDigit
  unfold Cursor.versionNumber?
  generalize c.span Char.isDigit = a at hspan ⊢
  generalize d.span Char.isDigit = b at hspan ⊢
  obtain ⟨hdigits, hnext⟩ := hspan
  dsimp only
  refine rel_guard (by rw [hdigits]) fun _ => .some ⟨?_, hnext⟩
  dsimp only
  rw [hdigits]

theorem directive? : Option.Rel (ReadAlike j) c.directive? d.directive? := by
  have hend : ∀ a b : Directive × Cursor, ReadAlike j a b → Option.Rel (ReadAlike j)
      ((guard (startsBreak a.2.skipBlanks.skipComment.rest) : Option Unit).bind fun _ =>
        some (a.1, a.2.skipBlanks.skipComment.skipBreak))
      ((guard (startsBreak b.2.skipBlanks.skipComment.rest) : Option Unit).bind fun _ =>
        some (b.1, b.2.skipBlanks.skipComment.skipBreak)) := by
    intro a b hab
    have hlast := hab.2.skipBlanks.skipComment
    exact rel_guard (by rw [hlast.rest]) fun _ => .some ⟨hab.1, hlast.skipBreak⟩
  have hspan := (h.skip 1).span isWordChar
  unfold Cursor.directive?
  generalize (c.skip 1).span isWordChar = a at hspan ⊢
  generalize (d.skip 1).span isWordChar = b at hspan ⊢
  obtain ⟨hname, hafter⟩ := hspan
  have hvalue := hafter.skipBlanks
  dsimp only
  rw [hname]
  refine rel_guard (by rw [hafter.rest]) fun _ => ?_
  split
  · refine rel_bind hvalue.versionNumber? fun major major' hmajor => ?_
    refine rel_guard (by rw [hmajor.2.rest]) fun _ => ?_
    refine rel_bind (hmajor.2.skip 1).versionNumber? fun minor minor' hminor => ?_
    exact hend _ _ ⟨by rw [hmajor.1, hminor.1], hminor.2⟩
  · split
    · refine rel_bind hvalue.handle? fun handle handle' hhandle => ?_
      refine rel_guard (by rw [hhandle.1]) fun _ => ?_
      refine rel_guard (by rw [hhandle.2.rest]) fun _ => ?_
      have hstart := hhandle.2.skipBlanks
      refine rel_bind (hstart.uri? true) fun uri uri' huri => ?_
      -- Whether anything was read is told by a distance of indices, which both runs share.
      have hindex := hstart.place.index_bne huri.2.place 0
      simp only [Nat.add_zero] at hindex
      refine rel_guard (by rw [hindex]) fun _ => rel_guard (by rw [huri.2.rest]) fun _ => ?_
      exact hend _ _ ⟨by rw [hhandle.1, huri.1], huri.2⟩
    · exact .none

end Cursor.Alike

end Yaml
end CiPipelines
