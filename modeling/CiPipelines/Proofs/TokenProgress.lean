import CiPipelines.Proofs.PlainScalars
import CiPipelines.Proofs.TextConsumed

/-!
# Progress of the token reader

Each token shortens the text that is left, and a scalar holds at most as many characters as are
taken for it.  What is done in front of a token, such as ending blocks and noting a pending key,
takes no text and adds no scalar.
-/

namespace CiPipelines
namespace Yaml

/-- How many characters stand around the text of a scalar at least. -/
def Style.marks : Style → Nat
  | .plain => 0
  | _ => 1

namespace Scan

/-- Every scalar among the tokens of `later` is among those of `log`. -/
def HoldsScalars (log later : TokenLog) : Prop :=
  ∀ style text, .scalar style text ∈ later.toList → .scalar style text ∈ log.toList

theorem HoldsScalars.refl (log : TokenLog) : HoldsScalars log log := fun _ _ h => h

theorem HoldsScalars.trans {a b c : TokenLog} (hab : HoldsScalars a b) (hbc : HoldsScalars b c) :
    HoldsScalars a c := fun style text h => hab style text (hbc style text h)

/-- Tokens that are no scalars may be put anywhere. -/
theorem holdsScalars_insertAt (log : TokenLog) (position : Nat) {ts : List Token}
    (h : ∀ style text, .scalar style text ∉ ts) : HoldsScalars log (log.insertAt position ts) := by
  intro style text hmem
  rw [TokenLog.toList_insertAt, List.mem_append, List.mem_append] at hmem
  rcases hmem with (hmem | hmem) | hmem
  · exact List.mem_of_mem_take hmem
  · exact absurd hmem (h style text)
  · exact List.mem_of_mem_drop hmem

theorem holdsScalars_pushAll (log : TokenLog) {ts : List Token}
    (h : ∀ style text, .scalar style text ∉ ts) : HoldsScalars log (log.pushAll ts) := by
  intro style text hmem
  rw [TokenLog.toList_pushAll, List.mem_append] at hmem
  exact hmem.resolve_right (h style text)

theorem holdsScalars_push (log : TokenLog) {t : Token} (h : ∀ style text, t ≠ .scalar style text) :
    HoldsScalars log (log.push t) := by
  intro style text hmem
  rw [TokenLog.toList_push, List.mem_append, List.mem_singleton] at hmem
  exact hmem.resolve_right fun heq => h style text heq.symm

/-- A step in front of a token: it reads no text and no scalar. -/
structure Prepares (s s' : Scan) : Prop where
  cursor : s'.cursor = s.cursor
  scalars : HoldsScalars s.log s'.log

theorem Prepares.trans {a b c : Scan} (hab : Prepares a b) (hbc : Prepares b c) : Prepares a c :=
  ⟨hbc.cursor.trans hab.cursor, hab.scalars.trans hbc.scalars⟩

/-- Giving up a pending key changes nothing else. -/
theorem dropKey_eq {s s' : Scan} (h : s.dropKey = some s') : s' = { s with pending := none } := by
  unfold dropKey at h
  split at h
  · simp at h
  · exact (Option.some.inj h).symm

/-- Noting a pending key changes nothing else. -/
theorem noteKey_eq {s s' : Scan} (h : s.noteKey = some s') : ∃ pending, s' = { s with pending } := by
  unfold noteKey at h
  split at h
  · obtain ⟨dropped, hdropped, h⟩ := Option.bind_eq_some_iff.1 h
    obtain rfl := dropKey_eq hdropped
    exact ⟨_, (Option.some.inj h).symm⟩
  · exact ⟨s.pending, (Option.some.inj h).symm⟩

theorem prepares_dropKey {s s' : Scan} (h : s.dropKey = some s') : Prepares s s' := by
  obtain rfl := dropKey_eq h
  exact ⟨rfl, .refl _⟩

theorem prepares_noteKey {s s' : Scan} (h : s.noteKey = some s') : Prepares s s' := by
  obtain ⟨pending, rfl⟩ := noteKey_eq h
  exact ⟨rfl, .refl _⟩

theorem prepares_closeBlocks (s : Scan) (limit : Nat) : Prepares s (s.closeBlocks limit) := by
  unfold closeBlocks
  split
  · exact ⟨rfl, .refl _⟩
  · refine ⟨rfl, holdsScalars_pushAll _ fun style text hmem => ?_⟩
    have := (List.mem_replicate.1 hmem).2
    simp at this

theorem prepares_openBlock? {s s' : Scan} {t : Token} (ht : ∀ style text, t ≠ .scalar style text)
    (h : s.openBlock? t = some s') : Prepares s s' := by
  unfold openBlock? at h
  split at h
  · obtain rfl := Option.some.inj h
    exact ⟨rfl, .refl _⟩
  · split at h
    · obtain rfl := Option.some.inj h
      unfold openBlock
      split
      · exact ⟨rfl, holdsScalars_push _ ht⟩
      · exact ⟨rfl, .refl _⟩
    · simp at h

/-- A step that reads a token other than a scalar. -/
structure TakesMark (s s' : Scan) : Prop where
  shorter : s'.cursor.rest.length < s.cursor.rest.length
  scalars : HoldsScalars s.log s'.log

/-- A step that reads a scalar. -/
structure TakesScalar (style : Style) (text : String) (s s' : Scan) : Prop where
  log : s'.log = s.log.push (.scalar style text)
  shorter : s'.cursor.rest.length < s.cursor.rest.length
  length : text.length + style.marks + s'.cursor.rest.length ≤ s.cursor.rest.length

theorem Prepares.takesMark {a b c : Scan} (hab : Prepares a b) (hbc : TakesMark b c) :
    TakesMark a c :=
  ⟨hab.cursor ▸ hbc.shorter, hab.scalars.trans hbc.scalars⟩

section

variable {s s' : Scan} {t : Token}

theorem takesMark_emitChar (s : Scan) (hs : s.cursor.rest ≠ [])
    (ht : ∀ style text, t ≠ .scalar style text) : TakesMark s (s.emitChar t) :=
  ⟨Cursor.length_skip_one_lt hs, holdsScalars_push _ ht⟩

theorem takesMark_openFlow (hs : s.cursor.rest ≠ []) (ht : ∀ style text, t ≠ .scalar style text)
    (h : s.openFlow t = some s') : TakesMark s s' := by
  obtain ⟨noted, hnoted, h⟩ := Option.bind_eq_some_iff.1 h
  obtain rfl := Option.some.inj h
  have hprepares := prepares_noteKey hnoted
  have hrest : noted.cursor.rest ≠ [] := hprepares.cursor ▸ hs
  exact hprepares.takesMark
    ⟨(takesMark_emitChar noted hrest ht).shorter, (takesMark_emitChar noted hrest ht).scalars⟩

theorem takesMark_closeFlow (hs : s.cursor.rest ≠ []) (ht : ∀ style text, t ≠ .scalar style text)
    (h : s.closeFlow t = some s') : TakesMark s s' := by
  obtain ⟨dropped, hdropped, h⟩ := Option.bind_eq_some_iff.1 h
  obtain rfl := Option.some.inj h
  have hprepares := prepares_dropKey hdropped
  have hrest : dropped.cursor.rest ≠ [] := hprepares.cursor ▸ hs
  exact hprepares.takesMark
    ⟨(takesMark_emitChar dropped hrest ht).shorter, (takesMark_emitChar dropped hrest ht).scalars⟩

theorem takesMark_readComma (hs : s.cursor.rest ≠ []) (h : s.readComma = some s') :
    TakesMark s s' := by
  obtain ⟨dropped, hdropped, h⟩ := Option.bind_eq_some_iff.1 h
  obtain rfl := Option.some.inj h
  have hprepares := prepares_dropKey hdropped
  have hrest : dropped.cursor.rest ≠ [] := hprepares.cursor ▸ hs
  have hchar := takesMark_emitChar (t := .comma) dropped hrest (by simp)
  exact hprepares.takesMark ⟨hchar.shorter, hchar.scalars⟩

theorem takesMark_readDash (hs : s.cursor.rest ≠ []) (h : s.readDash = some s') :
    TakesMark s s' := by
  obtain ⟨opened, hopened, h⟩ := Option.bind_eq_some_iff.1 h
  obtain ⟨dropped, hdropped, h⟩ := Option.bind_eq_some_iff.1 h
  obtain rfl := Option.some.inj h
  have hprepares := (prepares_openBlock? (by simp) hopened).trans (prepares_dropKey hdropped)
  have hrest : dropped.cursor.rest ≠ [] := hprepares.cursor ▸ hs
  have hchar := takesMark_emitChar (t := .dash) dropped hrest (by simp)
  exact hprepares.takesMark ⟨hchar.shorter, hchar.scalars⟩

theorem takesMark_readKey (hs : s.cursor.rest ≠ []) (h : s.readKey = some s') :
    TakesMark s s' := by
  obtain ⟨opened, hopened, h⟩ := Option.bind_eq_some_iff.1 h
  obtain ⟨dropped, hdropped, h⟩ := Option.bind_eq_some_iff.1 h
  obtain rfl := Option.some.inj h
  have hprepares := (prepares_openBlock? (by simp) hopened).trans (prepares_dropKey hdropped)
  have hrest : dropped.cursor.rest ≠ [] := hprepares.cursor ▸ hs
  have hchar := takesMark_emitChar (t := .key) dropped hrest (by simp)
  exact hprepares.takesMark ⟨hchar.shorter, hchar.scalars⟩

theorem takesMark_readValue (hs : s.cursor.rest ≠ []) (h : s.readValue = some s') :
    TakesMark s s' := by
  unfold readValue at h
  split at h
  · rename_i k hk
    obtain rfl := Option.some.inj h
    refine ⟨?_, ?_⟩
    · split <;> exact Cursor.length_skip_one_lt hs
    · split <;> exact (holdsScalars_insertAt _ _ (by simp)).trans (holdsScalars_push _ (by simp))
  · obtain ⟨opened, hopened, h⟩ := Option.bind_eq_some_iff.1 h
    obtain rfl := Option.some.inj h
    have hprepares := prepares_openBlock? (by simp) hopened
    have hrest : opened.cursor.rest ≠ [] := hprepares.cursor ▸ hs
    have hchar := takesMark_emitChar (t := .value) opened hrest (by simp)
    exact hprepares.takesMark ⟨hchar.shorter, hchar.scalars⟩

theorem takesMark_readAlias (hs : s.cursor.rest ≠ []) (h : s.readAlias = some s') :
    TakesMark s s' := by
  obtain ⟨noted, hnoted, h⟩ := Option.bind_eq_some_iff.1 h
  obtain ⟨⟨name, next⟩, hname, h⟩ := Option.bind_eq_some_iff.1 h
  obtain rfl := Option.some.inj h
  have hprepares := prepares_noteKey hnoted
  have hrest : noted.cursor.rest ≠ [] := hprepares.cursor ▸ hs
  exact hprepares.takesMark
    ⟨Cursor.length_anchorName?_lt hrest hname, holdsScalars_push _ (by simp)⟩

theorem takesMark_readAnchor (hs : s.cursor.rest ≠ []) (h : s.readAnchor = some s') :
    TakesMark s s' := by
  obtain ⟨noted, hnoted, h⟩ := Option.bind_eq_some_iff.1 h
  obtain ⟨⟨name, next⟩, hname, h⟩ := Option.bind_eq_some_iff.1 h
  obtain rfl := Option.some.inj h
  have hprepares := prepares_noteKey hnoted
  have hrest : noted.cursor.rest ≠ [] := hprepares.cursor ▸ hs
  exact hprepares.takesMark
    ⟨Cursor.length_anchorName?_lt hrest hname, holdsScalars_push _ (by simp)⟩

theorem takesMark_readTag (h : s.readTag = some s') : TakesMark s s' := by
  obtain ⟨noted, hnoted, h⟩ := Option.bind_eq_some_iff.1 h
  obtain ⟨⟨word, next⟩, hword, h⟩ := Option.bind_eq_some_iff.1 h
  obtain rfl := Option.some.inj h
  exact (prepares_noteKey hnoted).takesMark
    ⟨Cursor.length_tag?_lt hword, holdsScalars_push _ (by simp)⟩

theorem takesMark_readDirective (hs : s.cursor.rest ≠ []) (h : s.readDirective = some s') :
    TakesMark s s' := by
  obtain ⟨dropped, hdropped, h⟩ := Option.bind_eq_some_iff.1 h
  obtain ⟨⟨d, next⟩, hdirective, h⟩ := Option.bind_eq_some_iff.1 h
  obtain rfl := Option.some.inj h
  have hprepares := (prepares_closeBlocks s 0).trans (prepares_dropKey hdropped)
  have hrest : dropped.cursor.rest ≠ [] := hprepares.cursor ▸ hs
  exact hprepares.takesMark
    ⟨Cursor.length_directive?_lt hrest hdirective, holdsScalars_push _ (by simp)⟩

theorem takesMark_readDocumentMark (hs : s.cursor.rest ≠ [])
    (ht : ∀ style text, t ≠ .scalar style text) (h : s.readDocumentMark t = some s') :
    TakesMark s s' := by
  obtain ⟨dropped, hdropped, h⟩ := Option.bind_eq_some_iff.1 h
  obtain rfl := Option.some.inj h
  have hprepares := (prepares_closeBlocks s 0).trans (prepares_dropKey hdropped)
  have hrest : dropped.cursor.rest ≠ [] := hprepares.cursor ▸ hs
  have hpos : 0 < dropped.cursor.rest.length := List.length_pos_iff.2 hrest
  refine hprepares.takesMark ⟨?_, holdsScalars_push _ ht⟩
  simp only [emitTo, Cursor.skip, List.length_drop]
  omega

theorem takesScalar_readBlock {style : Style} (hs : s.cursor.rest ≠ [])
    (h : s.readBlock style = some s') : ∃ text, TakesScalar style text s s' := by
  obtain ⟨dropped, hdropped, h⟩ := Option.bind_eq_some_iff.1 h
  obtain rfl := dropKey_eq hdropped
  obtain ⟨⟨text, next⟩, htext, h⟩ := Option.bind_eq_some_iff.1 h
  obtain rfl := Option.some.inj h
  have hlength : text.length + next.rest.length < s.cursor.rest.length :=
    Cursor.length_blockScalar?_lt hs htext
  have hmarks : style.marks ≤ 1 := by cases style <;> simp [Style.marks]
  refine ⟨String.ofList text, rfl, ?_, ?_⟩
  · simp only [emitTo]
    omega
  · simp only [emitTo, String.length_ofList]
    omega

theorem takesScalar_readQuoted {style : Style} (hs : s.cursor.rest ≠ [])
    (h : s.readQuoted style = some s') : ∃ text, TakesScalar style text s s' := by
  obtain ⟨noted, hnoted, h⟩ := Option.bind_eq_some_iff.1 h
  obtain ⟨pending, rfl⟩ := noteKey_eq hnoted
  have hskip := Cursor.length_skip_one_lt hs
  have hmarks : style.marks ≤ 1 := by cases style <;> simp [Style.marks]
  have htakes : ∀ (text : List Char) (next : Cursor),
      text.length + next.rest.length < (s.cursor.skip 1).rest.length →
        TakesScalar style (String.ofList text) s
          (emitTo { s with pending } (.scalar style (String.ofList text)) next) := by
    intro text next hlength
    refine ⟨rfl, ?_, ?_⟩
    · simp only [emitTo]
      omega
    · simp only [emitTo, String.length_ofList]
      omega
  dsimp only at h
  split at h
  · obtain ⟨⟨text, next⟩, htext, h⟩ := Option.bind_eq_some_iff.1 h
    obtain rfl := Option.some.inj h
    have hlength := length_readSingleQuoted_lt htext
    exact ⟨_, htakes text next (by simpa using hlength)⟩
  · obtain ⟨⟨text, next⟩, htext, h⟩ := Option.bind_eq_some_iff.1 h
    obtain rfl := Option.some.inj h
    have hlength := length_readDoubleQuoted_lt htext
    exact ⟨_, htakes text next (by simpa using hlength)⟩

/-- Reading a plain scalar never goes back. -/
theorem length_readPlain_next_le {inFlow : Bool} {margin : Nat} {read : List Char} {gap : Gap}
    {place : Place} {text : List Char} {scalar : PlainScalar}
    (h : readPlain inFlow margin read gap place text = some scalar) :
    scalar.next.rest.length ≤ text.length := by
  fun_induction readPlain inFlow margin read gap place text with
  | case1 | case6 =>
    obtain rfl := Option.some.inj h
    exact Nat.le_refl _
  | case4 | case7 => simp at h
  | case2 read gap place rest ih
  | case3 read gap place c rest _ _ ih
  | case5 read gap place c rest _ _ _ _ ih
  | case8 read gap place c rest _ _ _ _ _ ih =>
    have := ih h
    simp only [List.length_cons]
    omega

/-- A plain scalar that does not end at its first character takes that character. -/
theorem length_readPlain_next_lt {inFlow : Bool} {margin : Nat} {read : List Char} {gap : Gap}
    {place : Place} {c : Char} {rest : List Char} {scalar : PlainScalar}
    (hends : endsPlain inFlow margin gap place.column c rest = false)
    (h : readPlain inFlow margin read gap place (c :: rest) = some scalar) :
    scalar.next.rest.length < (c :: rest).length := by
  rw [readPlain.eq_def] at h
  split at h
  · rename_i heq
    simp at heq
  · rename_i rest' heq
    obtain ⟨rfl, rfl⟩ := List.cons.inj heq
    have := length_readPlain_next_le h
    simp only [List.length_cons]
    omega
  · rename_i c' rest' _ heq
    obtain ⟨rfl, rfl⟩ := List.cons.inj heq
    rw [hends] at h
    -- Each way on takes the first character, and what follows gives none back.
    have hstep : ∀ {read' : List Char} {gap' : Gap} {place' : Place},
        readPlain inFlow margin read' gap' place' rest = some scalar →
          scalar.next.rest.length < (c :: rest).length :=
      fun h => Nat.lt_succ_of_le (length_readPlain_next_le h)
    split at h
    · exact hstep h
    · split at h
      · split at h
        · simp at h
        · exact hstep h
      · split at h
        · contradiction
        · split at h
          · simp at h
          · exact hstep h

theorem takesScalar_readPlainScalar {c : Char} {rest : List Char}
    (hs : s.cursor.rest = c :: rest)
    (hends : endsPlain s.inFlow s.margin .empty s.column c rest = false)
    (h : s.readPlainScalar = some s') : ∃ text, TakesScalar .plain text s s' := by
  obtain ⟨noted, hnoted, h⟩ := Option.bind_eq_some_iff.1 h
  obtain ⟨pending, rfl⟩ := noteKey_eq hnoted
  obtain ⟨scalar, hscalar, h⟩ := Option.bind_eq_some_iff.1 h
  obtain rfl := Option.some.inj h
  have hread : readPlain s.inFlow s.margin [] .empty s.cursor.place (c :: rest) = some scalar :=
    hs ▸ hscalar
  have hlength := length_readPlain_le hread
  refine ⟨String.ofList scalar.text, rfl, ?_, ?_⟩
  · rw [hs]
    exact length_readPlain_next_lt hends hread
  · simpa [emitTo, hs, Style.marks] using hlength

end

/-- What a choice gives comes from one of its two sides. -/
theorem of_ite_eq {α : Type} {p : Prop} [Decidable p] {a b x : α}
    (h : (if p then a else b) = x) : (p ∧ a = x) ∨ (¬ p ∧ b = x) := by
  by_cases hp : p
  · exact .inl ⟨hp, by rwa [if_pos hp] at h⟩
  · exact .inr ⟨hp, by rwa [if_neg hp] at h⟩

/-- Each token is a plain scalar, another scalar or a mark. -/
theorem readToken_cases {s s' : Scan} {c : Char} {rest : List Char}
    (hs : s.cursor.rest = c :: rest) (h : s.readToken c rest = some s') :
    TakesMark s s' ∨ (∃ style text, style ≠ .plain ∧ TakesScalar style text s s') ∨
      ((isBreak c = false → startsPlain c rest = true) ∧ atDocumentMark s.column (c :: rest) = false ∧
        s.readPlainScalar = some s' ∧ ∃ text, TakesScalar .plain text s s') := by
  have hne : s.cursor.rest ≠ [] := by simp [hs]
  -- One test after the other, as the reader makes them: each one that fails says what `c` is not.
  unfold readToken at h
  rcases of_ite_eq h with ⟨-, h⟩ | ⟨-, h⟩
  · exact .inl (takesMark_readDirective hne h)
  rcases of_ite_eq h with ⟨-, h⟩ | ⟨hmark, h⟩
  · exact .inl (takesMark_readDocumentMark hne (by split <;> simp) h)
  rcases of_ite_eq h with ⟨-, h⟩ | ⟨hopenSequence, h⟩
  · exact .inl (takesMark_openFlow hne (by simp) h)
  rcases of_ite_eq h with ⟨-, h⟩ | ⟨hopenMapping, h⟩
  · exact .inl (takesMark_openFlow hne (by simp) h)
  rcases of_ite_eq h with ⟨-, h⟩ | ⟨hcloseSequence, h⟩
  · exact .inl (takesMark_closeFlow hne (by simp) h)
  rcases of_ite_eq h with ⟨-, h⟩ | ⟨hcloseMapping, h⟩
  · exact .inl (takesMark_closeFlow hne (by simp) h)
  rcases of_ite_eq h with ⟨-, h⟩ | ⟨hcomma, h⟩
  · exact .inl (takesMark_readComma hne h)
  rcases of_ite_eq h with ⟨-, h⟩ | ⟨hdash, h⟩
  · exact .inl (takesMark_readDash hne h)
  rcases of_ite_eq h with ⟨-, h⟩ | ⟨hquestion, h⟩
  · exact .inl (takesMark_readKey hne h)
  rcases of_ite_eq h with ⟨-, h⟩ | ⟨hcolon, h⟩
  · exact .inl (takesMark_readValue hne h)
  -- Nothing that is left ends a plain scalar at its first character.
  have hends : endsPlain s.inFlow s.margin .empty s.column c rest = false := by
    have hindicator : isFlowIndicator c = false := by
      simp [isFlowIndicator, hopenSequence, hopenMapping, hcloseSequence, hcloseMapping, hcomma]
    have hvalue : (c == ':' && startsBlank rest) = false := by
      cases hblank : startsBlank rest with
      | false => exact Bool.and_false _
      | true =>
        rw [hblank, Bool.or_true] at hcolon
        exact Bool.eq_false_iff.2 hcolon
    simp only [endsPlain, Gap.hasBreak, Gap.isEmpty, Gap.empty, hvalue, hindicator,
      Bool.eq_false_iff.2 hmark, List.isEmpty_nil, Bool.and_false, Bool.false_and, Bool.or_false,
      Bool.not_true]
  have hplain : s.readPlainScalar = some s' → ∃ text, TakesScalar .plain text s s' :=
    takesScalar_readPlainScalar hs hends
  rcases of_ite_eq h with ⟨-, h⟩ | ⟨halias, h⟩
  · exact .inl (takesMark_readAlias hne h)
  rcases of_ite_eq h with ⟨-, h⟩ | ⟨hanchor, h⟩
  · exact .inl (takesMark_readAnchor hne h)
  rcases of_ite_eq h with ⟨-, h⟩ | ⟨htag, h⟩
  · exact .inl (takesMark_readTag h)
  rcases of_ite_eq h with ⟨-, h⟩ | ⟨-, h⟩
  · exact .inr (.inl ⟨_, _, by simp, (takesScalar_readBlock hne h).choose_spec⟩)
  rcases of_ite_eq h with ⟨-, h⟩ | ⟨-, h⟩
  · exact .inr (.inl ⟨_, _, by simp, (takesScalar_readBlock hne h).choose_spec⟩)
  rcases of_ite_eq h with ⟨-, h⟩ | ⟨hsingle, h⟩
  · exact .inr (.inl ⟨_, _, by simp, (takesScalar_readQuoted hne h).choose_spec⟩)
  rcases of_ite_eq h with ⟨-, h⟩ | ⟨hdouble, h⟩
  · exact .inr (.inl ⟨_, _, by simp, (takesScalar_readQuoted hne h).choose_spec⟩)
  rcases of_ite_eq h with ⟨hspecial, h⟩ | ⟨hspecial, h⟩
  · -- These three have failed their own tests only for what stands behind them.
    refine .inr (.inr ⟨fun _ => ?_, Bool.eq_false_iff.2 hmark, h, hplain h⟩)
    rw [startsPlain, if_pos hspecial]
    simp only [Bool.or_eq_true, beq_iff_eq] at hspecial
    rcases hspecial with (rfl | rfl) | rfl
    · simpa using hdash
    · simp only [beq_self_eq_true, Bool.true_and, Bool.or_eq_true, not_or] at hquestion
      simpa using hquestion.2
    · simp only [beq_self_eq_true, Bool.true_and, Bool.or_eq_true, not_or] at hcolon
      simpa using hcolon.2
  rcases of_ite_eq h with ⟨-, h⟩ | ⟨hlast, h⟩
  · simp at h
  · refine .inr (.inr ⟨fun hbreak => ?_, Bool.eq_false_iff.2 hmark, h, hplain h⟩)
    have hlast : isBlank c = false ∧ c ∉ "#|>%@\x60".toList := by
      simpa using hlast
    have hnone : c ∉ "[]\x7b\x7d,*&!|>'\"#%@\x60".toList := by
      have hothers := hlast.2
      simp only [beq_iff_eq] at hopenSequence hcloseSequence hopenMapping hcloseMapping hcomma
      simp only [beq_iff_eq] at halias hanchor htag hsingle hdouble
      simp only [String.reduceToList, List.mem_cons, List.not_mem_nil, not_or] at hothers ⊢
      exact ⟨hopenSequence, hcloseSequence, hopenMapping, hcloseMapping, hcomma, halias, hanchor,
        htag, hothers.2.1, hothers.2.2.1, hsingle, hdouble, hothers.1, hothers.2.2.2⟩
    rw [startsPlain, if_neg hspecial, hlast.1, hbreak]
    simpa using hnone

/-- Each token takes some of the text, and a scalar at least as many characters as it holds. -/
theorem readToken_advances {s s' : Scan} {c : Char} {rest : List Char}
    (hs : s.cursor.rest = c :: rest) (h : s.readToken c rest = some s') :
    s'.cursor.rest.length < s.cursor.rest.length ∧
      ∀ style text, .scalar style text ∈ s'.log.toList → .scalar style text ∈ s.log.toList ∨
        text.length + style.marks + s'.cursor.rest.length ≤ s.cursor.rest.length := by
  have hscalar : ∀ {style : Style} {text : String}, TakesScalar style text s s' →
      s'.cursor.rest.length < s.cursor.rest.length ∧
        ∀ style text, .scalar style text ∈ s'.log.toList → .scalar style text ∈ s.log.toList ∨
          text.length + style.marks + s'.cursor.rest.length ≤ s.cursor.rest.length := by
    intro style text htakes
    refine ⟨htakes.shorter, fun style' text' hmem => ?_⟩
    rw [htakes.log, TokenLog.toList_push, List.mem_append, List.mem_singleton] at hmem
    rcases hmem with hmem | heq
    · exact .inl hmem
    · obtain ⟨rfl, rfl⟩ := Token.scalar.inj heq
      exact .inr htakes.length
  rcases readToken_cases hs h with hmark | ⟨style, text, -, htakes⟩ | ⟨-, -, -, text, htakes⟩
  · exact ⟨hmark.shorter, fun style text hmem => .inl (hmark.scalars style text hmem)⟩
  · exact hscalar htakes
  · exact hscalar htakes

end Scan
end Yaml
end CiPipelines
