import CiPipelines.Proofs.ParallelReaders
import CiPipelines.Proofs.TokenRun
import Mathlib.Data.List.Forall2

/-!
# Runs side by side

Two runs of the token reader that have reached the same text in the same column, with the same blocks
open, give the same tokens from there on.  Every step of one is matched by a step of the other.
-/

namespace CiPipelines
namespace Yaml
namespace Scan

variable {j : Junction}

/-! ## Alike states -/

/-- Token lists with the same tokens behind a junction. -/
def TokensAlike (j : Junction) (a b : List Token) : Prop :=
  ∃ ts, a = j.leftTokens ++ ts ∧ b = j.rightTokens ++ ts

/-- Logs with the same tokens behind a junction. -/
def LogAlike (j : Junction) (a b : TokenLog) : Prop := TokensAlike j a.toList b.toList

namespace LogAlike

variable {a b : TokenLog}

theorem pushAll (h : LogAlike j a b) (ts : List Token) : LogAlike j (a.pushAll ts) (b.pushAll ts) := by
  obtain ⟨us, ha, hb⟩ := h
  refine ⟨us ++ ts, ?_, ?_⟩
  · rw [TokenLog.toList_pushAll, ha, List.append_assoc]
  · rw [TokenLog.toList_pushAll, hb, List.append_assoc]

theorem push (h : LogAlike j a b) (t : Token) : LogAlike j (a.push t) (b.push t) := by
  obtain ⟨us, ha, hb⟩ := h
  refine ⟨us ++ [t], ?_, ?_⟩
  · rw [TokenLog.toList_push, ha, List.append_assoc]
  · rw [TokenLog.toList_push, hb, List.append_assoc]

theorem insertAt (h : LogAlike j a b) (n : Nat) (ts : List Token) :
    LogAlike j (a.insertAt (j.leftTokens.length + n) ts) (b.insertAt (j.rightTokens.length + n) ts) := by
  obtain ⟨us, ha, hb⟩ := h
  refine ⟨us.take n ++ ts ++ us.drop n, ?_, ?_⟩
  · rw [TokenLog.toList_insertAt, ha, List.take_length_add_append, List.drop_length_add_append,
      List.append_assoc, List.append_assoc, List.append_assoc]
  · rw [TokenLog.toList_insertAt, hb, List.take_length_add_append, List.drop_length_add_append,
      List.append_assoc, List.append_assoc, List.append_assoc]

theorem size (h : LogAlike j a b) :
    ∃ n, a.size = j.leftTokens.length + n ∧ b.size = j.rightTokens.length + n := by
  obtain ⟨us, ha, hb⟩ := h
  refine ⟨us.length, ?_, ?_⟩
  · rw [← a.length_toList, ha, List.length_append]
  · rw [← b.length_toList, hb, List.length_append]

end LogAlike

/-- Pending keys at the same distance from a junction. -/
structure PendingAlike (j : Junction) (k l : PendingKey) : Prop where
  position : ∃ n, k.position = j.leftTokens.length + n ∧ l.position = j.rightTokens.length + n
  required : l.required = k.required
  place : k.place.Alike j l.place

/-- States of two runs that have read the same behind a junction. -/
structure Alike (j : Junction) (s t : Scan) : Prop where
  cursor : s.cursor.Alike j t.cursor
  log : LogAlike j s.log t.log
  margins : t.margins = s.margins
  keyAllowed : t.keyAllowed = s.keyAllowed
  pending : Option.Rel (PendingAlike j) s.pending t.pending
  outerPending : List.Forall₂ (Option.Rel (PendingAlike j)) s.outerPending t.outerPending

/-! ## In front of a token -/

theorem skipBlank_alike {p q : Place} (h : p.Alike j q) (inFlow keyAllowed inComment : Bool)
    (text : List Char) :
    (skipBlank inFlow keyAllowed inComment p text).1.Alike j
        (skipBlank inFlow keyAllowed inComment q text).1 ∧
      (skipBlank inFlow keyAllowed inComment q text).2 =
        (skipBlank inFlow keyAllowed inComment p text).2 := by
  fun_induction skipBlank inFlow keyAllowed inComment p text generalizing q with
  | case1 keyAllowed inComment place => exact ⟨⟨rfl, h⟩, rfl⟩
  | case2 keyAllowed inComment place rest ih => exact ih (h.newLine 2)
  | case3 keyAllowed inComment place c rest hcrlf hbreak ih =>
    rw [skipBlank.eq_3 _ _ _ _ _ _ hcrlf, if_pos hbreak]
    exact ih (h.newLine 1)
  | case4 keyAllowed inComment place c rest hcrlf hbreak hskip ih =>
    rw [skipBlank.eq_3 _ _ _ _ _ _ hcrlf, if_neg hbreak, if_pos hskip]
    exact ih (h.forward 1)
  | case5 keyAllowed inComment place c rest hcrlf hbreak hskip hcomment ih =>
    rw [skipBlank.eq_3 _ _ _ _ _ _ hcrlf, if_neg hbreak, if_neg hskip, if_pos hcomment]
    exact ih (h.forward 1)
  | case6 keyAllowed inComment place c rest hcrlf hbreak hskip hcomment =>
    rw [skipBlank.eq_3 _ _ _ _ _ _ hcrlf, if_neg hbreak, if_neg hskip, if_neg hcomment]
    exact ⟨⟨rfl, h⟩, rfl⟩

theorem keepNear_alike {p q : Place} (h : p.Alike j q) {k l : Option PendingKey}
    (hkeys : Option.Rel (PendingAlike j) k l) :
    Option.Rel (Option.Rel (PendingAlike j)) (keepNear p k) (keepNear q l) := by
  cases hkeys with
  | none => exact .some .none
  | @some k l hkl =>
    have hindex : (l.place.index + 1024 < q.index) = (k.place.index + 1024 < p.index) := by
      have hkey := hkl.place.index
      have hplace := h.index
      refine propext ?_
      omega
    have hline : (l.place.line < q.line) = (k.place.line < p.line) := by
      have hkey := hkl.place.line
      have hplace := h.line
      refine propext ?_
      omega
    simp only [keepNear, hline, hkl.required, hindex]
    split
    · split
      · exact .none
      · exact .some .none
    · exact .some (.some hkl)

theorem rel_mapM {α β γ δ : Type} {R : α → β → Prop} {S : γ → δ → Prop} {f : α → Option γ}
    {g : β → Option δ} (hstep : ∀ a b, R a b → Option.Rel S (f a) (g b)) {as : List α} {bs : List β}
    (h : List.Forall₂ R as bs) : Option.Rel (List.Forall₂ S) (as.mapM f) (bs.mapM g) := by
  induction h with
  | nil => exact .some .nil
  | cons hab _ ih =>
    rw [List.mapM_cons, List.mapM_cons]
    exact rel_bind (hstep _ _ hab) fun c d hcd => rel_bind ih fun cs ds hrest =>
      .some (.cons hcd hrest)

namespace Alike

variable {s t : Scan} (h : s.Alike j t)

include h

theorem inFlow : t.inFlow = s.inFlow := by
  have houter := h.outerPending
  unfold Scan.inFlow
  generalize s.outerPending = ks at houter ⊢
  generalize t.outerPending = ls at houter ⊢
  cases houter <;> rfl

theorem margin : t.margin = s.margin := congrArg (·.headD 0) h.margins

theorem column : t.column = s.column := h.cursor.place.column

theorem opensBlock (column : Nat) : t.opensBlock column = s.opensBlock column := by
  unfold Scan.opensBlock
  rw [h.inFlow, h.margin]

theorem toToken : s.toToken.Alike j t.toToken := by
  have hstart : ∀ {p : Place}, 0 < p.index → p.index ≠ 0 := fun hpos => Nat.ne_of_gt hpos
  have hskip := skipBlank_alike h.cursor.place s.inFlow s.keyAllowed false s.cursor.rest
  have hinFlow := h.inFlow
  have hstarted := h.cursor.place.started
  obtain ⟨⟨rest, place⟩, log, margins, keyAllowed, pending, outerPending⟩ := s
  obtain ⟨⟨rest', place'⟩, log', margins', keyAllowed', pending', outerPending'⟩ := t
  obtain ⟨⟨hrest, hplace⟩, hlog, hmargins, hkey, hpending, houter⟩ := h
  simp only at hrest hkey hstarted hskip
  subst hrest hkey
  unfold Scan.toToken
  simp only [hinFlow]
  split
  · rw [if_neg (hstart hstarted.1), if_neg (hstart hstarted.2)]
    exact ⟨hskip.1, hlog, hmargins, hskip.2, hpending, houter⟩
  · exact ⟨hskip.1, hlog, hmargins, hskip.2, hpending, houter⟩

theorem dropFarKeys : Option.Rel (Alike j) s.dropFarKeys t.dropFarKeys := by
  have hnear := fun k l => @keepNear_alike j _ _ h.cursor.place k l
  refine rel_bind (hnear _ _ h.pending) fun k l hkl => ?_
  exact rel_bind (rel_mapM hnear h.outerPending) fun ks ls hrest =>
    .some { h with pending := hkl, outerPending := hrest }

theorem closeBlocks (limit : Nat) : (s.closeBlocks limit).Alike j (t.closeBlocks limit) := by
  unfold Scan.closeBlocks
  rw [h.inFlow]
  split
  · exact h
  · dsimp only
    rw [h.margins]
    exact { h with margins := rfl, log := h.log.pushAll _ }

theorem approach : Option.Rel (Alike j) s.approach t.approach := by
  unfold Scan.approach
  rw [Option.map_eq_bind, Option.map_eq_bind]
  refine rel_bind h.toToken.dropFarKeys fun a b hab => .some ?_
  dsimp only
  rw [hab.column]
  exact hab.closeBlocks _

theorem dropKey : Option.Rel (Alike j) s.dropKey t.dropKey := by
  have hrequired : t.pending.any (·.required) = s.pending.any (·.required) := by
    have hpending := h.pending
    generalize s.pending = k at hpending ⊢
    generalize t.pending = l at hpending ⊢
    cases hpending with
    | none => rfl
    | some hkl => exact hkl.required
  unfold Scan.dropKey
  rw [hrequired]
  split
  · exact .none
  · exact .some { h with pending := .none }

theorem noteKey : Option.Rel (Alike j) s.noteKey t.noteKey := by
  unfold Scan.noteKey
  rw [h.keyAllowed]
  split
  · refine rel_bind h.dropKey fun a b hab => .some { hab with pending := .some ?_ }
    refine ⟨hab.log.size, ?_, hab.cursor.place⟩
    simp only [hab.inFlow, hab.margin, hab.column]
  · exact .some h

theorem emitChar (token : Token) : (s.emitChar token).Alike j (t.emitChar token) :=
  { h with log := h.log.push token, cursor := h.cursor.skip 1 }

theorem emitTo (token : Token) {c d : Cursor} (hnext : c.Alike j d) :
    (s.emitTo token c).Alike j (t.emitTo token d) :=
  { h with log := h.log.push token, cursor := hnext, keyAllowed := rfl }

theorem finish : Option.Rel (TokensAlike j) s.finish t.finish :=
  rel_bind (h.closeBlocks 0).dropKey fun _ _ hab => .some hab.log

/-! ## Tokens -/

theorem openBlock? (token : Token) : Option.Rel (Alike j) (s.openBlock? token) (t.openBlock? token) := by
  have hmargins : (s.column + 1) :: t.margins = (s.column + 1) :: s.margins :=
    congrArg _ h.margins
  unfold Scan.openBlock? Scan.openBlock
  rw [h.inFlow, h.keyAllowed, h.column, h.opensBlock]
  split
  · exact .some h
  · split
    · split
      · exact .some ⟨h.cursor, h.log.push token, hmargins, rfl, h.pending, h.outerPending⟩
      · exact .some h
    · exact .none

theorem openFlow (token : Token) : Option.Rel (Alike j) (s.openFlow token) (t.openFlow token) :=
  rel_bind h.noteKey fun _ _ hab => .some { hab.emitChar token with
    keyAllowed := rfl, pending := .none, outerPending := .cons hab.pending hab.outerPending }

theorem closeFlow (token : Token) : Option.Rel (Alike j) (s.closeFlow token) (t.closeFlow token) := by
  refine rel_bind h.dropKey fun a b hab => .some { hab.emitChar token with
    keyAllowed := rfl, pending := ?_, outerPending := ?_ }
  all_goals
    have houter := hab.outerPending
    generalize a.outerPending = ks at houter ⊢
    generalize b.outerPending = ls at houter ⊢
    cases houter with
    | nil => constructor
    | cons hkl hrest => assumption

theorem readComma : Option.Rel (Alike j) s.readComma t.readComma :=
  rel_bind h.dropKey fun _ _ hab => .some { hab.emitChar .comma with keyAllowed := rfl }

theorem readDash : Option.Rel (Alike j) s.readDash t.readDash :=
  rel_bind (h.openBlock? .blockSequence) fun _ _ hopen => rel_bind hopen.dropKey fun _ _ hab =>
    .some { hab.emitChar .dash with keyAllowed := rfl }

theorem readKey : Option.Rel (Alike j) s.readKey t.readKey :=
  rel_bind (h.openBlock? .blockMapping) fun _ _ hopen => rel_bind hopen.dropKey fun _ _ hab =>
    .some { hab.emitChar .key with keyAllowed := congrArg (! ·) hab.inFlow }

theorem readValue : Option.Rel (Alike j) s.readValue t.readValue := by
  have hpending := h.pending
  unfold Scan.readValue
  generalize s.pending = k at hpending ⊢
  generalize t.pending = l at hpending ⊢
  cases hpending with
  | none =>
    refine rel_bind (h.openBlock? .blockMapping) fun _ _ hab => .some { hab.emitChar .value with
      keyAllowed := congrArg (! ·) hab.inFlow }
  | @some k l hkl =>
    obtain ⟨n, hk, hl⟩ := hkl.position
    have hmargins : (k.place.column + 1) :: t.margins = (k.place.column + 1) :: s.margins :=
      congrArg _ h.margins
    dsimp only
    rw [h.opensBlock, hkl.place.column, hk, hl]
    split
    · exact .some ⟨h.cursor.skip 1, (h.log.insertAt n _).push _, hmargins, rfl, .none,
        h.outerPending⟩
    · exact .some ⟨h.cursor.skip 1, (h.log.insertAt n _).push _, h.margins, rfl, .none,
        h.outerPending⟩

theorem readAlias : Option.Rel (Alike j) s.readAlias t.readAlias :=
  rel_bind h.noteKey fun _ _ hab => rel_read hab.cursor.anchorName? fun _ _ _ hnext =>
    .some (hab.emitTo _ hnext)

theorem readAnchor : Option.Rel (Alike j) s.readAnchor t.readAnchor :=
  rel_bind h.noteKey fun _ _ hab => rel_read hab.cursor.anchorName? fun _ _ _ hnext =>
    .some (hab.emitTo _ hnext)

theorem readTag : Option.Rel (Alike j) s.readTag t.readTag := by
  refine rel_bind h.noteKey fun a b hab => ?_
  rw [hab.inFlow]
  refine rel_read (hab.cursor.tag? _) fun word c d hnext => ?_
  exact .some (hab.emitTo _ hnext)

theorem readBlock (style : Style) : Option.Rel (Alike j) (s.readBlock style) (t.readBlock style) := by
  refine rel_bind h.dropKey fun a b hab => ?_
  rw [hab.margin]
  exact rel_read (hab.cursor.blockScalar? ..) fun _ _ _ hnext =>
    .some { hab.emitTo _ hnext with keyAllowed := rfl }

theorem readQuoted (style : Style) : Option.Rel (Alike j) (s.readQuoted style) (t.readQuoted style) := by
  refine rel_bind h.noteKey fun a b hab => ?_
  have hinner := hab.cursor.skip 1
  have hend : ∀ (text : List Char) (c d : Cursor), c.Alike j d → Option.Rel (Alike j)
      (some (a.emitTo (.scalar style (String.ofList text)) c))
      (some (b.emitTo (.scalar style (String.ofList text)) d)) := fun _ _ _ hnext =>
    .some (hab.emitTo _ hnext)
  unfold Cursor.singleQuoted? Cursor.doubleQuoted?
  dsimp only
  rw [hinner.rest]
  exact rel_ite (rel_read (rel_readSingleQuoted hinner.place ..) hend)
    (rel_read (rel_readDoubleQuoted hinner.place ..) hend)

theorem readPlainScalar : Option.Rel (Alike j) s.readPlainScalar t.readPlainScalar := by
  refine rel_bind h.noteKey fun a b hab => ?_
  unfold Cursor.plainScalar?
  rw [hab.inFlow, hab.margin, hab.cursor.rest]
  refine rel_bind (rel_readPlain hab.cursor.place ..) fun scalar scalar' hscalar => ?_
  rw [hscalar.text]
  exact .some { hab.emitTo _ hscalar.next with keyAllowed := hscalar.onNewLine }

theorem readDirective : Option.Rel (Alike j) s.readDirective t.readDirective :=
  rel_bind (h.closeBlocks 0).dropKey fun _ _ hab =>
    rel_read hab.cursor.directive? fun _ _ _ hnext => .some (hab.emitTo _ hnext)

theorem readDocumentMark (token : Token) :
    Option.Rel (Alike j) (s.readDocumentMark token) (t.readDocumentMark token) :=
  rel_bind (h.closeBlocks 0).dropKey fun _ _ hab => .some (hab.emitTo token (hab.cursor.skip 3))

/-- The next token is read alike. -/
theorem readToken (c : Char) (rest : List Char) :
    Option.Rel (Alike j) (s.readToken c rest) (t.readToken c rest) := by
  unfold Scan.readToken
  rw [h.inFlow, h.column]
  refine rel_ite h.readDirective ?_
  refine rel_ite (h.readDocumentMark _) ?_
  refine rel_ite (h.openFlow _) ?_
  refine rel_ite (h.openFlow _) ?_
  refine rel_ite (h.closeFlow _) ?_
  refine rel_ite (h.closeFlow _) ?_
  refine rel_ite h.readComma ?_
  refine rel_ite h.readDash ?_
  refine rel_ite h.readKey ?_
  refine rel_ite h.readValue ?_
  refine rel_ite h.readAlias ?_
  refine rel_ite h.readAnchor ?_
  refine rel_ite h.readTag ?_
  refine rel_ite (h.readBlock _) ?_
  refine rel_ite (h.readBlock _) ?_
  refine rel_ite (h.readQuoted _) ?_
  refine rel_ite (h.readQuoted _) ?_
  refine rel_ite h.readPlainScalar ?_
  refine rel_ite .none ?_
  exact h.readPlainScalar

end Alike

/-! ## Runs -/

/-- Runs from alike states give the same tokens behind the junction. -/
theorem Alike.result {s t : Scan} (h : s.Alike j t) :
    Option.Rel (TokensAlike j) s.result t.result := by
  -- On the text that is left, of which each token takes some.
  induction hlength : s.cursor.rest.length using Nat.strongRecOn generalizing s t with
  | ind n ih =>
    rw [result_eq, result_eq]
    refine rel_bind (rel_remember h.approach) fun a b ⟨ha, hab⟩ => ?_
    have hnear := length_approach_le ha
    rw [hab.cursor.rest]
    split
    · exact hab.finish
    · rename_i c rest hrest
      refine rel_bind (rel_remember (hab.readToken c rest)) fun a' b' ⟨ha', hab'⟩ => ?_
      have hshorter := (readToken_advances hrest ha').1
      exact ih _ (by omega) hab' rfl

end Scan
end Yaml
end CiPipelines
