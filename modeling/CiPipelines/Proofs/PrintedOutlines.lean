import CiPipelines.Proofs.OutlineTokens

/-!
# Printed outlines

The text of a sound outline holds only characters that YAML permits, so that the whole text is read
as the tokens of the outline, if its keys are short enough.
-/

namespace CiPipelines

open Yaml

namespace Outline

/-- A text of characters that YAML permits. -/
def Permitted (text : List Char) : Prop := ∀ c ∈ text, isPermitted c = true

theorem permitted_append {a b : List Char} (ha : Permitted a) (hb : Permitted b) :
    Permitted (a ++ b) := by
  intro c hc
  rcases List.mem_append.1 hc with hc | hc
  · exact ha c hc
  · exact hb c hc

theorem permitted_cons {c : Char} {text : List Char} (hc : isPermitted c = true)
    (ht : Permitted text) : Permitted (c :: text) := by
  intro d hd
  rcases List.mem_cons.1 hd with rfl | hd
  · exact hc
  · exact ht d hd

theorem permitted_replicate {c : Char} (n : Nat) (hc : isPermitted c = true) :
    Permitted (List.replicate n c) := by
  intro d hd
  rw [List.eq_of_mem_replicate hd]
  exact hc

theorem permitted_of_ordinary {text : List Char} (h : Text.OrdinaryChars text) : Permitted text :=
  fun c hc => Text.isPermitted_of_isOrdinary (h c hc)

/-- Whether a text is permitted can be computed. -/
theorem permitted_of_all {text : List Char} (h : text.all isPermitted = true) : Permitted text :=
  List.all_eq_true.1 h

theorem permitted_hexText (n : Nat) (h : n < 32) : Permitted (Text.hexText 'a' 4 n) :=
  permitted_of_all ((by decide : ∀ n < 32, (Text.hexText 'a' 4 n).all isPermitted = true) n h)

/-- An escape is written in permitted characters. -/
theorem permitted_escape {c : Char} (hc : isPermitted c = true) : Permitted (Json.escape c) := by
  unfold Json.escape
  split
  case h_8 =>
    split
    · rename_i hlow
      exact permitted_cons (by decide)
        (permitted_cons (by decide) (permitted_hexText c.toNat hlow))
    · exact permitted_cons hc fun d hd => absurd hd (List.not_mem_nil)
  all_goals
    exact permitted_cons (by decide)
      (permitted_cons (by decide) fun d hd => absurd hd (List.not_mem_nil))

theorem permitted_inline {s : String} (hs : Text.OrdinaryChars s.toList) :
    Permitted (inline s).toList := by
  have hordinary := permitted_of_ordinary hs
  have hinline := inline_of_ordinary hs
  generalize (inline s).toList = written at hinline ⊢
  generalize inlineStyle s = style at hinline
  cases hinline with
  | plain hplain => exact hordinary
  | singleQuoted htext =>
    refine permitted_cons (by decide) (permitted_append (fun c hc => ?_) ?_)
    · obtain ⟨d, hd, hc⟩ := List.mem_flatMap.1 hc
      split at hc
      · have hquote : c = '\'' := by simpa using hc
        rw [hquote]
        decide
      · rw [List.mem_singleton.1 hc]
        exact hordinary d hd
    · exact permitted_cons (by decide) fun d hd => absurd hd (List.not_mem_nil)
  | doubleQuoted htext =>
    refine permitted_cons (by decide) (permitted_append (fun c hc => ?_) ?_)
    · obtain ⟨d, hd, hc⟩ := List.mem_flatMap.1 hc
      exact permitted_escape (hordinary d hd) c hc
    · exact permitted_cons (by decide) fun d hd => absurd hd (List.not_mem_nil)

theorem permitted_blockLines {text : List Char} (indent : Nat) (h : Permitted text) :
    Permitted (blockLines indent (text.splitOn '\n')) := by
  intro c hc
  obtain ⟨line, hline, hc⟩ := List.mem_flatMap.1 hc
  have hpermitted : Permitted line := fun d hd => h d (Text.of_mem_splitOn hline hd).1
  have hbreak : Permitted ['\n'] :=
    permitted_cons (by decide) fun d hd => absurd hd (List.not_mem_nil)
  unfold blockLine at hc
  split at hc
  · exact hbreak c hc
  · exact permitted_append (permitted_append (permitted_replicate indent (by decide)) hpermitted)
      hbreak c hc

theorem permitted_valueText {s : String} (indent : Nat) (hs : Text.OrdinaryChars s.toList) :
    Permitted (valueText s indent).toList := by
  unfold valueText
  split
  · obtain ⟨header, body, hparts⟩ : ∃ header body, blockParts s.toList = (header, body) :=
      ⟨_, _, rfl⟩
    have hheader : Permitted header.toList ∧ ∀ c ∈ body, c ∈ s.toList := by
      unfold blockParts at hparts
      split at hparts
      · obtain ⟨rfl, rfl⟩ := Prod.mk.inj hparts
        exact ⟨permitted_of_all (by decide), fun c hc => hc⟩
      · obtain ⟨rfl, rfl⟩ := Prod.mk.inj hparts
        refine ⟨?_, fun c hc => List.dropLast_subset _ hc⟩
        split <;> exact permitted_of_all (by decide)
    rw [toList_literal indent hparts]
    exact permitted_cons (by decide) (permitted_append hheader.1 (permitted_cons (by decide)
      (permitted_blockLines indent fun c hc => permitted_of_ordinary hs c (hheader.2 c hc))))
  · rw [String.toList_append, String.toList_append]
    exact permitted_append (permitted_append (permitted_of_all (by decide)) (permitted_inline hs))
      (permitted_of_all (by decide))

theorem permitted_pad (indent : Nat) : Permitted (pad indent).toList := by
  rw [toList_pad]
  exact permitted_replicate indent (by decide)

theorem permitted_printItems {indent : Nat} {items : List Outline}
    (h : ∀ item ∈ items, ∀ indent, Permitted (printItem indent item).toList) :
    Permitted (printItems indent items).toList := by
  induction items with
  | nil => exact fun c hc => absurd hc (by simp [printItems])
  | cons item items ih =>
    rw [toList_printItems_cons]
    refine permitted_append (permitted_replicate indent (by decide)) (permitted_cons (by decide) ?_)
    exact permitted_append (h item (List.mem_cons_self ..) indent)
      (ih fun other hother => h other (List.mem_cons_of_mem _ hother))

theorem permitted_printLines {indent : Nat} {lead : String} {lines : List (Line Outline)}
    (hbodies : ∀ key body, .field key body ∈ lines → ∀ indent,
      Permitted (printBody indent body).toList)
    (hkeys : ∀ key body, .field key body ∈ lines → Text.OrdinaryChars key.toList)
    (hnotes : ∀ note, .comment note ∈ lines → Text.OrdinaryChars note.toList)
    (hlead : Permitted lead.toList) : Permitted (printLines indent lead lines).toList := by
  induction lines generalizing lead with
  | nil => exact fun c hc => absurd hc (by simp [printLines])
  | cons line lines ih =>
    have ih := ih (fun key body h => hbodies key body (List.mem_cons_of_mem _ h))
      (fun key body h => hkeys key body (List.mem_cons_of_mem _ h))
      (fun note h => hnotes note (List.mem_cons_of_mem _ h)) (permitted_pad indent)
    cases line with
    | field key body =>
      rw [toList_printLines_field]
      exact permitted_append hlead (permitted_append
        (permitted_inline (hkeys key body (List.mem_cons_self ..))) (permitted_cons (by decide)
          (permitted_append (hbodies key body (List.mem_cons_self ..) indent) ih)))
    | comment note =>
      rw [toList_printLines_comment]
      have hnote := permitted_of_ordinary (hnotes note (List.mem_cons_self ..))
      exact permitted_append hlead (permitted_cons (by decide)
        (permitted_append (permitted_cons (by decide) hnote) (permitted_cons (by decide) ih)))
    | empty =>
      rw [toList_printLines_empty]
      exact permitted_cons (by decide) ih

/-- The text of a sound outline is permitted, wherever it stands. -/
theorem Sound.permitted {levels : Nat} {o : Outline} (h : Sound levels o) (indent : Nat) :
    Permitted (printBody indent o).toList ∧ Permitted (printItem indent o).toList := by
  -- Only a mapping is printed differently behind a dash.
  have hboth : ∀ {o : Outline} {indent : Nat}, printItem indent o = printBody indent o →
      Permitted (printBody indent o).toList →
        Permitted (printBody indent o).toList ∧ Permitted (printItem indent o).toList :=
    fun hprint hbody => ⟨hbody, hprint ▸ hbody⟩
  have hspace : Permitted " ".toList := permitted_of_all (by decide)
  have hbreak : Permitted "\n".toList := permitted_of_all (by decide)
  induction h generalizing indent with
  | nothing => exact hboth rfl hbreak
  | @word levels w hword =>
    refine hboth rfl ?_
    rw [printBody, String.toList_append, String.toList_append]
    exact permitted_append (permitted_append hspace (permitted_of_ordinary hword.chars)) hbreak
  | @text levels s hs =>
    refine hboth rfl ?_
    rw [printBody, String.toList_append, String.toList_append]
    exact permitted_append (permitted_append hspace (permitted_inline hs)) hbreak
  | @value levels s hs => exact hboth rfl (permitted_valueText _ hs.chars)
  | @list levels items hitems hlines ih =>
    refine hboth rfl ?_
    rw [printBody, String.toList_append]
    exact permitted_append hbreak
      (permitted_printItems fun item hitem indent => (ih item hitem indent).2)
  | @fields levels lines hbodies hkeys hnodup hnotes ih =>
    have hlines : ∀ lead : String, Permitted lead.toList →
        Permitted (printLines (indent + 2) lead lines).toList := fun lead hlead =>
      permitted_printLines (fun key body h indent => (ih key body h indent).1)
        (fun key body h => (hkeys key body h).1) (fun note h c hc => (hnotes note h c hc).1) hlead
    refine ⟨?_, ?_⟩
    · rw [printBody, String.toList_append]
      exact permitted_append hbreak (hlines _ (permitted_pad _))
    · rw [printItem, String.toList_append]
      exact permitted_append hspace (hlines _ fun c hc => absurd hc (by simp))

open Scan

/-- At the end of the text the blocks that are still open end. -/
theorem result_of_reads {s : Scan} {fits : Bool} {log : TokenLog} {margins : List Nat}
    (h : Reads s fits [] log margins) (hm : margins.headD 0 ≤ 1) :
    ∃ place : Place, result s = if fits then
      some (closeBlocks ⟨⟨[], place⟩, log, margins, true, none, []⟩ 0).log.toList else none := by
  obtain ⟨place, -, hresult⟩ := h
  exact ⟨place, by rw [hresult, result_end place hm]⟩

/-- A printed document is read as the tokens of its fields, provided all its keys are short
enough. -/
theorem tokens?_print {levels : Nat} {lines : List (Line Outline)}
    (h : Sound levels (.fields lines)) :
    Yaml.tokens? (print lines).toList =
      if linesFit lines then some (inBlock .blockMapping (lineTokens lines)) else none := by
  cases h with
  | fields hbodies hkeys hnodup hnotes =>
    have hpermitted : (print lines).toList.all isPermitted = true :=
      List.all_eq_true.2 <| permitted_printLines
        (fun key body h indent => ((hbodies key body h).permitted indent).1)
        (fun key body h => (hkeys key body h).1) (fun note h c hc => (hnotes note h c hc).1)
        (fun c hc => absurd hc (by simp))
    have hbodies' := fun key body h => (hbodies key body h).reads.1
    have hkeys' := fun key body h => (hkeys key body h).1
    have hnotes' := fun note h c hc => (hnotes note h c hc).2
    have hlead : "".toList = List.replicate 0 ' ' := rfl
    have hcolumn : Place.start.column + 0 = 0 := rfl
    have hstart : Yaml.tokens? (print lines).toList =
        result ⟨⟨(print lines).toList ++ [], .start⟩, .empty, [], true, none, []⟩ := by
      rw [Yaml.tokens?, if_pos hpermitted, List.append_nil]
      rfl
    rw [hstart]
    -- Without fields no block is opened that the end could close.
    by_cases hfield : lineTokens lines = []
    · have hread : Reads ⟨⟨(print lines).toList ++ [], .start⟩, .empty, [], true, none, []⟩
          (linesFit lines) [] .empty [] := reads_notes hnotes' hlead (fun _ => rfl) hfield
      obtain ⟨place, hresult⟩ := result_of_reads hread (Nat.zero_le _)
      rw [hresult, hfield]
      rfl
    · have hopen : result ⟨⟨(print lines).toList ++ [], .start⟩, .empty, [], true, none, []⟩ =
          result ⟨⟨(print lines).toList ++ [], .start⟩, TokenLog.empty.push .blockMapping, [1], true,
            none, []⟩ :=
        result_openLines hkeys' hnotes' hlead hcolumn hfield (Nat.zero_le _)
      have hread : Reads ⟨⟨(print lines).toList ++ [], .start⟩,
          TokenLog.empty.push .blockMapping, [1], true, none, []⟩ (linesFit lines) []
          ((TokenLog.empty.push .blockMapping).pushAll (lineTokens lines)) [1] :=
        reads_lines hbodies' hkeys' hnotes' hlead hcolumn (fun _ => rfl) .nothing
      obtain ⟨place, hresult⟩ := result_of_reads hread (Nat.le_refl _)
      obtain ⟨t, ts, hts⟩ := List.exists_cons_of_ne_nil hfield
      rw [hopen, hresult, closeBlocks_cons Nat.zero_lt_one, closeBlocks_eq_self (Nat.le_refl 0), hts]
      simp [inBlock]

end Outline
end CiPipelines
