import CiPipelines.Outline.Basic
import CiPipelines.Proofs.ScalarTokens

/-!
# Tokens of a printed outline

`Sound` says which outlines are read back: their texts are ordinary, the keys of each mapping differ
and are no merge keys, and they are nested at most as deep as a number of levels says.  The reader
turns the printed text of a sound outline into the tokens of the outline, provided all keys are
short enough to be read as keys, and refuses it otherwise.

The proof goes along the outline.  Each part is read from the place where it stands up to the next
line that lies outside of it, and leaves the blocks around it as they are.
-/

namespace CiPipelines

open Yaml

namespace Outline

/-- The tokens of a word of the format. -/
def wordTokens (w : String) : List Token :=
  match Brackets.ofWord? w with
  | some b => [b.start, b.stop]
  | none => [.scalar .plain w]

/-- The value of an empty collection. -/
def Brackets.value : Brackets → Value
  | square => .sequence []
  | curly => .mapping []

/-- The value of a word of the format. -/
def wordValue? (w : String) : Option Value :=
  match Brackets.ofWord? w with
  | some b => some b.value
  | none => Value.ofPlain? w

/-- A word of the format that is read as such. -/
structure IsWord (w : String) : Prop where
  chars : Text.OrdinaryChars w.toList
  form : (Brackets.ofWord? w).isSome ∨ isPlainText w.toList = true
  value : (wordValue? w).isSome

/-- The entries of a block between its start and its end; no block without entries. -/
def inBlock (start : Token) : List Token → List Token
  | [] => []
  | ts => start :: (ts ++ [.blockEnd])

mutual

/-- The tokens of an outline. -/
def tokens : Outline → List Token
  | .nothing => []
  | .word w => wordTokens w
  | .text s => [.scalar (inlineStyle s) s]
  | .value s => [.scalar (valueStyle s) s]
  | .list items => inBlock .blockSequence (itemTokens items)
  | .fields lines => inBlock .blockMapping (lineTokens lines)

/-- The tokens of the items of a list. -/
def itemTokens : List Outline → List Token
  | [] => []
  | item :: rest => .dash :: (item.tokens ++ itemTokens rest)

/-- The tokens of the lines of a mapping. -/
def lineTokens : List (Line Outline) → List Token
  | [] => []
  | .field key body :: rest =>
    .key :: .scalar (inlineStyle key) key :: .value :: (body.tokens ++ lineTokens rest)
  | .comment _ :: rest => lineTokens rest
  | .empty :: rest => lineTokens rest

end

mutual

/-- Whether all keys of an outline are short enough to be read as keys. -/
def keysFit : Outline → Bool
  | .nothing | .word _ | .text _ | .value _ => true
  | .list items => itemsFit items
  | .fields lines => linesFit lines

/-- Whether all keys in the items of a list are short enough. -/
def itemsFit : List Outline → Bool
  | [] => true
  | item :: rest => item.keysFit && itemsFit rest

/-- Whether all keys in the lines of a mapping are short enough. -/
def linesFit : List (Line Outline) → Bool
  | [] => true
  | .field key body :: rest => keyFits key && (body.keysFit && linesFit rest)
  | .comment _ :: rest => linesFit rest
  | .empty :: rest => linesFit rest

end

/-- The keys of a mapping, in order. -/
def lineKeys (lines : List (Line Outline)) : List String :=
  lines.filterMap fun
    | .field key _ => some key
    | _ => none

/-- An outline that is read back: the texts are ordinary, and collections are nested at most as
deep as the number says. -/
inductive Sound : Nat → Outline → Prop where
  | nothing {levels : Nat} : Sound levels .nothing
  | word {levels : Nat} {w : String} (hword : IsWord w) : Sound (levels + 1) (.word w)
  | text {levels : Nat} {s : String} (hs : Text.OrdinaryChars s.toList) : Sound levels (.text s)
  | value {levels : Nat} {s : String} (hs : Text.Ordinary s) : Sound levels (.value s)
  | list {levels : Nat} {items : List Outline} (hitems : ∀ item ∈ items, Sound levels item)
      (hlines : ∀ item ∈ items, item ≠ .fields []) : Sound (levels + 1) (.list items)
  | fields {levels : Nat} {lines : List (Line Outline)}
      (hbodies : ∀ key body, .field key body ∈ lines → Sound levels body)
      (hkeys : ∀ key body, .field key body ∈ lines → Text.OrdinaryChars key.toList ∧ key ≠ "<<")
      (hnodup : (lineKeys lines).Nodup)
      (hnotes : ∀ note, .comment note ∈ lines → ∀ c ∈ note.toList,
        Text.isOrdinary c = true ∧ isBreak c = false) : Sound (levels + 1) (.fields lines)

/-- What follows the dash of an item. -/
def printItem (indent : Nat) : Outline → String
  | .fields lines => " " ++ printLines (indent + 2) "" lines
  | o => printBody indent o

theorem toList_pad (indent : Nat) : (pad indent).toList = List.replicate indent ' ' := by
  rw [pad, String.toList_ofList]

/-- The items of a list stand behind dashes. -/
theorem toList_printItems_cons (indent : Nat) (item : Outline) (rest : List Outline) :
    (printItems indent (item :: rest)).toList =
      List.replicate indent ' ' ++ '-' :: ((printItem indent item).toList ++
        (printItems indent rest).toList) := by
  cases item <;> simp [printItems, printItem, String.toList_append, toList_pad]

theorem toList_printLines_field (indent : Nat) (lead key : String) (body : Outline)
    (rest : List (Line Outline)) :
    (printLines indent lead (.field key body :: rest)).toList =
      lead.toList ++ ((inline key).toList ++ ':' :: ((printBody indent body).toList ++
        (printLines indent (pad indent) rest).toList)) := by
  simp [printLines, String.toList_append]

theorem toList_printLines_comment (indent : Nat) (lead note : String)
    (rest : List (Line Outline)) :
    (printLines indent lead (.comment note :: rest)).toList =
      lead.toList ++ ('#' :: ((' ' :: note.toList) ++ '\n' ::
        (printLines indent (pad indent) rest).toList)) := by
  simp [printLines, String.toList_append]

theorem toList_printLines_empty (indent : Nat) (lead : String) (rest : List (Line Outline)) :
    (printLines indent lead (.empty :: rest)).toList =
      '\n' :: (printLines indent (pad indent) rest).toList := by
  simp [printLines, String.toList_append]

/-- White space stands between a colon and what follows it. -/
theorem startsBlank_printBody (indent : Nat) (o : Outline) (rest : List Char) :
    startsBlank ((printBody indent o).toList ++ rest) = true := by
  cases o with
  | value s =>
    simp only [printBody, valueText]
    split
    · obtain ⟨header, body, hparts⟩ : ∃ header body, blockParts s.toList = (header, body) :=
        ⟨_, _, rfl⟩
      rw [toList_literal _ hparts]
      rfl
    · simp [String.toList_append, startsBlank, isBlank]
  | _ => simp [printBody, String.toList_append, startsBlank, isBlank, isBreak]

theorem startsBlank_printItem (indent : Nat) (o : Outline) (rest : List Char) :
    startsBlank ((printItem indent o).toList ++ rest) = true := by
  cases o with
  | fields lines => simp [printItem, String.toList_append, startsBlank, isBlank]
  | _ => exact startsBlank_printBody indent _ rest

/-- The items of a list start at their column. -/
theorem outside_printItems {indent : Nat} {rest : List Char} (items : List Outline)
    (hrest : Outside indent rest) :
    Outside indent ((printItems indent items).toList ++ rest) := by
  cases items with
  | nil => simpa [printItems] using hrest
  | cons item items =>
    rw [toList_printItems_cons, List.append_assoc, List.cons_append]
    exact .token (Nat.le_refl _) (by decide) (by decide) (by decide) (by decide)

/-- So does a key. -/
theorem outside_key {key : String} (hkey : Text.OrdinaryChars key.toList) {column : Nat}
    (rest : List Char) :
    Outside column (List.replicate column ' ' ++ ((inline key).toList ++ rest)) := by
  obtain ⟨c, written, hwritten, hblank, hbreak, hhash, hmark⟩ :=
    (inline_of_ordinary hkey).exists_cons hkey
  rw [hwritten, List.cons_append]
  exact .token (Nat.le_refl _) hblank hbreak hhash hmark

/-- The lines of a mapping start at their column. -/
theorem outside_printLines {indent : Nat} {rest : List Char} {lines : List (Line Outline)}
    (hkeys : ∀ key body, .field key body ∈ lines → Text.OrdinaryChars key.toList)
    (hnotes : ∀ note, .comment note ∈ lines → ∀ c ∈ note.toList, isBreak c = false)
    (hrest : Outside indent rest) :
    Outside indent ((printLines indent (pad indent) lines).toList ++ rest) := by
  induction lines with
  | nil => simpa [printLines] using hrest
  | cons line lines ih =>
    have ih := ih (fun key body h => hkeys key body (List.mem_cons_of_mem _ h))
      fun note h => hnotes note (List.mem_cons_of_mem _ h)
    cases line with
    | field key body =>
      have hkey := hkeys key body (List.mem_cons_self ..)
      rw [toList_printLines_field, toList_pad]
      simp only [List.append_assoc]
      exact outside_key hkey _
    | comment note =>
      rw [toList_printLines_comment, toList_pad]
      simp only [List.append_assoc, List.cons_append]
      have hnote : ∀ c ∈ ' ' :: note.toList, isBreak c = false := by
        intro c hc
        rcases List.mem_cons.1 hc with rfl | hc
        · decide
        · exact hnotes note (List.mem_cons_self ..) c hc
      exact .comment (Nat.le_refl _) hnote ih
    | empty =>
      rw [toList_printLines_empty, List.cons_append]
      exact .emptyLine ih

/-! ## Reading the parts of an outline -/

open Scan

/-- Behind a colon, or a dash, of an entry at column `indent` the outline is read as its tokens. -/
def ReadsBehindColon (o : Outline) : Prop :=
  ∀ ⦃indent : Nat⦄ ⦃place : Place⦄ ⦃log : TokenLog⦄ ⦃margins : List Nat⦄ ⦃keyAllowed : Bool⦄
    ⦃rest : List Char⦄, indent < place.column → Outside indent rest →
      Reads ⟨⟨(printBody indent o).toList ++ rest, place⟩, log, (indent + 1) :: margins, keyAllowed,
        none, []⟩ o.keysFit rest (log.pushAll o.tokens) ((indent + 1) :: margins)

/-- As an item of a list whose dashes stand at column `indent` the outline is read as its tokens. -/
def ReadsBehindDash (o : Outline) : Prop :=
  ∀ ⦃indent : Nat⦄ ⦃place : Place⦄ ⦃log : TokenLog⦄ ⦃margins : List Nat⦄ ⦃rest : List Char⦄,
    place.column = indent + 1 → Outside indent rest →
      Reads ⟨⟨(printItem indent o).toList ++ rest, place⟩, log, (indent + 1) :: margins, true, none,
        []⟩ o.keysFit rest (log.pushAll o.tokens) ((indent + 1) :: margins)

section

variable {log : TokenLog} {margins : List Nat} {place : Place} {rest : List Char} {indent : Nat}

variable (log margins) in
/-- The items of a list are read one after the other. -/
theorem reads_items {items : List Outline}
    (hitems : ∀ item ∈ items, ReadsBehindDash item)
    (hrest : Outside indent rest) (hplace : place.column = 0) :
    Reads ⟨⟨(printItems indent items).toList ++ rest, place⟩, log, (indent + 1) :: margins,
      true, none, []⟩ (itemsFit items) rest (log.pushAll (itemTokens items))
      ((indent + 1) :: margins) := by
  induction items generalizing place log with
  | nil =>
    have hlog : log.pushAll [] = log := TokenLog.ext_toList (by simp)
    rw [itemTokens, hlog, itemsFit, printItems]
    exact .refl hplace
  | cons item items ih =>
    have hnext := outside_printItems items hrest
    have hdash := result_dash log margins (place.forward indent)
      (startsBlank_printItem indent item ((printItems indent items).toList ++ rest))
    have hcolumn : (place.forward indent).column = indent := by simp [Place.forward, hplace]
    rw [hcolumn] at hdash
    have hbehind : ((place.forward indent).forward 1).column = indent + 1 := by
      simp [Place.forward, hplace]
    have hitem : Reads ⟨⟨(printItem indent item).toList ++ ((printItems indent items).toList ++ rest),
        (place.forward indent).forward 1⟩, log.push .dash, (indent + 1) :: margins, true, none, []⟩
        item.keysFit _ _ _ := hitems item (List.mem_cons_self ..) hbehind hnext
    have hlog : log.pushAll (itemTokens (item :: items)) =
        ((log.push .dash).pushAll item.tokens).pushAll (itemTokens items) :=
      TokenLog.ext_toList (by simp [itemTokens])
    rw [toList_printItems_cons, hlog, itemsFit]
    simp only [List.append_assoc, List.cons_append]
    refine .of_result_eq ((result_congr_toToken (toToken_spaces _ _ _)).trans hdash) ?_
    exact hitem.trans fun next hnext =>
      ih _ (fun other hother => hitems other (List.mem_cons_of_mem _ hother)) hnext

/-- A list that is not empty opens a sequence. -/
theorem result_openItems {item : Outline} {items : List Outline} (hm : margins.headD 0 ≤ indent)
    (hplace : place.column = 0) :
    result ⟨⟨(printItems indent (item :: items)).toList ++ rest, place⟩, log, margins, true, none,
        []⟩ =
      result ⟨⟨(printItems indent (item :: items)).toList ++ rest, place⟩,
        log.push .blockSequence, (indent + 1) :: margins, true, none, []⟩ := by
  have hcolumn : (place.forward indent).column = indent := by simp [Place.forward, hplace]
  have hinside : margins.headD 0 ≤ (place.forward indent).column := by
    rw [hcolumn]
    exact hm
  have hopen := result_openSequence log
    (startsBlank_printItem indent item ((printItems indent items).toList ++ rest)) hinside
  rw [hcolumn] at hopen
  rw [toList_printItems_cons]
  simp only [List.append_assoc, List.cons_append]
  rw [result_congr_toToken (toToken_spaces _ _ _), hopen,
    ← result_congr_toToken (toToken_spaces _ _ _)]

/-- A list at column `indent` is read as a block of its own. -/
theorem reads_list {items : List Outline} {outer : Nat}
    (hitems : ∀ item ∈ items, ReadsBehindDash item) (houter : outer < indent)
    (hrest : Outside outer rest) (hplace : place.column = 0) :
    Reads ⟨⟨(printItems indent items).toList ++ rest, place⟩, log, (outer + 1) :: margins, true,
      none, []⟩ (itemsFit items) rest (log.pushAll (inBlock .blockSequence (itemTokens items)))
      ((outer + 1) :: margins) := by
  cases items with
  | nil =>
    have hlog : log.pushAll [] = log := TokenLog.ext_toList (by simp)
    rw [itemTokens, inBlock, hlog, itemsFit, printItems]
    exact .refl hplace
  | cons item items =>
    have hread := reads_items (log.push .blockSequence) ((outer + 1) :: margins) hitems
      (hrest.mono (Nat.le_of_lt houter)) hplace
    have hclose := hread.close hrest (Nat.succ_lt_succ houter)
    have hlog : log.pushAll (inBlock .blockSequence (itemTokens (item :: items))) =
        ((log.push .blockSequence).pushAll (itemTokens (item :: items))).push .blockEnd :=
      TokenLog.ext_toList (by simp [itemTokens, inBlock])
    rw [hlog]
    exact .of_result_eq (result_openItems houter hplace) hclose

/-- A line that is no field is skipped. -/
theorem exists_toToken_note (line : Line Outline) {lead : String} {n : Nat}
    (lines : List (Line Outline)) (hline : ∀ key body, line ≠ .field key body)
    (hnote : ∀ note, line = .comment note → ∀ c ∈ note.toList, isBreak c = false)
    (hlead : lead.toList = List.replicate n ' ') (indent : Nat) (place : Place)
    (rest : List Char) :
    ∃ next : Place, next.column = 0 ∧ ∀ log margins pending,
      toToken ⟨⟨(printLines indent lead (line :: lines)).toList ++ rest, place⟩, log, margins, true,
          pending, []⟩ =
        toToken ⟨⟨(printLines indent (pad indent) lines).toList ++ rest, next⟩, log, margins, true,
          pending, []⟩ := by
  cases line with
  | field key body => exact absurd rfl (hline key body)
  | comment note =>
    have hbreaks : ∀ c ∈ ' ' :: note.toList, isBreak c = false := by
      intro c hc
      rcases List.mem_cons.1 hc with rfl | hc
      · decide
      · exact hnote note rfl c hc
    have htext : (printLines indent lead (.comment note :: lines)).toList ++ rest =
        List.replicate n ' ' ++ ('#' :: ((' ' :: note.toList) ++ '\n' ::
          ((printLines indent (pad indent) lines).toList ++ rest))) := by
      rw [toList_printLines_comment, hlead]
      simp only [List.append_assoc, List.cons_append]
    refine ⟨((place.forward n).forward ((' ' :: note.toList).length + 1)).newLine 1, rfl, ?_⟩
    intro log margins pending
    rw [htext, toToken_spaces, toToken_comment _ _ hbreaks]
  | empty =>
    refine ⟨place.newLine 1, rfl, fun log margins pending => ?_⟩
    rw [toList_printLines_empty, List.cons_append, toToken_lineFeed]

/-- The lines of a mapping are read one after the other, the first one from behind `lead`. -/
theorem reads_lines {lines : List (Line Outline)} {lead : String} {n : Nat}
    (hbodies : ∀ key body, .field key body ∈ lines → ReadsBehindColon body)
    (hkeys : ∀ key body, .field key body ∈ lines → Text.OrdinaryChars key.toList)
    (hnotes : ∀ note, .comment note ∈ lines → ∀ c ∈ note.toList, isBreak c = false)
    (hlead : lead.toList = List.replicate n ' ') (hcolumn : place.column + n = indent)
    (hplace : lines = [] → place.column = 0) (hrest : Outside indent rest) :
    Reads ⟨⟨(printLines indent lead lines).toList ++ rest, place⟩, log, (indent + 1) :: margins,
      true, none, []⟩ (linesFit lines) rest (log.pushAll (lineTokens lines))
      ((indent + 1) :: margins) := by
  -- The first line may stand behind a dash; the lines below it start in the column zero.
  induction lines generalizing place log lead n with
  | nil =>
    have hlog : log.pushAll [] = log := TokenLog.ext_toList (by simp)
    rw [lineTokens, hlog, linesFit, printLines]
    exact .refl (hplace rfl)
  | cons line lines ih =>
    have hbodies' := fun key body h => hbodies key body (List.mem_cons_of_mem _ h)
    have hkeys' := fun key body h => hkeys key body (List.mem_cons_of_mem _ h)
    have hnotes' := fun note h => hnotes note (List.mem_cons_of_mem _ h)
    have ih : ∀ {place : Place} {log : TokenLog}, place.column = 0 →
        Reads ⟨⟨(printLines indent (pad indent) lines).toList ++ rest, place⟩, log,
          (indent + 1) :: margins, true, none, []⟩ (linesFit lines) rest
          (log.pushAll (lineTokens lines)) ((indent + 1) :: margins) :=
      fun hzero => ih hbodies' hkeys' hnotes' (toList_pad indent) (by omega) fun _ => hzero
    cases line with
    | field key body =>
      have hbody := hbodies key body (List.mem_cons_self ..)
      have hkey := hkeys key body (List.mem_cons_self ..)
      have hnext := outside_printLines hkeys' hnotes' hrest
      have hstart : (place.forward n).column = indent := hcolumn
      have hlog : log.pushAll (lineTokens (.field key body :: lines)) =
          ((log.pushAll [.key, .scalar (inlineStyle key) key, .value]).pushAll
            body.tokens).pushAll (lineTokens lines) :=
        TokenLog.ext_toList (by simp [lineTokens])
      have hbehind : ∀ next : Place, indent < next.column →
          Reads ⟨⟨(printBody indent body).toList ++
              ((printLines indent (pad indent) lines).toList ++ rest), next⟩,
            log.pushAll [.key, .scalar (inlineStyle key) key, .value], (indent + 1) :: margins,
            false, none, []⟩ (body.keysFit && linesFit lines) rest
            (log.pushAll (lineTokens (.field key body :: lines))) ((indent + 1) :: margins) := by
        intro next hcolumn
        rw [hlog]
        exact (hbody hcolumn hnext).trans fun next hzero => ih hzero
      have hread := reads_key hkey (startsBlank_printBody indent body
        ((printLines indent (pad indent) lines).toList ++ rest)) hstart hbehind
      rw [toList_printLines_field, hlead, linesFit]
      simp only [List.append_assoc, List.cons_append]
      exact .of_result_eq (result_congr_toToken (toToken_spaces _ _ _)) hread
    | comment note =>
      obtain ⟨next, hzero, hto⟩ := exists_toToken_note (.comment note) lines (by simp)
        (fun note' h => hnotes note' (h ▸ List.mem_cons_self ..)) hlead indent place rest
      rw [lineTokens, linesFit]
      exact .of_result_eq (result_congr_toToken (hto _ _ _)) (ih hzero)
    | empty =>
      obtain ⟨next, hzero, hto⟩ :=
        exists_toToken_note .empty lines (by simp) (by simp) hlead indent place rest
      rw [lineTokens, linesFit]
      exact .of_result_eq (result_congr_toToken (hto _ _ _)) (ih hzero)

/-- Up to its first field a mapping may as well be open already. -/
theorem result_openLines {lines : List (Line Outline)} {lead : String} {n : Nat}
    (hkeys : ∀ key body, .field key body ∈ lines → Text.OrdinaryChars key.toList)
    (hnotes : ∀ note, .comment note ∈ lines → ∀ c ∈ note.toList, isBreak c = false)
    (hlead : lead.toList = List.replicate n ' ') (hcolumn : place.column + n = indent)
    (hfield : lineTokens lines ≠ []) (hm : margins.headD 0 ≤ indent) :
    result ⟨⟨(printLines indent lead lines).toList ++ rest, place⟩, log, margins, true, none, []⟩ =
      result ⟨⟨(printLines indent lead lines).toList ++ rest, place⟩, log.push .blockMapping,
        (indent + 1) :: margins, true, none, []⟩ := by
  induction lines generalizing place lead n with
  | nil => exact absurd rfl hfield
  | cons line lines ih =>
    have hkeys' := fun key body h => hkeys key body (List.mem_cons_of_mem _ h)
    have hnotes' := fun note h => hnotes note (List.mem_cons_of_mem _ h)
    -- The first field decides; comments and empty lines are skipped on both sides.
    cases line with
    | field key body =>
      have hkey := hkeys key body (List.mem_cons_self ..)
      have hstart : (place.forward n).column = indent := hcolumn
      have hinside : margins.headD 0 ≤ (place.forward n).column := hstart ▸ hm
      have hopen := result_openMapping log hkey (startsBlank_printBody indent body
        ((printLines indent (pad indent) lines).toList ++ rest)) hinside
      rw [hstart] at hopen
      rw [toList_printLines_field, hlead]
      simp only [List.append_assoc, List.cons_append]
      rw [result_congr_toToken (toToken_spaces _ _ _), hopen,
        ← result_congr_toToken (toToken_spaces _ _ _)]
    | comment note =>
      obtain ⟨next, hzero, hto⟩ := exists_toToken_note (.comment note) lines (by simp)
        (fun note' h => hnotes note' (h ▸ List.mem_cons_self ..)) hlead indent place rest
      rw [result_congr_toToken (hto _ _ _), result_congr_toToken (hto _ _ _)]
      exact ih hkeys' hnotes' (toList_pad indent) (by omega) hfield
    | empty =>
      obtain ⟨next, hzero, hto⟩ :=
        exists_toToken_note .empty lines (by simp) (by simp) hlead indent place rest
      rw [result_congr_toToken (hto _ _ _), result_congr_toToken (hto _ _ _)]
      exact ih hkeys' hnotes' (toList_pad indent) (by omega) hfield

/-- Lines without a field leave nothing. -/
theorem reads_notes {lines : List (Line Outline)} {lead : String} {n : Nat}
    (hnotes : ∀ note, .comment note ∈ lines → ∀ c ∈ note.toList, isBreak c = false)
    (hlead : lead.toList = List.replicate n ' ') (hplace : lines = [] → place.column = 0)
    (hfield : lineTokens lines = []) :
    Reads ⟨⟨(printLines indent lead lines).toList ++ rest, place⟩, log, margins, true, none, []⟩
      (linesFit lines) rest log margins := by
  induction lines generalizing place lead n with
  | nil => exact .refl (hplace rfl)
  | cons line lines ih =>
    have hnotes' := fun note h => hnotes note (List.mem_cons_of_mem _ h)
    cases line with
    | field key body => simp [lineTokens] at hfield
    | comment note =>
      obtain ⟨next, hzero, hto⟩ := exists_toToken_note (.comment note) lines (by simp)
        (fun note' h => hnotes note' (h ▸ List.mem_cons_self ..)) hlead indent place rest
      exact .of_result_eq (result_congr_toToken (hto _ _ _))
        (ih hnotes' (toList_pad indent) (fun _ => hzero) hfield)
    | empty =>
      obtain ⟨next, hzero, hto⟩ :=
        exists_toToken_note .empty lines (by simp) (by simp) hlead indent place rest
      exact .of_result_eq (result_congr_toToken (hto _ _ _))
        (ih hnotes' (toList_pad indent) (fun _ => hzero) hfield)

/-- The lines of a mapping at column `indent` are read as a block of their own. -/
theorem reads_fields {lines : List (Line Outline)} {lead : String} {n outer : Nat}
    (hbodies : ∀ key body, .field key body ∈ lines → ReadsBehindColon body)
    (hkeys : ∀ key body, .field key body ∈ lines → Text.OrdinaryChars key.toList)
    (hnotes : ∀ note, .comment note ∈ lines → ∀ c ∈ note.toList, isBreak c = false)
    (hlead : lead.toList = List.replicate n ' ') (hcolumn : place.column + n = indent)
    (hplace : lines = [] → place.column = 0) (houter : outer < indent)
    (hrest : Outside outer rest) :
    Reads ⟨⟨(printLines indent lead lines).toList ++ rest, place⟩, log, (outer + 1) :: margins,
      true, none, []⟩ (linesFit lines) rest (log.pushAll (inBlock .blockMapping (lineTokens lines)))
      ((outer + 1) :: margins) := by
  -- Without a field there is no block, and the comments are skipped in the block outside.
  by_cases hfield : lineTokens lines = []
  · have hlog : log.pushAll (inBlock .blockMapping (lineTokens lines)) = log :=
      TokenLog.ext_toList (by simp [hfield, inBlock])
    rw [hlog]
    exact reads_notes hnotes hlead hplace hfield
  · have hopen : result ⟨⟨(printLines indent lead lines).toList ++ rest, place⟩, log,
        (outer + 1) :: margins, true, none, []⟩ =
        result ⟨⟨(printLines indent lead lines).toList ++ rest, place⟩, log.push .blockMapping,
          (indent + 1) :: (outer + 1) :: margins, true, none, []⟩ :=
      result_openLines hkeys hnotes hlead hcolumn hfield houter
    have hread : Reads ⟨⟨(printLines indent lead lines).toList ++ rest, place⟩,
        log.push .blockMapping, (indent + 1) :: (outer + 1) :: margins, true, none, []⟩
        (linesFit lines) rest ((log.push .blockMapping).pushAll (lineTokens lines))
        ((indent + 1) :: (outer + 1) :: margins) :=
      reads_lines hbodies hkeys hnotes hlead hcolumn hplace (hrest.mono (Nat.le_of_lt houter))
    have hlog : log.pushAll (inBlock .blockMapping (lineTokens lines)) =
        ((log.push .blockMapping).pushAll (lineTokens lines)).push .blockEnd := by
      obtain ⟨t, ts, hts⟩ := List.exists_cons_of_ne_nil hfield
      exact TokenLog.ext_toList (by simp [hts, inBlock])
    rw [hlog]
    exact .of_result_eq hopen (hread.close hrest (Nat.succ_lt_succ houter))

end

/-- A word of the format is read as it is. -/
theorem readsBehindColon_word {w : String} (h : IsWord w) : ReadsBehindColon (.word w) := by
  intro indent place log margins keyAllowed rest hplace hrest
  have htext : (printBody indent (.word w)).toList ++ rest =
      ' ' :: (w.toList ++ '\n' :: rest) := by
    simp [printBody, String.toList_append]
  rw [htext, keysFit, tokens, wordTokens]
  refine .of_result_eq (result_congr_toToken (toToken_space _ _)) ?_
  have hinside : indent + 1 ≤ (place.forward 1).column := Nat.le_succ_of_le hplace
  cases hbrackets : Brackets.ofWord? w with
  | some b =>
    rw [Brackets.toList_of_ofWord? hbrackets]
    exact reads_brackets b hinside
  | none =>
    have hlog : log.pushAll [.scalar .plain w] = log.push (.scalar .plain w) :=
      TokenLog.ext_toList (by simp)
    have hplain : isPlainText w.toList = true := h.form.resolve_left (by simp [hbrackets])
    dsimp only
    rw [hlog]
    exact reads_written (.plain hplain) h.chars hrest (Nat.lt_succ_self _) hinside

/-- A sound outline is read as its tokens. -/
theorem Sound.reads {levels : Nat} {o : Outline} (h : Sound levels o) :
    ReadsBehindColon o ∧ (o ≠ .fields [] → ReadsBehindDash o) := by
  -- Only a mapping is printed differently behind a dash.
  have hboth : ∀ {o : Outline}, (∀ indent, printItem indent o = printBody indent o) →
      ReadsBehindColon o → ReadsBehindColon o ∧ (o ≠ .fields [] → ReadsBehindDash o) := by
    intro o hprint hcolon
    refine ⟨hcolon, fun _ indent place log margins rest hplace hrest => ?_⟩
    rw [hprint]
    exact hcolon (Nat.lt_of_succ_le (Nat.le_of_eq hplace.symm)) hrest
  induction h with
  | nothing =>
    refine hboth (fun _ => rfl) fun indent place log margins keyAllowed rest hplace hrest => ?_
    have htext : (printBody indent .nothing).toList ++ rest = '\n' :: rest := by
      simp [printBody]
    have hlog : log.pushAll Outline.nothing.tokens = log :=
      TokenLog.ext_toList (by simp [tokens])
    rw [htext, hlog]
    exact .of_result_eq (result_congr_toToken (toToken_lineFeed _ _)) (.refl rfl)
  | word hword => exact hboth (fun _ => rfl) (readsBehindColon_word hword)
  | @text levels s hs =>
    refine hboth (fun _ => rfl) fun indent place log margins keyAllowed rest hplace hrest => ?_
    have htext : (printBody indent (.text s)).toList ++ rest =
        ' ' :: ((inline s).toList ++ '\n' :: rest) := by
      simp [printBody, String.toList_append]
    have hlog : log.pushAll (Outline.text s).tokens = log.push (.scalar (inlineStyle s) s) :=
      TokenLog.ext_toList (by simp [tokens])
    rw [htext, hlog]
    exact .of_result_eq (result_congr_toToken (toToken_space _ _))
      (reads_inline hs hrest (Nat.lt_succ_self _) (Nat.le_succ_of_le hplace))
  | @value levels s hs =>
    refine hboth (fun _ => rfl) fun indent place log margins keyAllowed rest hplace hrest => ?_
    have hlog : log.pushAll (Outline.value s).tokens = log.push (.scalar (valueStyle s) s) :=
      TokenLog.ext_toList (by simp [tokens])
    rw [hlog]
    exact reads_value hs hrest (Nat.lt_succ_self _) (Nat.le_succ _) hplace
  | @list levels items hitems hlines ih =>
    refine hboth (fun _ => rfl) fun indent place log margins keyAllowed rest hplace hrest => ?_
    have htext : (printBody indent (.list items)).toList ++ rest =
        '\n' :: ((printItems (indent + 2) items).toList ++ rest) := by
      simp [printBody, String.toList_append]
    rw [htext, keysFit, tokens]
    exact .of_result_eq (result_congr_toToken (toToken_lineFeed _ _))
      (reads_list (fun item hitem => (ih item hitem).2 (hlines item hitem))
        (by omega) hrest rfl)
  | @fields levels lines hbodies hkeys hnodup hnotes ih =>
    have hbodies' := fun key body h => (ih key body h).1
    have hkeys' := fun key body h => (hkeys key body h).1
    have hnotes' := fun note h c hc => (hnotes note h c hc).2
    refine ⟨fun indent place log margins keyAllowed rest hplace hrest => ?_,
      fun hne indent place log margins rest hplace hrest => ?_⟩
    · have htext : (printBody indent (.fields lines)).toList ++ rest =
          '\n' :: ((printLines (indent + 2) (pad (indent + 2)) lines).toList ++ rest) := by
        simp [printBody, String.toList_append]
      rw [htext, keysFit, tokens]
      exact .of_result_eq (result_congr_toToken (toToken_lineFeed _ _))
        (reads_fields hbodies' hkeys' hnotes' (toList_pad _) (Nat.zero_add _) (fun _ => rfl)
          (by omega) hrest)
    · have htext : (printItem indent (.fields lines)).toList ++ rest =
          ' ' :: ((printLines (indent + 2) "" lines).toList ++ rest) := by
        simp [printItem, String.toList_append]
      have hcolumn : (place.forward 1).column + 0 = indent + 2 := by
        simp [Place.forward, hplace]
      have hnonempty : lines = [] → (place.forward 1).column = 0 :=
        fun hnil => absurd (by rw [hnil]) hne
      rw [htext, keysFit, tokens]
      exact .of_result_eq (result_congr_toToken (toToken_space _ _))
        (reads_fields hbodies' hkeys' hnotes' rfl hcolumn hnonempty (by omega) hrest)

end Outline
end CiPipelines
