import CiPipelines.Proofs.ParallelRuns
import CiPipelines.Proofs.PrintedOutlines

/-!
# A text at a spot

A spot is a place for a text on one line in a nest of block collections: behind the colon of a key,
behind the dash of an item, or as a key itself.  The blocks are indented as one likes and may have
printed entries above the one that leads to the spot; what follows the spot is left open.

Whichever text stands at a spot, the reader gives the tokens of the blocks around it, with one scalar
for the text, and what it gives behind them is the same for all texts.
-/

namespace CiPipelines

open Yaml

namespace Outline

/-- The start of an entry of a block, behind the entries above it: a key, a dash, or a key with a list
below it at the same column.  The block is indented by `gap` spaces more than needed. -/
inductive Opening where
  | colon (gap : Nat) (above : List (Line Outline)) (key : String)
  | dash (gap : Nat) (above : List Outline)
  | dashBelow (gap : Nat) (above : List (Line Outline)) (key : String) (items : List Outline)

/-- A place for a text: as a key, behind an opening on the same line, or in a block inside. -/
inductive Spot where
  | key (gap : Nat) (above : List (Line Outline))
  | behind (opening : Opening)
  | inside (opening : Opening) (inner : Spot)

/-- The lines of a block up to the colon of a key.  The first line is indented by `lead` spaces, as
it may start behind other text, and the other ones up to the column of the block. -/
def keyText (lead column : Nat) (above : List (Line Outline)) (key : String) : List Char :=
  (printLines column (pad lead) above).toList ++
    (List.replicate (if above.isEmpty then lead else column) ' ' ++ ((inline key).toList ++ [':']))

/-- The items of a list up to the dash of one more. -/
def itemsText (column : Nat) (items : List Outline) : List Char :=
  (printItems column items).toList ++ (List.replicate column ' ' ++ ['-'])

/-- The same, if the first line may start behind other text. -/
def dashText (lead column : Nat) : List Outline → List Char
  | [] => List.replicate lead ' ' ++ ['-']
  | item :: items =>
    List.replicate lead ' ' ++ '-' :: ((printItem column item).toList ++ itemsText column items)

/-- The tokens of fields up to the colon of a key. -/
def keyTokens (above : List (Line Outline)) (key : String) : List Token :=
  lineTokens above ++ [.key, .scalar (inlineStyle key) key, .value]

namespace Opening

/-- Whether the entries above are read back. -/
def WellFormed : Opening → Prop
  | colon _ above key => (∃ levels, Sound levels (.fields above)) ∧ Text.OrdinaryChars key.toList
  | dash _ above => ∃ levels, Sound levels (.list above)
  | dashBelow _ above key items =>
    ((∃ levels, Sound levels (.fields above)) ∧ Text.OrdinaryChars key.toList) ∧
      ∃ levels, Sound levels (.list items)

/-- The column of an entry for which `least` is the first one that will do. -/
def column (least : Nat) : Opening → Nat
  | colon gap _ _ | dash gap _ | dashBelow gap _ _ _ => least + gap

/-- The text of an opening, if `pad` spaces lead to the first column that will do. -/
def text (least pad : Nat) : Opening → List Char
  | colon gap above key => keyText (pad + gap) (least + gap) above key
  | dash gap above => dashText (pad + gap) (least + gap) above
  | dashBelow gap above key items =>
    keyText (pad + gap) (least + gap) above key ++ '\n' :: itemsText (least + gap) items

/-- The column behind an opening. -/
def endColumn (least : Nat) : Opening → Nat
  | colon gap _ key => least + gap + (inline key).toList.length + 1
  | dash gap _ | dashBelow gap _ _ _ => least + gap + 1

def tokens : Opening → List Token
  | colon _ above key => .blockMapping :: keyTokens above key
  | dash _ above => .blockSequence :: (itemTokens above ++ [.dash])
  | dashBelow _ above key items =>
    .blockMapping :: (keyTokens above key ++ (itemTokens items ++ [.dash]))

/-- Whether all keys up to an opening are short enough to be read as keys. -/
def keysFit : Opening → Bool
  | colon _ above key => linesFit above && keyFits key
  | dash _ above => itemsFit above
  | dashBelow _ above key items => (linesFit above && keyFits key) && itemsFit items

/-- Whether a key may start behind it on the same line. -/
def keyAllowed : Opening → Bool
  | colon _ _ _ => false
  | dash _ _ | dashBelow _ _ _ _ => true

/-- What stands between an opening and a block inside: a block behind a colon starts on the next
line. -/
def lead : Opening → List Char
  | colon _ _ _ => ['\n']
  | dash _ _ | dashBelow _ _ _ _ => []

/-- The first column that will do for a block inside. -/
def least (column : Nat) : Opening → Nat
  | colon _ _ _ => column + 1
  | dash _ _ | dashBelow _ _ _ _ => column + 2

/-- How many spaces lead to that column. -/
def pad (column : Nat) : Opening → Nat
  | colon _ _ _ => column + 1
  | dash _ _ | dashBelow _ _ _ _ => 1

end Opening

namespace Spot

/-- Whether the entries above a spot are read back. -/
def WellFormed : Spot → Prop
  | key _ above => ∃ levels, Sound levels (.fields above)
  | behind opening => opening.WellFormed
  | inside opening inner => opening.WellFormed ∧ inner.WellFormed

/-- The column of the entry that a spot belongs to. -/
def column (least : Nat) : Spot → Nat
  | key gap _ => least + gap
  | behind opening => opening.column least
  | inside opening inner => inner.column (opening.least (opening.column least))

/-- Whether a spot is one for a key. -/
def isKey : Spot → Bool
  | key _ _ => true
  | behind _ => false
  | inside _ inner => inner.isKey

/-- The text up to a spot and of a text there, with the colon behind a key or the end of the line
behind another text. -/
def text (s : String) (least pad : Nat) : Spot → List Char
  | key gap above => keyText (pad + gap) (least + gap) above s
  | behind opening => opening.text least pad ++ ' ' :: ((inline s).toList ++ ['\n'])
  | inside opening inner =>
    opening.text least pad ++ (opening.lead ++
      inner.text s (opening.least (opening.column least)) (opening.pad (opening.column least)))

/-- The column behind that. -/
def endColumn (s : String) (least : Nat) : Spot → Nat
  | key gap _ => least + gap + (inline s).toList.length + 1
  | behind _ => 0
  | inside opening inner => inner.endColumn s (opening.least (opening.column least))

def tokens (s : String) : Spot → List Token
  | key _ above => .blockMapping :: keyTokens above s
  | behind opening => opening.tokens ++ [.scalar (inlineStyle s) s]
  | inside opening inner => opening.tokens ++ inner.tokens s

/-- The margins of the blocks around a spot, innermost first. -/
def margins (least : Nat) : Spot → List Nat
  | key gap _ => [least + gap + 1]
  | behind opening => [opening.column least + 1]
  | inside opening inner =>
    inner.margins (opening.least (opening.column least)) ++ [opening.column least + 1]

/-- Whether all keys up to a spot are short enough to be read as keys, also a text that is one. -/
def keysFit (s : String) : Spot → Bool
  | key _ above => linesFit above && keyFits s
  | behind opening => opening.keysFit
  | inside opening inner => opening.keysFit && inner.keysFit s

/-- Whether a text does not go on the entry of a spot: the next line is indented no more than the
entry, or white space separates it from the colon of a key. -/
def endsBefore (least : Nat) (spot : Spot) (rest : List Char) : Bool :=
  if spot.isKey then startsBlank rest else indentedAtMost (spot.column least) 0 rest

end Spot

/-! ## Reading up to a spot -/

section

open Scan

/-- A run goes on behind a part, at some column, if all keys in the part are short enough. -/
def ReadsTo (s : Scan) (fits : Bool) (column : Nat) (rest : List Char) (log : TokenLog)
    (margins : List Nat) (keyAllowed : Bool) : Prop :=
  ∃ place : Place, (0 < place.index ∧ place.column = column) ∧ result s =
    if fits then result ⟨⟨rest, place⟩, log, margins, keyAllowed, none, []⟩ else none

section

variable {s s' : Scan} {first second keyAllowed keyAllowed' : Bool} {column column' : Nat}
  {rest rest' : List Char} {log log' : TokenLog} {margins margins' : List Nat}

theorem ReadsTo.of_result_eq (h : result s = result s')
    (hreads : ReadsTo s' first column rest log margins keyAllowed) :
    ReadsTo s first column rest log margins keyAllowed := by
  obtain ⟨place, hplace, hresult⟩ := hreads
  exact ⟨place, hplace, h.trans hresult⟩

theorem ReadsTo.trans (h : ReadsTo s first column rest log margins keyAllowed)
    (hnext : ∀ place : Place, place.column = column →
      ReadsTo ⟨⟨rest, place⟩, log, margins, keyAllowed, none, []⟩ second column' rest' log' margins'
        keyAllowed') :
    ReadsTo s (first && second) column' rest' log' margins' keyAllowed' := by
  obtain ⟨place, ⟨-, hplace⟩, hresult⟩ := h
  obtain ⟨place', hplace', hresult'⟩ := hnext place hplace
  refine ⟨place', hplace', ?_⟩
  rw [hresult, hresult']
  cases first <;> simp

/-- Reading goes on behind lines that have been read. -/
theorem readsTo_of_reads (h : Reads s first rest log margins)
    (hnext : ∀ place : Place, place.column = 0 →
      ReadsTo ⟨⟨rest, place⟩, log, margins, true, none, []⟩ second column' rest' log' margins'
        keyAllowed') :
    ReadsTo s (first && second) column' rest' log' margins' keyAllowed' := by
  obtain ⟨place, hplace, hresult⟩ := h
  obtain ⟨place', hplace', hresult'⟩ := hnext place hplace
  refine ⟨place', hplace', ?_⟩
  rw [hresult, hresult']
  cases first <;> simp

end

section

variable {log : TokenLog} {margins : List Nat} {place : Place} {rest : List Char}
  {least pad lead column : Nat}

/-- A key right of the innermost entries opens a mapping. -/
theorem readsTo_firstKey {key : String} (hkey : Text.OrdinaryChars key.toList)
    (hrest : startsBlank rest = true) (hm : margins.headD 0 ≤ column)
    (hplace : place.column + lead = column) :
    ReadsTo ⟨⟨List.replicate lead ' ' ++ ((inline key).toList ++ ':' :: rest), place⟩, log, margins,
        true, none, []⟩ (keyFits key) (column + (inline key).toList.length + 1) rest
      (log.pushAll [.blockMapping, .key, .scalar (inlineStyle key) key, .value])
      ((column + 1) :: margins) false := by
  subst hplace
  have hcolumn : margins.headD 0 ≤ (place.forward lead).column := hm
  refine .of_result_eq (result_congr_toToken (toToken_spaces _ _ _))
    ⟨(place.forward lead).forward ((inline key).toList.length + 1), ⟨Nat.succ_pos _, rfl⟩, ?_⟩
  rw [result_key log margins (place.forward lead) hkey hrest (Nat.le_succ_of_le hm), if_pos hcolumn]
  rfl

/-- A key at the column of an open mapping starts its next entry. -/
theorem readsTo_nextKey {key : String} (hkey : Text.OrdinaryChars key.toList)
    (hrest : startsBlank rest = true) (hplace : place.column = 0) :
    ReadsTo ⟨⟨List.replicate column ' ' ++ ((inline key).toList ++ ':' :: rest), place⟩, log,
        (column + 1) :: margins, true, none, []⟩ (keyFits key)
      (column + (inline key).toList.length + 1) rest
      (log.pushAll [.key, .scalar (inlineStyle key) key, .value]) ((column + 1) :: margins) false := by
  have hcolumn : (place.forward column).column = column :=
    (congrArg (· + column) hplace).trans (Nat.zero_add column)
  have hkey := result_key log ((column + 1) :: margins) (place.forward column) hkey hrest
    (Nat.succ_le_succ (Nat.le_of_eq hcolumn.symm))
  have hinside : ¬ ((column + 1) :: margins).headD 0 ≤ (place.forward column).column := by
    rw [hcolumn]
    exact Nat.not_le.2 (Nat.lt_succ_self _)
  rw [if_neg hinside] at hkey
  exact ⟨_, ⟨Nat.succ_pos _, congrArg (· + ((inline key).toList.length + 1)) hcolumn⟩,
    (result_congr_toToken (toToken_spaces _ _ _)).trans hkey⟩

/-- The lines of a block are read up to the colon of a key. -/
theorem readsTo_keyText {levels : Nat} {above : List (Line Outline)} {key : String}
    (habove : Sound levels (.fields above)) (hkey : Text.OrdinaryChars key.toList)
    (hrest : startsBlank rest = true) (hm : margins.headD 0 ≤ column)
    (hplace : place.column + lead = column) :
    ReadsTo ⟨⟨keyText lead column above key ++ rest, place⟩, log, margins, true, none, []⟩
      (linesFit above && keyFits key) (column + (inline key).toList.length + 1) rest
      (log.pushAll (.blockMapping :: keyTokens above key)) ((column + 1) :: margins) false := by
  cases habove with
  | fields hbodies hkeys hnodup hnotes =>
    have hbodies' := fun key body h => (hbodies key body h).reads.1
    have hkeys' := fun key body h => (hkeys key body h).1
    have hnotes' := fun note h c hc => (hnotes note h c hc).2
    cases above with
    | nil =>
      have htext : keyText lead column [] key ++ rest =
          List.replicate lead ' ' ++ ((inline key).toList ++ ':' :: rest) := by
        simp [keyText, printLines]
      rw [htext]
      exact readsTo_firstKey hkey hrest hm hplace
    | cons line above =>
      have hlead := toList_pad lead
      have hne : line :: above = [] → place.column = 0 := fun h => absurd h (List.cons_ne_nil _ _)
      have htext : keyText lead column (line :: above) key ++ rest =
          (printLines column (Outline.pad lead) (line :: above)).toList ++
            (List.replicate column ' ' ++ ((inline key).toList ++ ':' :: rest)) := by
        simp [keyText]
      rw [htext]
      -- Comments and empty lines open no mapping; the key does then.
      by_cases hfield : lineTokens (line :: above) = []
      · rw [keyTokens, hfield]
        exact readsTo_of_reads (reads_notes hnotes' hlead hne hfield) fun next hnext =>
          readsTo_firstKey hkey hrest hm (by omega)
      · have hlog : log.pushAll (.blockMapping :: keyTokens (line :: above) key) =
            ((log.push .blockMapping).pushAll (lineTokens (line :: above))).pushAll
              [.key, .scalar (inlineStyle key) key, .value] :=
          TokenLog.ext_toList (by simp [keyTokens])
        rw [hlog]
        refine .of_result_eq (result_openLines hkeys' hnotes' hlead hplace hfield hm) ?_
        exact readsTo_of_reads
          (reads_lines hbodies' hkeys' hnotes' hlead hplace hne (outside_key hkey _))
          fun next hnext => readsTo_nextKey hkey hrest hnext

/-- The items of an open list are read up to the dash of one more. -/
theorem readsTo_itemsText {items : List Outline} (hitems : ∀ item ∈ items, ReadsBehindDash item)
    (hrest : startsBlank rest = true) (hplace : place.column = 0) :
    ReadsTo ⟨⟨itemsText column items ++ rest, place⟩, log, (column + 1) :: margins, true, none, []⟩
      (itemsFit items) (column + 1) rest (log.pushAll (itemTokens items ++ [.dash]))
      ((column + 1) :: margins) true := by
  have htext : itemsText column items ++ rest =
      (printItems column items).toList ++ (List.replicate column ' ' ++ '-' :: rest) := by
    simp [itemsText]
  have hlog : log.pushAll (itemTokens items ++ [.dash]) =
      (log.pushAll (itemTokens items)).push .dash := TokenLog.ext_toList (by simp)
  have houtside : Outside column (List.replicate column ' ' ++ '-' :: rest) :=
    .token (Nat.le_refl _) (by decide) (by decide) (by decide) (by decide)
  rw [htext, hlog, ← Bool.and_true (itemsFit items)]
  refine readsTo_of_reads (reads_items log margins hitems houtside hplace) fun next hnext => ?_
  have hcolumn : (next.forward column).column = column :=
    (congrArg (· + column) hnext).trans (Nat.zero_add column)
  have hdash := result_dash (log.pushAll (itemTokens items)) margins (next.forward column) hrest
  rw [hcolumn] at hdash
  exact ⟨_, ⟨Nat.succ_pos _, congrArg (· + 1) hcolumn⟩,
    (result_congr_toToken (toToken_spaces _ _ _)).trans hdash⟩

/-- A dash right of the innermost entries opens a sequence. -/
theorem readsTo_firstDash (hrest : startsBlank rest = true) (hm : margins.headD 0 ≤ column)
    (hplace : place.column + lead = column) :
    ReadsTo ⟨⟨List.replicate lead ' ' ++ '-' :: rest, place⟩, log, margins, true, none, []⟩ true
      (column + 1) rest (log.pushAll [.blockSequence, .dash]) ((column + 1) :: margins) true := by
  subst hplace
  have hcolumn : margins.headD 0 ≤ (place.forward lead).column := hm
  have hlog : (log.push .blockSequence).push .dash = log.pushAll [.blockSequence, .dash] :=
    TokenLog.ext_toList (by simp)
  refine .of_result_eq (result_congr_toToken (toToken_spaces _ _ _))
    ⟨(place.forward lead).forward 1, ⟨Nat.succ_pos _, rfl⟩, ?_⟩
  rw [result_openSequence log hrest hcolumn, result_dash _ _ _ hrest, hlog]
  rfl

/-- The items of a list are read up to the dash of one more. -/
theorem readsTo_dashText {items : List Outline} (hitems : ∀ item ∈ items, ReadsBehindDash item)
    (hrest : startsBlank rest = true) (hm : margins.headD 0 ≤ column)
    (hplace : place.column + lead = column) :
    ReadsTo ⟨⟨dashText lead column items ++ rest, place⟩, log, margins, true, none, []⟩
      (itemsFit items) (column + 1) rest
      (log.pushAll (.blockSequence :: (itemTokens items ++ [.dash]))) ((column + 1) :: margins) true := by
  cases items with
  | nil =>
    rw [dashText, List.append_assoc, List.singleton_append]
    exact readsTo_firstDash hrest hm hplace
  | cons item items =>
    have htext : dashText lead column (item :: items) ++ rest = List.replicate lead ' ' ++ '-' ::
        ((printItem column item).toList ++ (itemsText column items ++ rest)) := by
      simp [dashText]
    have hlog : log.pushAll (.blockSequence :: (itemTokens (item :: items) ++ [.dash])) =
        ((log.pushAll [.blockSequence, .dash]).pushAll item.tokens).pushAll
          (itemTokens items ++ [.dash]) := TokenLog.ext_toList (by simp [itemTokens])
    have houtside : Outside column (itemsText column items ++ rest) := by
      rw [itemsText, List.append_assoc, List.append_assoc]
      exact outside_printItems items
        (.token (Nat.le_refl _) (by decide) (by decide) (by decide) (by decide))
    rw [htext, hlog, itemsFit, ← Bool.true_and (item.keysFit && itemsFit items)]
    refine (readsTo_firstDash (startsBlank_printItem ..) hm hplace).trans fun next hnext => ?_
    exact readsTo_of_reads (hitems item (List.mem_cons_self ..) hnext houtside) fun next hnext =>
      readsTo_itemsText (fun other hother => hitems other (List.mem_cons_of_mem _ hother)) hrest hnext

theorem readsBehindDash_of_sound {levels : Nat} {items : List Outline}
    (h : Sound levels (.list items)) : ∀ item ∈ items, ReadsBehindDash item := by
  cases h with
  | list hitems hlines => exact fun item hitem => (hitems item hitem).reads.2 (hlines item hitem)

/-- An opening is read and opens its block. -/
theorem Opening.readsTo {o : Opening} (ho : o.WellFormed) (hrest : startsBlank rest = true)
    (hm : margins.headD 0 ≤ least) (hplace : place.column + pad = least) :
    ReadsTo ⟨⟨o.text least pad ++ rest, place⟩, log, margins, true, none, []⟩ o.keysFit
      (o.endColumn least) rest (log.pushAll o.tokens) ((o.column least + 1) :: margins)
      o.keyAllowed := by
  have hcolumn : ∀ gap, place.column + (pad + gap) = least + gap := by omega
  have hinside : ∀ gap, margins.headD 0 ≤ least + gap := by omega
  cases o with
  | colon gap above key =>
    obtain ⟨⟨levels, habove⟩, hkey⟩ := ho
    exact readsTo_keyText habove hkey hrest (hinside gap) (hcolumn gap)
  | dash gap above =>
    obtain ⟨levels, habove⟩ := ho
    exact readsTo_dashText (readsBehindDash_of_sound habove) hrest (hinside gap) (hcolumn gap)
  | dashBelow gap above key items =>
    obtain ⟨⟨⟨levels, habove⟩, hkey⟩, levels', hitems⟩ := ho
    have hlog : log.pushAll (Opening.dashBelow gap above key items).tokens =
        (log.pushAll (.blockMapping :: keyTokens above key)).pushAll (itemTokens items ++ [.dash]) :=
      TokenLog.ext_toList (by simp [Opening.tokens])
    rw [Opening.text, List.append_assoc, hlog]
    refine (readsTo_keyText habove hkey rfl (hinside gap) (hcolumn gap)).trans fun next _ => ?_
    exact .of_result_eq (result_congr_toToken (toToken_lineFeed _ _))
      (readsTo_itemsText (readsBehindDash_of_sound hitems) hrest rfl)

/-- Behind an opening there is room in its block. -/
theorem Opening.column_lt_endColumn (o : Opening) (least : Nat) :
    o.column least < o.endColumn least := by
  cases o <;> simp only [Opening.column, Opening.endColumn] <;> omega

/-- A block inside starts where a key may start, right of the entry around it and as far as the
opening asks. -/
theorem Opening.exists_result_lead (o : Opening) (text : List Char)
    (hplace : place.column = o.endColumn least) :
    ∃ next : Place, next.column + o.pad (o.column least) = o.least (o.column least) ∧
      result ⟨⟨o.lead ++ text, place⟩, log, margins, o.keyAllowed, none, []⟩ =
        result ⟨⟨text, next⟩, log, margins, true, none, []⟩ := by
  cases o with
  | colon gap above key =>
    exact ⟨place.newLine 1, Nat.zero_add _, result_congr_toToken (toToken_lineFeed _ _)⟩
  | dash gap above => exact ⟨place, congrArg (· + 1) hplace, rfl⟩
  | dashBelow gap above key items => exact ⟨place, congrArg (· + 1) hplace, rfl⟩

theorem Opening.column_lt_least (o : Opening) (column : Nat) : column + 1 ≤ o.least column := by
  cases o <;> simp only [Opening.least] <;> omega

/-- White space leads to a block inside. -/
theorem startsBlank_inside (o : Opening) (inner : Spot) (s : String) (least column : Nat)
    (rest : List Char) :
    startsBlank (o.lead ++ inner.text s least (o.pad column) ++ rest) = true := by
  have hspaces : ∀ (gap : Nat) (text : List Char),
      startsBlank (List.replicate (1 + gap) ' ' ++ text) = true := fun gap text => by
    rw [Nat.add_comm, List.replicate_succ]
    rfl
  have hkey : ∀ (gap : Nat) (above : List (Line Outline)) (key : String) (text : List Char),
      startsBlank (keyText (1 + gap) (least + gap) above key ++ text) = true := by
    intro gap above key text
    cases above with
    | nil => simp [keyText, printLines, hspaces]
    | cons line above =>
      rw [keyText]
      cases line with
      | field key body =>
        simp only [toList_printLines_field, toList_pad, List.append_assoc, hspaces]
      | comment note => simp only [toList_printLines_comment, toList_pad, List.append_assoc, hspaces]
      | empty =>
        rw [toList_printLines_empty]
        rfl
  have hopening : ∀ (opening : Opening) (text : List Char),
      startsBlank (opening.text least 1 ++ text) = true := by
    intro opening text
    cases opening with
    | colon gap above key => exact hkey ..
    | dash gap above => cases above <;> simp only [Opening.text, dashText, List.append_assoc, hspaces]
    | dashBelow gap above key items =>
      rw [Opening.text, List.append_assoc]
      exact hkey ..
  have hinner : startsBlank (inner.text s least 1 ++ rest) = true := by
    cases inner with
    | key gap above => exact hkey ..
    | behind opening =>
      rw [Spot.text, List.append_assoc]
      exact hopening ..
    | inside opening inner =>
      rw [Spot.text, List.append_assoc]
      exact hopening ..
  -- Only behind a colon there is a line feed; a dash is followed by the spaces of what is inside.
  cases o with
  | colon gap above key => rfl
  | dash gap above => exact hinner
  | dashBelow gap above key items => exact hinner

/-- A text at a spot is read, with all that is around it. -/
theorem Spot.readsTo {spot : Spot} {s : String} (hs : Text.OrdinaryChars s.toList)
    (hspot : spot.WellFormed) (hrest : spot.endsBefore least rest = true)
    (hm : margins.headD 0 ≤ least) (hplace : place.column + pad = least) :
    ReadsTo ⟨⟨spot.text s least pad ++ rest, place⟩, log, margins, true, none, []⟩ (spot.keysFit s)
      (spot.endColumn s least) rest (log.pushAll (spot.tokens s)) (spot.margins least ++ margins)
      (!spot.isKey) := by
  -- From the outside to the text; each opening leads to the column in which the next block starts.
  induction spot generalizing place log margins least pad with
  | key gap above =>
    obtain ⟨levels, habove⟩ := hspot
    exact readsTo_keyText habove hs hrest (by omega) (by omega)
  | behind opening =>
    have hlog : log.pushAll ((Spot.behind opening).tokens s) =
        (log.pushAll opening.tokens).push (.scalar (inlineStyle s) s) :=
      TokenLog.ext_toList (by simp [Spot.tokens])
    have hbelow : indentedAtMost (opening.column least) 0 rest = true := hrest
    rw [Spot.text, List.append_assoc, List.cons_append, List.append_assoc, List.singleton_append, hlog,
      Spot.keysFit, ← Bool.and_true opening.keysFit]
    refine (Opening.readsTo hspot rfl hm hplace).trans fun next hnext => ?_
    have hinside : opening.column least + 1 ≤ (next.forward 1).column := by
      have hroom := opening.column_lt_endColumn least
      simp only [Place.forward, hnext]
      omega
    exact .of_result_eq (result_congr_toToken (toToken_space _ _)) ⟨_, ⟨Nat.succ_pos _, rfl⟩,
      result_written (inline_of_ordinary hs) hs hbelow (Nat.lt_succ_self _) hinside⟩
  | inside opening inner ih =>
    have hlog : log.pushAll ((Spot.inside opening inner).tokens s) =
        (log.pushAll opening.tokens).pushAll (inner.tokens s) :=
      TokenLog.ext_toList (by simp [Spot.tokens])
    have hmargins : (Spot.inside opening inner).margins least ++ margins =
        inner.margins (opening.least (opening.column least)) ++
          ((opening.column least + 1) :: margins) := by
      simp [Spot.margins]
    rw [Spot.text, List.append_assoc, hlog, hmargins]
    refine (Opening.readsTo hspot.1 (startsBlank_inside ..) hm hplace).trans fun next hnext => ?_
    rw [List.append_assoc]
    obtain ⟨start, hstart, hlead⟩ := opening.exists_result_lead _ hnext
    exact .of_result_eq hlead (ih hspot.2 hrest (opening.column_lt_least _) hstart)

end

end

/-! ## One text in place of another -/

section

open Scan

/-- White space ends the entry of a spot alike behind two texts: the column is the same, or a line
ends there. -/
def Spot.LinesUp (spot : Spot) (p s : String) (rest : List Char) : Prop :=
  spot.isKey = true →
    rest.head?.any isBreak = true ∨ (inline s).toList.length = (inline p).toList.length

/-- The column behind a text is the same for all texts, unless texts of different lengths are keys
there. -/
theorem Spot.endColumn_congr {spot : Spot} {p s : String} (least : Nat)
    (h : spot.isKey = true → (inline s).toList.length = (inline p).toList.length) :
    spot.endColumn s least = spot.endColumn p least := by
  induction spot generalizing least with
  | key gap above => rw [endColumn, endColumn, h rfl]
  | behind opening => rfl
  | inside opening inner ih => exact ih _ h

theorem Spot.keysFit_of_keysFit {spot : Spot} {p s : String} (hp : spot.keysFit p = true)
    (hs : spot.isKey = true → keyFits s = true) : spot.keysFit s = true := by
  induction spot with
  | key gap above =>
    obtain ⟨habove, -⟩ := Bool.and_eq_true_iff.1 hp
    exact Bool.and_eq_true_iff.2 ⟨habove, hs rfl⟩
  | behind opening => exact hp
  | inside opening inner ih =>
    obtain ⟨hopening, hinner⟩ := Bool.and_eq_true_iff.1 hp
    exact Bool.and_eq_true_iff.2 ⟨hopening, ih hinner hs⟩

/-- Behind the same text runs are alike, also at different columns if a line ends there. -/
theorem rel_result {p q : Place} {rest : List Char} (a b : TokenLog)
    (hstarted : 0 < p.index ∧ 0 < q.index)
    (hcolumn : rest.head?.any isBreak = true ∨ q.column = p.column) (margins : List Nat)
    (keyAllowed : Bool) :
    Option.Rel (TokensAlike ⟨p, q, a.toList, b.toList⟩)
      (result ⟨⟨rest, p⟩, a, margins, keyAllowed, none, []⟩)
      (result ⟨⟨rest, q⟩, b, margins, keyAllowed, none, []⟩) := by
  let j : Junction := ⟨p, q, a.toList, b.toList⟩
  have hlevel : ∀ {p q : Place} (rest : List Char) (keyAllowed : Bool), p.Alike j q →
      Option.Rel (TokensAlike j) (result ⟨⟨rest, p⟩, a, margins, keyAllowed, none, []⟩)
        (result ⟨⟨rest, q⟩, b, margins, keyAllowed, none, []⟩) := fun _ _ h =>
    Alike.result ⟨⟨rfl, h⟩, ⟨[], by simp [j], by simp [j]⟩, rfl, rfl, .none, .nil⟩
  have hnewLine : ∀ width, (p.newLine width).Alike j (q.newLine width) := by
    intro width
    refine ⟨?_, ?_, ?_, rfl⟩ <;> simp only [Place.newLine, j] <;> omega
  -- A line break brings both runs to the same column.
  rcases hcolumn with hbreak | hcolumn
  · obtain ⟨c, rest, rfl⟩ : ∃ c rest', rest = c :: rest' := by
      refine List.exists_cons_of_ne_nil ?_
      rintro rfl
      exact absurd hbreak Bool.false_ne_true
    by_cases hcrlf : c = '\r' ∧ rest.head? = some '\n'
    · obtain ⟨rest, rfl⟩ := List.head?_eq_some_iff.1 hcrlf.2
      rw [hcrlf.1, result_congr_toToken (toToken_carriageReturn _ _),
        result_congr_toToken (toToken_carriageReturn _ _)]
      exact hlevel rest true (hnewLine 2)
    · have hsingle : ∀ rest', c = '\r' → rest = '\n' :: rest' → False := by
        rintro rest' hc rfl
        exact hcrlf ⟨hc, rfl⟩
      rw [result_congr_toToken (toToken_break _ hbreak hsingle),
        result_congr_toToken (toToken_break _ hbreak hsingle)]
      exact hlevel rest true (hnewLine 1)
  · exact hlevel rest keyAllowed ⟨Nat.add_comm .., hstarted, Nat.add_comm .., hcolumn⟩

theorem permitted_keyText {levels : Nat} {above : List (Line Outline)} {key : String}
    (habove : Sound levels (.fields above)) (hkey : Text.OrdinaryChars key.toList)
    (lead column : Nat) : Permitted (keyText lead column above key) := by
  cases habove with
  | fields hbodies hkeys hnodup hnotes =>
    refine permitted_append ?_ (permitted_append (permitted_replicate _ (by decide))
      (permitted_append (permitted_inline hkey) (permitted_of_all (by decide))))
    exact permitted_printLines
      (fun key body h indent => ((hbodies key body h).permitted indent).1)
      (fun key body h => (hkeys key body h).1) (fun note h c hc => (hnotes note h c hc).1)
      (permitted_pad lead)

theorem permitted_itemsText {levels : Nat} {items : List Outline} (h : Sound levels (.list items))
    (lead column : Nat) :
    Permitted (itemsText column items) ∧ Permitted (dashText lead column items) := by
  cases h with
  | list hitems hlines =>
    have hdash : ∀ n, Permitted (List.replicate n ' ' ++ ['-']) := fun n =>
      permitted_append (permitted_replicate n (by decide)) (permitted_of_all (by decide))
    have htext : ∀ items', (∀ item ∈ items', item ∈ items) → Permitted (itemsText column items') :=
      fun items' hsub => permitted_append (permitted_printItems fun item hitem indent =>
        ((hitems item (hsub item hitem)).permitted indent).2) (hdash _)
    refine ⟨htext items fun _ h => h, ?_⟩
    cases items with
    | nil => exact hdash _
    | cons item items =>
      exact permitted_append (permitted_replicate _ (by decide)) (permitted_cons (by decide)
        (permitted_append ((hitems item (List.mem_cons_self ..)).permitted _).2
          (htext items fun _ h => List.mem_cons_of_mem _ h)))

theorem Opening.permitted_text {o : Opening} (ho : o.WellFormed) (least pad : Nat) :
    Permitted (o.text least pad) := by
  cases o with
  | colon gap above key =>
    obtain ⟨⟨levels, habove⟩, hkey⟩ := ho
    exact permitted_keyText habove hkey _ _
  | dash gap above =>
    obtain ⟨levels, habove⟩ := ho
    exact (permitted_itemsText habove _ _).2
  | dashBelow gap above key items =>
    obtain ⟨⟨⟨levels, habove⟩, hkey⟩, levels', hitems⟩ := ho
    exact permitted_append (permitted_keyText habove hkey _ _)
      (permitted_cons (by decide) (permitted_itemsText hitems 0 _).1)

theorem Spot.permitted_text {spot : Spot} {s : String} (hs : Text.OrdinaryChars s.toList)
    (hspot : spot.WellFormed) (least pad : Nat) : Permitted (spot.text s least pad) := by
  have hlead : ∀ o : Opening, Permitted o.lead := fun o => permitted_of_all (by cases o <;> rfl)
  induction spot generalizing least pad with
  | key gap above =>
    obtain ⟨levels, habove⟩ := hspot
    exact permitted_keyText habove hs _ _
  | behind opening =>
    exact permitted_append (Opening.permitted_text hspot _ _) (permitted_cons (by decide)
      (permitted_append (permitted_inline hs) (permitted_of_all (by decide))))
  | inside opening inner ih =>
    exact permitted_append (Opening.permitted_text hspot.1 _ _)
      (permitted_append (hlead opening) (ih hspot.2 _ _))

/-- The tokens of a text, read from its start. -/
theorem tokens?_eq_result {text : List Char} (h : Permitted text) :
    Yaml.tokens? text = result (.start text) := by
  rw [Yaml.tokens?, if_pos (List.all_eq_true.2 h)]
  rfl

theorem permitted_of_tokens? {text : List Char} {ts : List Token}
    (h : Yaml.tokens? text = some ts) : Permitted text := by
  unfold Yaml.tokens? at h
  split at h
  · exact permitted_of_all (by assumption)
  · cases h

/-- Whichever text stands at a spot, what follows is read as the same tokens. -/
theorem Spot.exists_tokens? {spot : Spot} {p s : String} {rest : List Char} {ts : List Token}
    (hp : Text.OrdinaryChars p.toList) (hs : Text.OrdinaryChars s.toList) (hspot : spot.WellFormed)
    (hrest : spot.endsBefore 0 rest = true) (hfits : spot.isKey = true → keyFits s = true)
    (hlines : spot.LinesUp p s rest) (h : Yaml.tokens? (spot.text p 0 0 ++ rest) = some ts) :
    ∃ us, ts = spot.tokens p ++ us ∧
      Yaml.tokens? (spot.text s 0 0 ++ rest) = some (spot.tokens s ++ us) := by
  have hpermitted := permitted_of_tokens? h
  have hpermitted' : Permitted (spot.text s 0 0 ++ rest) :=
    permitted_append (permitted_text hs hspot 0 0) fun c hc =>
      hpermitted c (List.mem_append_right _ hc)
  have hread : ∀ {x : String}, Text.OrdinaryChars x.toList →
      ReadsTo (.start (spot.text x 0 0 ++ rest)) (spot.keysFit x) (spot.endColumn x 0) rest
        (TokenLog.empty.pushAll (spot.tokens x)) (spot.margins 0 ++ []) (!spot.isKey) :=
    fun hx => Spot.readsTo hx hspot hrest (Nat.le_refl 0) (Nat.add_zero 0)
  obtain ⟨next, ⟨hpos, hcolumn⟩, hleft⟩ := hread hp
  obtain ⟨next', ⟨hpos', hcolumn'⟩, hright⟩ := hread hs
  rw [tokens?_eq_result hpermitted, hleft] at h
  have hfit : spot.keysFit p = true := by
    by_contra hfit
    rw [if_neg hfit] at h
    cases h
  rw [if_pos hfit] at h
  rw [tokens?_eq_result hpermitted', hright, if_pos (Spot.keysFit_of_keysFit hfit hfits)]
  -- A key may move the column behind it, which matters only if its line goes on.
  have hlevel : rest.head?.any isBreak = true ∨ next'.column = next.column := by
    rw [hcolumn, hcolumn']
    by_cases hkey : spot.isKey = true
    · exact (hlines hkey).imp_right fun hlength => Spot.endColumn_congr 0 fun _ => hlength
    · exact .inr (Spot.endColumn_congr 0 fun h => absurd h hkey)
  have hruns := rel_result (TokenLog.empty.pushAll (spot.tokens p))
    (TokenLog.empty.pushAll (spot.tokens s)) ⟨hpos, hpos'⟩ hlevel (spot.margins 0 ++ []) (!spot.isKey)
  rw [h] at hruns
  generalize result _ = run at hruns ⊢
  cases hruns with
  | some hts =>
    obtain ⟨us, rfl, rfl⟩ := hts
    exact ⟨us, by simp, by simp⟩

end

end Outline
end CiPipelines
