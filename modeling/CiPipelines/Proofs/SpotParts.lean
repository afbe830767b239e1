import CiPipelines.Proofs.SpotValues

/-!
# Scalars of any form at a spot

At a spot behind a colon or dash there may stand any text that is read as one scalar, also one over
several lines.  The document then has the value of that scalar there, and around it what it has with
any text on one line at the spot.
-/

namespace CiPipelines

open Yaml

namespace Outline

/-! ## Up to a part -/

namespace Spot

/-- The text up to a spot that is none for a key. -/
def lead (least pad : Nat) : Spot → List Char
  | key _ _ => []
  | behind opening => opening.text least pad
  | inside opening inner => opening.text least pad ++ (opening.lead ++
      inner.lead (opening.least (opening.column least)) (opening.pad (opening.column least)))

/-- The tokens of that text. -/
def leadTokens : Spot → List Token
  | key _ _ => []
  | behind opening => opening.tokens
  | inside opening inner => opening.tokens ++ inner.leadTokens

/-- The column behind it. -/
def leadColumn (least : Nat) : Spot → Nat
  | key _ _ => least
  | behind opening => opening.endColumn least
  | inside opening inner => inner.leadColumn (opening.least (opening.column least))

/-- Whether a key may start behind it on the same line. -/
def keyAllowed : Spot → Bool
  | key _ _ => false
  | behind opening => opening.keyAllowed
  | inside _ inner => inner.keyAllowed

section

variable {spot : Spot} (hspot : spot.isKey = false)

include hspot

theorem text_eq_lead (s : String) (least pad : Nat) :
    spot.text s least pad = spot.lead least pad ++ ' ' :: ((inline s).toList ++ ['\n']) := by
  induction spot generalizing least pad with
  | key gap above => cases hspot
  | behind opening => rfl
  | inside opening inner ih =>
    rw [text, lead, ih hspot, List.append_assoc, List.append_assoc]

theorem endsBefore_eq (least : Nat) (rest : List Char) :
    spot.endsBefore least rest = indentedAtMost (spot.column least) 0 rest :=
  if_neg (Bool.eq_false_iff.1 hspot)

/-- The innermost block around a spot holds its entry. -/
theorem exists_margins_eq (least : Nat) :
    ∃ outer, spot.margins least = (spot.column least + 1) :: outer := by
  induction spot generalizing least with
  | key gap above => cases hspot
  | behind opening => exact ⟨[], rfl⟩
  | inside opening inner ih =>
    obtain ⟨outer, houter⟩ := ih hspot (opening.least (opening.column least))
    exact ⟨_, by rw [margins, houter]; rfl⟩

/-- There is room in the innermost block. -/
theorem column_lt_leadColumn (least : Nat) : spot.column least < spot.leadColumn least := by
  induction spot generalizing least with
  | key gap above => cases hspot
  | behind opening => exact opening.column_lt_endColumn least
  | inside opening inner ih => exact ih hspot _

end

end Spot

/-! ## Reading a part -/

section

open Scan

/-- A text behind the space at a spot is read as one scalar, up to the rest of the document. -/
structure Spot.ReadsPart (spot : Spot) (body rest : List Char) (style : Style) (s : String) :
    Prop where
  permitted : Permitted body
  reads : ∀ (place : Place) (log : TokenLog) (margins : List Nat) (keyAllowed : Bool),
    spot.column 0 < place.column →
      ReadsTo ⟨⟨body ++ rest, place.forward 1⟩, log, (spot.column 0 + 1) :: margins, keyAllowed,
        none, []⟩ true 0 rest (log.push (.scalar style s)) ((spot.column 0 + 1) :: margins) true

section

variable {spot : Spot} (hkey : spot.isKey = false)

/-- A text on one line is such a part, in each of the forms that it may have. -/
theorem Spot.readsPart_written {s : String} {style : Style} {written rest : List Char}
    (h : Inline s style written) (hs : Text.OrdinaryChars s.toList) (hwritten : Permitted written)
    (hrest : indentedAtMost (spot.column 0) 0 rest = true) :
    spot.ReadsPart (written ++ ['\n']) rest style s where
  permitted := permitted_append hwritten (permitted_of_all (by decide))
  reads place log margins keyAllowed hplace := by
    rw [List.append_assoc, List.singleton_append]
    exact ⟨_, ⟨Nat.succ_pos _, rfl⟩, result_written h hs hrest (Nat.lt_succ_self _)
      (Nat.le_succ_of_le hplace)⟩

include hkey

/-- The text up to a part is read. -/
theorem Spot.readsTo_lead (hspot : spot.WellFormed) {rest : List Char}
    (hrest : startsBlank rest = true) {margins : List Nat} {least pad : Nat} {place : Place}
    {log : TokenLog} (hm : margins.headD 0 ≤ least) (hplace : place.column + pad = least) :
    ReadsTo ⟨⟨spot.lead least pad ++ rest, place⟩, log, margins, true, none, []⟩ (spot.keysFit "")
      (spot.leadColumn least) rest (log.pushAll spot.leadTokens) (spot.margins least ++ margins)
      spot.keyAllowed := by
  induction spot generalizing place log margins least pad with
  | key gap above => cases hkey
  | behind opening => exact Opening.readsTo hspot hrest hm hplace
  | inside opening inner ih =>
    have hkey : inner.isKey = false := hkey
    have hlog : log.pushAll (Spot.inside opening inner).leadTokens =
        (log.pushAll opening.tokens).pushAll inner.leadTokens :=
      TokenLog.ext_toList (by simp [Spot.leadTokens])
    have hmargins : (Spot.inside opening inner).margins least ++ margins =
        inner.margins (opening.least (opening.column least)) ++
          ((opening.column least + 1) :: margins) := by
      simp [Spot.margins]
    -- What is inside starts with white space, as it does with any text at the spot.
    have hblank : startsBlank (opening.lead ++ (inner.lead (opening.least (opening.column least))
        (opening.pad (opening.column least)) ++ rest)) = true := by
      have htext := startsBlank_inside opening inner "" (opening.least (opening.column least))
        (opening.column least) []
      rw [Spot.text_eq_lead hkey, List.append_nil, ← List.append_assoc] at htext
      rw [← List.append_assoc]
      generalize opening.lead ++ inner.lead _ _ = front at htext ⊢
      cases front with
      | nil => exact hrest
      | cons c front => exact htext
    rw [Spot.lead, List.append_assoc, List.append_assoc, hlog, hmargins]
    refine (Opening.readsTo hspot.1 hblank hm hplace).trans fun next hnext => ?_
    obtain ⟨start, hstart, hlead⟩ := opening.exists_result_lead _ hnext
    exact .of_result_eq hlead (ih hkey hspot.2 (opening.column_lt_least _) hstart)

/-- The text up to a part is permitted. -/
theorem Spot.permitted_lead (hspot : spot.WellFormed) : Permitted (spot.lead 0 0) := by
  have htext := Spot.permitted_text (s := "") nofun hspot 0 0
  rw [Spot.text_eq_lead hkey] at htext
  exact fun c hc => htext c (List.mem_append_left _ hc)

/-- A document with a part at a spot is read as the tokens up to the spot, one scalar, and what is
read of the rest of the document. -/
theorem Spot.exists_tokens?_part (hspot : spot.WellFormed) (rest : List Char) :
    ∃ us : Option (List Token), ∀ (body : List Char) (style : Style) (s : String),
      spot.ReadsPart body rest style s →
        Yaml.tokens? (spot.lead 0 0 ++ ' ' :: (body ++ rest)) =
          us.map fun us => spot.leadTokens ++ .scalar style s :: us := by
  have htext : ∀ body, spot.lead 0 0 ++ ' ' :: (body ++ rest) =
      (spot.lead 0 0 ++ ' ' :: body) ++ rest := fun body => by simp
  by_cases hpermitted : Permitted rest
  -- A character that YAML forbids spoils the document behind any part.
  case neg =>
    refine ⟨none, fun body style s _ => ?_⟩
    by_contra hsome
    obtain ⟨ts, hts⟩ := Option.ne_none_iff_exists'.1 hsome
    rw [htext] at hts
    exact hpermitted fun c hc => permitted_of_tokens? hts c (List.mem_append_right _ hc)
  obtain ⟨outer, houter⟩ := Spot.exists_margins_eq hkey 0
  -- A run over the rest alone, from the start of a line, stands for the runs behind all parts.
  refine ⟨if spot.keysFit "" then
    result ⟨⟨rest, ⟨1, 0, 0⟩⟩, .empty, spot.margins 0, true, none, []⟩ else none,
    fun body style s hpart => ?_⟩
  have hall : Permitted (spot.lead 0 0 ++ ' ' :: (body ++ rest)) :=
    permitted_append (Spot.permitted_lead hkey hspot)
      (permitted_cons (by decide) (permitted_append hpart.permitted hpermitted))
  have hread : ReadsTo (.start (spot.lead 0 0 ++ ' ' :: (body ++ rest))) (spot.keysFit "")
      (spot.leadColumn 0) (' ' :: (body ++ rest)) (TokenLog.empty.pushAll spot.leadTokens)
      (spot.margins 0 ++ []) spot.keyAllowed :=
    Spot.readsTo_lead hkey hspot rfl (Nat.le_refl 0) (Nat.add_zero 0)
  obtain ⟨place, ⟨hpos, hplace⟩, hlead⟩ := hread
  obtain ⟨next, ⟨hnext, hcolumn⟩, hbody⟩ := hpart.reads place
    (TokenLog.empty.pushAll spot.leadTokens) outer spot.keyAllowed
    (hplace ▸ Spot.column_lt_leadColumn hkey 0)
  rw [tokens?_eq_result hall]
  refine hlead.trans ?_
  split
  · have hspace : result ⟨⟨' ' :: (body ++ rest), place⟩, TokenLog.empty.pushAll spot.leadTokens,
        spot.margins 0 ++ [], spot.keyAllowed, none, []⟩ =
        result ⟨⟨rest, next⟩, (TokenLog.empty.pushAll spot.leadTokens).push (.scalar style s),
          spot.margins 0, true, none, []⟩ := by
      rw [List.append_nil, houter]
      exact (result_congr_toToken (toToken_space _ _)).trans hbody
    have hruns := @rel_result ⟨1, 0, 0⟩ next rest .empty
      ((TokenLog.empty.pushAll spot.leadTokens).push (.scalar style s)) ⟨Nat.one_pos, hnext⟩
      (.inr hcolumn) (spot.margins 0) true
    rw [hspace]
    generalize result ⟨⟨rest, ⟨1, 0, 0⟩⟩, _, _, _, _, _⟩ = reference at hruns ⊢
    generalize result _ = run at hruns ⊢
    cases hruns with
    | none => rfl
    | some hts =>
      obtain ⟨us, rfl, rfl⟩ := hts
      simp
  · rfl

end

end

/-! ## Trees and values around a part -/

section

variable {β : Type} (make : Maker β)

/-- A part at a spot, with all that is around it; at a spot for a key it is the key. -/
def Around.put (part : β) : {spot : Spot} → Around β spot → β
  | _, .key above under below => make.mapping (above ++ (part, under) :: below)
  | _, .behind beside => beside.fill make part
  | _, .inside beside within => beside.fill make (within.put part)

/-- A text is a part like any other. -/
theorem Around.put_text {spot : Spot} (around : Around β spot) (s : String) :
    around.put make (make.text s) = around.fill make s := by
  induction around with
  | key above under below => rfl
  | behind beside => rfl
  | inside beside within ih => rw [put, fill, ih]

end

/-- A text on one line is read as a text. -/
theorem ofScalar?_inlineStyle {s : String} (hs : Text.OrdinaryChars s.toList) :
    Value.ofScalar? none (inlineStyle s) s = some (.text s) := by
  unfold Value.ofScalar?
  dsimp only
  split
  · rename_i hplain
    exact ofPlain?_of_inlineStyle hs (beq_iff_eq.1 hplain)
  · rfl

section

variable {spot : Spot} (hkey : spot.isKey = false)

include hkey

theorem Spot.startsNode_leadTokens (ts : List Token) :
    StartsNode (spot.leadTokens ++ ts) ∧ spot.leadTokens ++ ts ≠ [] := by
  have hopening : ∀ (o : Opening) (us : List Token),
      StartsNode (o.tokens ++ us ++ ts) ∧ o.tokens ++ us ++ ts ≠ [] := fun o us => by
    cases o <;> exact ⟨⟨rfl, rfl, rfl, rfl⟩, List.cons_ne_nil _ _⟩
  cases spot with
  | key gap above => cases hkey
  | behind opening => simpa [Spot.leadTokens] using hopening opening []
  | inside opening inner => exact hopening opening _

/-- What is read around a scalar at a spot is the same for all scalars. -/
theorem Spot.exists_readNode_part (handles : Handles) {fuel : Nat} (openItems : Bool)
    (hfuel : spot.leadTokens.length + 1 ≤ fuel) (us : List Token) :
    ∃ around : Option (Around (Yaml.Tree String) spot × List Token), ∀ style s,
      readNode handles true openItems fuel (spot.leadTokens ++ .scalar style s :: us) =
        around.map fun read =>
          (read.1.put (plainTrees String) (.scalar .none style s), read.2) := by
  induction spot generalizing openItems fuel with
  | key gap above => cases hkey
  | behind opening =>
    obtain ⟨openItems', left, beside, hleft, hread⟩ :=
      opening.exists_readNode handles openItems (Nat.le_of_succ_le hfuel)
    simp only [Spot.leadTokens] at hfuel
    obtain ⟨left, rfl⟩ : ∃ n, left = n + 1 := ⟨left - 1, by omega⟩
    refine ⟨(beside us).map fun read => (.behind read.1, read.2), fun style s => ?_⟩
    rw [Spot.leadTokens, hread _ ⟨rfl, rfl, rfl, rfl⟩, readNode_scalar, Option.bind_some,
      Option.map_map]
    rfl
  | inside opening inner ih =>
    simp only [Spot.leadTokens, List.length_append] at hfuel
    obtain ⟨openItems', left, beside, hleft, hread⟩ :=
      opening.exists_readNode handles openItems (show opening.tokens.length ≤ fuel by omega)
    have hkey : inner.isKey = false := hkey
    obtain ⟨around, hinner⟩ := ih hkey openItems' (show inner.leadTokens.length + 1 ≤ left by omega)
    refine ⟨around.bind fun within => (beside within.2).map fun read =>
      (.inside read.1 within.1, read.2), fun style s => ?_⟩
    rw [Spot.leadTokens, List.append_assoc, hread _ (Spot.startsNode_leadTokens hkey _).1, hinner]
    simp only [Option.map_bind, Option.map_map, Option.bind_map, Function.comp_def]
    rfl

/-- A stream with a scalar at a spot is a document with the scalar in it, whichever it is. -/
theorem Spot.exists_readStream?_part (us : List Token) :
    ∃ around : Option (Around (Yaml.Tree String) spot), ∀ style s,
      readStream? (spot.leadTokens ++ .scalar style s :: us) =
        around.map fun around => some (around.put (plainTrees String) (.scalar .none style s)) := by
  have hlength : ∀ style s, (spot.leadTokens ++ .scalar style s :: us).length =
      spot.leadTokens.length + (us.length + 1) := fun style s => List.length_append
  obtain ⟨around, hread⟩ := Spot.exists_readNode_part hkey defaultHandles false
    (show spot.leadTokens.length + 1 ≤ 3 * (spot.leadTokens.length + (us.length + 1)) + 3 by omega)
    us
  refine ⟨(around.filter fun read => read.2.all (· == .documentEnd)).map (·.1), fun style s => ?_⟩
  obtain ⟨hstarts, hne⟩ := Spot.startsNode_leadTokens hkey (.scalar style s :: us)
  have hempty : ¬(spot.leadTokens ++ .scalar style s :: us).isEmpty = true :=
    mt List.isEmpty_iff.1 hne
  rw [readStream?, if_neg hempty, if_neg (Bool.eq_false_iff.1 hstarts.document), hlength, hread]
  cases around with
  | none => rfl
  | some read =>
    cases hrest : read.2.all (· == .documentEnd) <;>
    · simp only [Option.map_some, Option.bind_eq_bind, Option.bind_some, Option.filter, hrest]
      rfl

/-- What is around a scalar at a spot is numbered alike for all scalars. -/
theorem Around.exists_number_part (around : Around (Yaml.Tree String) spot) (names : AnchorNames) :
    ∃ numbered : Option (Around (Yaml.Tree Nat) spot × AnchorNames), ∀ style s,
      (around.put (plainTrees String) (.scalar .none style s)).number names =
        numbered.map fun read =>
          (read.1.put (plainTrees Nat) (.scalar .none style s), read.2) := by
  induction around generalizing names with
  | key above under below => cases hkey
  | behind beside =>
    obtain ⟨γ, above, number, hnumber⟩ := beside.exists_number names
    refine ⟨above.bind fun front => (number front.1 front.2).map fun read => (.behind read.1, read.2),
      fun style s => ?_⟩
    rw [put, hnumber]
    simp only [Option.map_bind, Option.map_map, Function.comp_def]
    rfl
  | inside beside within ih =>
    obtain ⟨γ, above, number, hnumber⟩ := beside.exists_number names
    cases above with
    | none => exact ⟨none, fun style s => by rw [put, hnumber]; rfl⟩
    | some front =>
      obtain ⟨numbered, hwithin⟩ := ih hkey front.2
      refine ⟨numbered.bind fun within => (number front.1 within.2).map fun read =>
        (.inside read.1 within.1, read.2), fun style s => ?_⟩
      rw [put, hnumber, Option.bind_some, hwithin]
      simp only [Option.map_bind, Option.map_map, Option.bind_map, Function.comp_def]
      rfl

/-- The anchors and aliases of a document are the same for all scalars at a spot. -/
theorem Around.ofRoot_put (around : Around (Yaml.Tree Nat) spot) (style : Style) (s : String) :
    (Document.ofRoot (around.put (plainTrees Nat) (.scalar .none style s))).targets =
        (Document.ofRoot (around.fill (plainTrees Nat) "")).targets ∧
      (Document.ofRoot (around.put (plainTrees Nat) (.scalar .none style s))).allowance =
        (Document.ofRoot (around.fill (plainTrees Nat) "")).allowance := by
  have hnodes : ∀ {γ : Type} {f : Yaml.Tree Nat → List γ} {ofScalar ofSequence ofMapping : List γ},
      (∀ style s, f (.scalar .none style s) = ofScalar) →
      (∀ items, f (.sequence .none items) = ofSequence) →
      (∀ entries, f (.mapping .none entries) = ofMapping) →
        (around.put (plainTrees Nat) (.scalar .none style s)).nodes.flatMap f =
          (around.fill (plainTrees Nat) "").nodes.flatMap f := by
    intro γ f ofScalar ofSequence ofMapping hscalar hsequence hmapping
    induction around with
    | key above under below => cases hkey
    | behind beside =>
      refine beside.flatMap_nodes hsequence hmapping ?_
      simp only [plainTrees, Yaml.Tree.nodes, List.flatMap_cons, List.flatMap_nil, hscalar]
    | inside beside within ih => exact beside.flatMap_nodes hsequence hmapping (ih hkey)
  exact ofRoot_congr (hnodes (fun _ _ => rfl) (fun _ => rfl) fun _ => rfl)
    (hnodes (fun _ _ => (rfl : _ = [1])) (fun _ => (rfl : _ = [2])) fun _ => (rfl : _ = [2]))

/-- What is around a scalar at a spot has the same value for all scalars that have one. -/
theorem Around.exists_value_part {d : Document} {levels : Nat}
    (around : Around (Yaml.Tree Nat) spot) (hspot : spot.WellFormed) (left : Nat) :
    ∃ value : Option (Around Value spot × Nat), ∀ style s,
      (d.value levels (around.put (plainTrees Nat) (.scalar .none style s))).run left =
        value.bind fun read =>
          (Value.ofScalar? none style s).map fun v => (read.1.put values v, read.2) := by
  have hscalar : ∀ levels left style s, (d.value levels (.scalar .none style s)).run left =
      (Value.ofScalar? none style s).map fun v => (v, left) := fun levels left style s =>
    Document.value_scalar d levels left .none style s
  induction around generalizing levels left with
  | key above under below => cases hkey
  | behind beside =>
    obtain ⟨γ, levels', above, value, hvalue⟩ := @Beside.exists_value d levels _ beside hspot
    refine ⟨(above left).bind fun front => (value front.1 front.2).map fun read =>
      (.behind read.1, read.2), fun style s => ?_⟩
    rw [Around.put, hvalue]
    simp only [hscalar]
    cases Value.ofScalar? none style s with
    | none => simp
    | some v =>
      simp only [Option.bind_some, Option.bind_assoc, Option.map_eq_bind, Function.comp_def]
      rfl
  | inside beside within ih =>
    obtain ⟨γ, levels', above, value, hvalue⟩ := @Beside.exists_value d levels _ beside hspot.1
    cases habove : above left with
    | none => exact ⟨none, fun style s => by rw [Around.put, hvalue, habove]; rfl⟩
    | some front =>
      obtain ⟨inner, hinner⟩ := @ih hkey levels' hspot.2 front.2
      refine ⟨inner.bind fun read => (value front.1 read.2).map fun beside =>
        (.inside beside.1 read.1, beside.2), fun style s => ?_⟩
      rw [Around.put, hvalue, habove, Option.bind_some, hinner]
      cases Value.ofScalar? none style s with
      | none => simp
      | some v =>
        simp only [Option.bind_some, Option.bind_assoc, Option.map_eq_bind, Function.comp_def]
        rfl

/-- A stream with a scalar at a spot means the same for all scalars, with the value of the scalar
there. -/
theorem Spot.exists_value_part (hspot : spot.WellFormed) (us : List Token) :
    ∃ value : Option (Around Value spot), ∀ style s text,
      Yaml.tokens? text = some (spot.leadTokens ++ .scalar style s :: us) →
        Value.ofText? text = value.bind fun around =>
          (Value.ofScalar? none style s).map fun v => around.put values v := by
  obtain ⟨trees, hread⟩ := Spot.exists_readStream?_part hkey us
  have hdocument : ∀ {style s text},
      Yaml.tokens? text = some (spot.leadTokens ++ .scalar style s :: us) →
        Document.ofText? text = trees.bind fun around =>
          ((around.put (plainTrees String) (.scalar .none style s)).number []).map fun root =>
            Document.ofRoot root.1 := by
    intro style s text htext
    rw [Document.ofText?, htext, Option.bind_eq_bind, Option.bind_some, hread]
    cases trees with
    | none => rfl
    | some around => exact (Option.map_eq_bind ..).symm
  cases trees with
  | none =>
    refine ⟨none, fun style s text htext => ?_⟩
    rw [Value.ofText?, hdocument htext]
    rfl
  | some around =>
    obtain ⟨numbered, hnumber⟩ := Around.exists_number_part hkey around []
    cases numbered with
    | none =>
      refine ⟨none, fun style s text htext => ?_⟩
      rw [Value.ofText?, hdocument htext, Option.bind_some, hnumber]
      rfl
    | some numbered =>
      -- The anchors and the number of aliases that may be followed are those with the empty text.
      obtain ⟨value, hvalue⟩ := @Around.exists_value_part spot hkey
        (.ofRoot (numbered.1.fill (plainTrees Nat) "")) Document.maxDepth numbered.1 hspot
        (Document.ofRoot (numbered.1.fill (plainTrees Nat) "")).allowance
      refine ⟨value.map (·.1), fun style s text htext => ?_⟩
      obtain ⟨htargets, hallowance⟩ := Around.ofRoot_put hkey numbered.1 style s
      have hroot : (Document.ofRoot (numbered.1.put (plainTrees Nat) (.scalar .none style s))).root =
          numbered.1.put (plainTrees Nat) (.scalar .none style s) := rfl
      rw [Value.ofText?, hdocument htext, Option.bind_some, hnumber, Option.map_some, Option.map_some,
        Option.bind_eq_bind, Option.bind_some, Document.value_congr htargets, hallowance, hroot,
        hvalue, Option.bind_map]
      cases value with
      | none => rfl
      | some read => cases Value.ofScalar? none style s <;> rfl

/-- Whatever is read as one scalar at a spot, the document has the value of that scalar there, and
around it the same for all of them. -/
theorem Spot.exists_ofText?_part (hspot : spot.WellFormed) (rest : List Char) :
    ∃ value : Option (Around Value spot), ∀ (body : List Char) (style : Style) (s : String),
      spot.ReadsPart body rest style s →
        Value.ofText? (spot.lead 0 0 ++ ' ' :: (body ++ rest)) = value.bind fun around =>
          (Value.ofScalar? none style s).map fun v => around.put values v := by
  obtain ⟨us, htokens⟩ := Spot.exists_tokens?_part hkey hspot rest
  cases us with
  | none =>
    refine ⟨none, fun body style s hpart => ?_⟩
    rw [Value.ofText?, Document.ofText?, htokens body style s hpart]
    rfl
  | some us =>
    obtain ⟨value, hvalue⟩ := Spot.exists_value_part hkey hspot us
    exact ⟨value, fun body style s hpart => hvalue style s _ (htokens body style s hpart)⟩

/-- If a document can be read with some text on one line at a spot, then with any other scalar there
it has the value of that scalar in place of the text. -/
theorem Spot.part_read (hspot : spot.WellFormed) {rest : List Char}
    (hrest : spot.endsBefore 0 rest = true) {p : String} (hp : Text.OrdinaryChars p.toList)
    (h : (Value.ofText? (spot.text p 0 0 ++ rest)).isSome = true) :
    ∃ around : Around Value spot,
      Value.ofText? (spot.text p 0 0 ++ rest) = some (around.fill values p) ∧
      ∀ (body : List Char) (style : Style) (s : String), spot.ReadsPart body rest style s →
        Value.ofText? (spot.lead 0 0 ++ ' ' :: (body ++ rest)) =
          (Value.ofScalar? none style s).map fun v => around.put values v := by
  obtain ⟨value, hvalue⟩ := Spot.exists_ofText?_part hkey hspot rest
  have htext : Value.ofText? (spot.text p 0 0 ++ rest) =
      value.map fun around => around.fill values p := by
    have hinline := hvalue _ _ _ (readsPart_written (inline_of_ordinary hp) hp (permitted_inline hp)
      ((endsBefore_eq hkey 0 rest).symm.trans hrest))
    rw [text_eq_lead hkey, List.append_assoc, List.cons_append]
    rw [hinline, ofScalar?_inlineStyle hp, Option.map_eq_bind]
    exact Option.bind_congr fun around _ => congrArg some (around.put_text values p)
  rw [htext, Option.isSome_map] at h
  obtain ⟨around, rfl⟩ := Option.isSome_iff_exists.1 h
  exact ⟨around, htext, hvalue⟩

end

end Outline
end CiPipelines
