import CiPipelines.Proofs.PrintedOutlines

/-!
# Trees of printed outlines

The tokens of an outline are read as its syntax tree, which has neither tags nor anchors.  A node
takes its own tokens and leaves those behind it alone; a block without entries has no tokens, and
then stands for an empty node.
-/

namespace CiPipelines

open Yaml

namespace Outline

/-- A collection of parts; an empty node if there are none. -/
def blockTree {α β : Type} (collection : List β → Yaml.Tree α) : List β → Yaml.Tree α
  | [] => .empty
  | part :: rest => collection (part :: rest)

/-- The tree of an empty collection. -/
def Brackets.tree {α : Type} : Brackets → Yaml.Tree α
  | square => .sequence .none []
  | curly => .mapping .none []

mutual

/-- The syntax tree of an outline. -/
def tree {α : Type} : Outline → Yaml.Tree α
  | .nothing => .empty
  | .word w =>
    match Brackets.ofWord? w with
    | some b => b.tree
    | none => .scalar .none .plain w
  | .text s => .scalar .none (inlineStyle s) s
  | .value s => .scalar .none (valueStyle s) s
  | .list items => blockTree (.sequence .none) (itemTrees items)
  | .fields lines => blockTree (.mapping .none) (lineTrees lines)

/-- The syntax trees of the items of a list. -/
def itemTrees {α : Type} : List Outline → List (Yaml.Tree α)
  | [] => []
  | item :: rest => item.tree :: itemTrees rest

/-- The syntax trees of the fields of a mapping. -/
def lineTrees {α : Type} : List (Line Outline) → List (Yaml.Tree α × Yaml.Tree α)
  | [] => []
  | .field key body :: rest => (.scalar .none (inlineStyle key) key, body.tree) :: lineTrees rest
  | .comment _ :: rest => lineTrees rest
  | .empty :: rest => lineTrees rest

end

theorem lineTokens_eq_nil {α : Type} {lines : List (Line Outline)} :
    lineTokens lines = [] ↔ (lineTrees lines : List (Yaml.Tree α × Yaml.Tree α)) = [] := by
  induction lines with
  | nil => simp [lineTokens, lineTrees]
  | cons line lines ih => cases line <;> simp [lineTokens, lineTrees, ih]

/-- An outline without tokens stands for an empty node. -/
theorem tree_eq_empty {α : Type} {o : Outline} (h : o.tokens = []) : (o.tree : Yaml.Tree α) = .empty := by
  cases o with
  | nothing => rfl
  | word w =>
    simp only [tokens, wordTokens] at h
    split at h <;> simp at h
  | text s => simp [tokens] at h
  | value s => simp [tokens] at h
  | list items =>
    cases items with
    | nil => rfl
    | cons item items => simp [tokens, itemTokens, inBlock] at h
  | fields lines =>
    have hlines : lineTokens lines = [] := by
      cases hlines : lineTokens lines with
      | nil => rfl
      | cons t ts => simp [tokens, hlines, inBlock] at h
    rw [tree, lineTokens_eq_nil.1 hlines]
    rfl

/-! ## Reading nodes -/

section

variable (handles : Handles) (openItems : Bool) (fuel : Nat) (rest : List Token)

theorem readNode_scalar (style : Style) (s : String) :
    readNode handles true openItems (fuel + 1) (.scalar style s :: rest) =
      some (.scalar .none style s, rest) := by
  rw [readNode.eq_def]
  rfl

theorem readNode_brackets (b : Brackets) :
    readNode handles true openItems (fuel + 2) (b.start :: b.stop :: rest) =
      some (b.tree, rest) := by
  rw [readNode.eq_def]
  cases b <;>
    simp only [readProperties?, readFlowItems, readFlowEntries, Option.bind_eq_bind,
      Option.bind_some, Option.pure_def, Brackets.start, Brackets.stop, Brackets.tree]

theorem readNode_blockSequence : readNode handles true openItems (fuel + 1)
    (.blockSequence :: rest) = (readBlockItems handles fuel rest).map fun read =>
      (.sequence .none read.1, read.2) := by
  rw [readNode.eq_def]
  cases hread : readBlockItems handles fuel rest <;>
    simp [readProperties?, hread]

theorem readNode_blockMapping : readNode handles true openItems (fuel + 1)
    (.blockMapping :: rest) = (readBlockEntries handles fuel rest).map fun read =>
      (.mapping .none read.1, read.2) := by
  rw [readNode.eq_def]
  cases hread : readBlockEntries handles fuel rest <;>
    simp [readProperties?, hread]

/-- An entry of a block mapping whose key is a scalar. -/
theorem readBlockEntries_key (style : Style) (key : String) :
    readBlockEntries handles (fuel + 2) (.key :: .scalar style key :: .value :: rest) =
      (if endsBlockEntry rest then some (.empty, rest) else readNode handles true true (fuel + 1) rest).bind
        fun part => (readBlockEntries handles (fuel + 1) part.2).map fun entries =>
          ((.scalar .none style key, part.1) :: entries.1, entries.2) := by
  have hkey := readNode_scalar handles true fuel (.value :: rest) style key
  have hscalar : ¬endsBlockEntry (.scalar style key :: .value :: rest) = true := Bool.false_ne_true
  rw [readBlockEntries]
  dsimp only
  rw [if_neg hscalar, hkey, Option.bind_eq_bind, Option.bind_some]
  dsimp only
  split
  · exact (Option.map_eq_bind ..).symm
  · cases readNode handles true true (fuel + 1) rest with
    | none => rfl
    | some part => exact (Option.map_eq_bind ..).symm

/-- An item of a block sequence. -/
theorem readBlockItems_dash :
    readBlockItems handles (fuel + 1) (.dash :: rest) =
      (if endsBlockItem rest then some (.empty, rest) else readNode handles true false fuel rest).bind
        fun part => (readBlockItems handles fuel part.2).map fun items =>
          (part.1 :: items.1, items.2) := by
  rw [readBlockItems]
  dsimp only
  split
  · exact (Option.map_eq_bind ..).symm
  · cases readNode handles true false fuel rest with
    | none => rfl
    | some part => exact (Option.map_eq_bind ..).symm

/-- An item of a sequence without a block of its own. -/
theorem readOpenItems_dash :
    readOpenItems handles (fuel + 1) (.dash :: rest) =
      (if endsOpenItem rest then some (.empty, rest) else readNode handles true false fuel rest).bind
        fun part => (readOpenItems handles fuel part.2).map fun items =>
          (part.1 :: items.1, items.2) := by
  rw [readOpenItems]
  dsimp only
  split
  · exact (Option.map_eq_bind ..).symm
  · cases readNode handles true false fuel rest with
    | none => rfl
    | some part => exact (Option.map_eq_bind ..).symm

theorem readNode_dash : readNode handles true true (fuel + 1) (.dash :: rest) =
    (readOpenItems handles fuel (.dash :: rest)).map fun read => (.sequence .none read.1, read.2) := by
  rw [readNode.eq_def]
  cases hread : readOpenItems handles fuel (.dash :: rest) <;>
    simp [readProperties?, hread, Properties.none]

end

/-- Tokens that start a node. -/
structure StartsNode (ts : List Token) : Prop where
  item : endsBlockItem ts = false
  entry : endsBlockEntry ts = false
  openItem : endsOpenItem ts = false
  document : startsDocument ts = false

/-- What may stand in front of a node, or in its place, is no token of the node. -/
theorem startsNode_tokens {o : Outline} (h : o.tokens ≠ []) (rest : List Token) :
    StartsNode (o.tokens ++ rest) := by
  have hblock : ∀ {start : Token} {ts : List Token}, inBlock start ts ≠ [] →
      ∃ ts', inBlock start ts ++ rest = start :: ts' := by
    intro start ts h
    cases ts with
    | nil => exact absurd rfl h
    | cons t ts => exact ⟨_, rfl⟩
  cases o with
  | nothing => exact absurd rfl h
  | word w =>
    rw [tokens, wordTokens]
    cases Brackets.ofWord? w with
    | some b => cases b <;> exact ⟨rfl, rfl, rfl, rfl⟩
    | none => exact ⟨rfl, rfl, rfl, rfl⟩
  | text s => exact ⟨rfl, rfl, rfl, rfl⟩
  | value s => exact ⟨rfl, rfl, rfl, rfl⟩
  | list items =>
    obtain ⟨ts, hts⟩ := hblock h
    rw [tokens, hts]
    exact ⟨rfl, rfl, rfl, rfl⟩
  | fields lines =>
    obtain ⟨ts, hts⟩ := hblock h
    rw [tokens, hts]
    exact ⟨rfl, rfl, rfl, rfl⟩

/-- Tokens that end a part stand behind it, be it empty or not. -/
theorem readPart_tokens {ends : List Token → Bool}
    {read : List Token → Option (Yaml.Tree String × List Token)} {o : Outline} {rest : List Token}
    (hrest : ends rest = true)
    (hstart : o.tokens ≠ [] → ends (o.tokens ++ rest) = false)
    (hread : o.tokens ≠ [] → read (o.tokens ++ rest) = some (o.tree, rest)) :
    (if ends (o.tokens ++ rest) then some (.empty, o.tokens ++ rest) else read (o.tokens ++ rest)) =
      some (o.tree, rest) := by
  by_cases hnil : o.tokens = []
  · rw [hnil, List.nil_append, if_pos hrest, tree_eq_empty hnil]
  · rw [if_neg (Bool.eq_false_iff.1 (hstart hnil)), hread hnil]

/-- Where the items of a list may end, one of them may end, too. -/
theorem endsBlockItem_itemTokens (items : List Outline) {rest : List Token}
    (h : endsBlockItem rest = true) : endsBlockItem (itemTokens items ++ rest) = true := by
  cases items with
  | nil => exact h
  | cons item items => rfl

theorem endsOpenItem_itemTokens (items : List Outline) {rest : List Token}
    (h : endsOpenItem rest = true) : endsOpenItem (itemTokens items ++ rest) = true := by
  cases items with
  | nil => exact h
  | cons item items => rfl

/-- Where the fields of a mapping may end, one of them may end, too. -/
theorem endsBlockEntry_lineTokens (lines : List (Line Outline)) {rest : List Token}
    (h : endsBlockEntry rest = true) : endsBlockEntry (lineTokens lines ++ rest) = true := by
  induction lines with
  | nil => exact h
  | cons line lines ih =>
    cases line with
    | field key body => rfl
    | comment note => exact ih
    | empty => exact ih

mutual

/-- A node is read from the tokens of its outline. -/
theorem readNode_tokens (handles : Handles) (openItems : Bool) (o : Outline) {fuel : Nat}
    (rest : List Token) (hne : o.tokens ≠ []) (hfuel : o.tokens.length ≤ fuel) :
    readNode handles true openItems fuel (o.tokens ++ rest) = some (o.tree, rest) := by
  obtain ⟨fuel, rfl⟩ : ∃ n, fuel = n + 1 := by
    have hpos := List.length_pos_iff.2 hne
    exact ⟨fuel - 1, by omega⟩
  -- By the constructors, in step with the readers of items and of fields below.
  match o with
  | .nothing => exact absurd rfl hne
  | .word w =>
    rw [tokens, wordTokens] at hfuel ⊢
    rw [tree]
    cases hbrackets : Brackets.ofWord? w with
    | some b =>
      rw [hbrackets] at hfuel
      obtain ⟨fuel, rfl⟩ : ∃ n, fuel = n + 1 := ⟨fuel - 1, by simp at hfuel; omega⟩
      exact readNode_brackets handles openItems fuel rest b
    | none => exact readNode_scalar handles openItems fuel rest _ _
  | .text s => exact readNode_scalar handles openItems fuel rest _ _
  | .value s => exact readNode_scalar handles openItems fuel rest _ _
  | .list [] => exact absurd rfl hne
  | .list (item :: items) =>
    have hlength : (itemTokens (item :: items)).length < fuel := by
      simp [tokens, itemTokens, inBlock] at hfuel ⊢
      omega
    obtain ⟨left, hleft, hitems⟩ := exists_readBlockItems_tokens handles (item :: items) hlength
    have htokens : (Outline.list (item :: items)).tokens ++ rest =
        .blockSequence :: (itemTokens (item :: items) ++ .blockEnd :: rest) := by
      simp [tokens, itemTokens, inBlock]
    rw [htokens, readNode_blockSequence, hitems (.blockEnd :: rest) rfl]
    obtain ⟨left, rfl⟩ : ∃ n, left = n + 1 := ⟨left - 1, by omega⟩
    rw [readBlockItems]
    simp only [Option.map_some, List.append_nil]
    rfl
  | .fields lines =>
    obtain ⟨t, ts, hlines⟩ : ∃ t ts, lineTokens lines = t :: ts := by
      refine List.exists_cons_of_ne_nil fun hnil => hne ?_
      rw [tokens, hnil]
      rfl
    have hlength : (lineTokens lines).length < fuel := by
      simp [tokens, hlines, inBlock] at hfuel ⊢
      omega
    obtain ⟨left, hleft, hentries⟩ := exists_readBlockEntries_tokens handles lines hlength
    have htokens : (Outline.fields lines).tokens ++ rest =
        .blockMapping :: (lineTokens lines ++ .blockEnd :: rest) := by
      simp [tokens, hlines, inBlock]
    have htree : (blockTree (.mapping .none) (lineTrees lines) : Yaml.Tree String) =
        .mapping .none (lineTrees lines) := by
      cases htrees : (lineTrees lines : List (Yaml.Tree String × Yaml.Tree String)) with
      | nil => simp [lineTokens_eq_nil.2 htrees] at hlines
      | cons entry entries => rfl
    obtain ⟨left, rfl⟩ : ∃ n, left = n + 1 := ⟨left - 1, by omega⟩
    rw [htokens, readNode_blockMapping, hentries (.blockEnd :: rest) rfl, readBlockEntries, tree, htree]
    simp only [Option.map_some, List.append_nil]

/-- The items of a list are read one after the other, and then what follows them. -/
theorem exists_readBlockItems_tokens (handles : Handles) (items : List Outline) {fuel : Nat}
    (hfuel : (itemTokens items).length < fuel) :
    ∃ left, fuel ≤ left + (itemTokens items).length ∧ ∀ rest, endsBlockItem rest = true →
      readBlockItems handles fuel (itemTokens items ++ rest) =
        (readBlockItems handles left rest).map fun read => (itemTrees items ++ read.1, read.2) := by
  match items with
  | [] => exact ⟨fuel, Nat.le_refl _, by simp [itemTokens, itemTrees]⟩
  | item :: items =>
    obtain ⟨fuel, rfl⟩ : ∃ n, fuel = n + 1 := ⟨fuel - 1, by omega⟩
    have hlength : item.tokens.length + (itemTokens items).length < fuel := by
      simp [itemTokens] at hfuel
      omega
    obtain ⟨left, hleft, hitems⟩ := exists_readBlockItems_tokens handles items
      (show (itemTokens items).length < fuel by omega)
    refine ⟨left, by simp [itemTokens]; omega, fun rest hrest => ?_⟩
    have hitem := readPart_tokens (endsBlockItem_itemTokens items hrest)
      (fun hne : item.tokens ≠ [] => (startsNode_tokens hne _).item)
      fun hne => readNode_tokens handles false item _ hne (show item.tokens.length ≤ fuel by omega)
    rw [itemTokens, itemTrees, List.cons_append, List.append_assoc, readBlockItems_dash, hitem,
      Option.bind_some, hitems rest hrest, Option.map_map]
    rfl

/-- The fields of a mapping are read one after the other, and then what follows them. -/
theorem exists_readBlockEntries_tokens (handles : Handles) (lines : List (Line Outline)) {fuel : Nat}
    (hfuel : (lineTokens lines).length < fuel) :
    ∃ left, fuel ≤ left + (lineTokens lines).length ∧ ∀ rest, endsBlockEntry rest = true →
      readBlockEntries handles fuel (lineTokens lines ++ rest) =
        (readBlockEntries handles left rest).map fun read => (lineTrees lines ++ read.1, read.2) := by
  match lines with
  | [] => exact ⟨fuel, Nat.le_refl _, by simp [lineTokens, lineTrees]⟩
  | .comment _ :: lines => exact exists_readBlockEntries_tokens handles lines hfuel
  | .empty :: lines => exact exists_readBlockEntries_tokens handles lines hfuel
  | .field key body :: lines =>
    obtain ⟨fuel, rfl⟩ : ∃ n, fuel = n + 2 := ⟨fuel - 2, by simp [lineTokens] at hfuel; omega⟩
    have hlength : body.tokens.length + (lineTokens lines).length < fuel + 1 := by
      simp [lineTokens] at hfuel
      omega
    obtain ⟨left, hleft, hlines⟩ := exists_readBlockEntries_tokens handles lines
      (show (lineTokens lines).length < fuel + 1 by omega)
    refine ⟨left, by simp [lineTokens]; omega, fun rest hrest => ?_⟩
    have hbody := readPart_tokens (endsBlockEntry_lineTokens lines hrest)
      (fun hne : body.tokens ≠ [] => (startsNode_tokens hne _).entry)
      fun hne => readNode_tokens handles true body _ hne
        (show body.tokens.length ≤ fuel + 1 by omega)
    rw [lineTokens, lineTrees]
    simp only [List.cons_append, List.append_assoc]
    rw [readBlockEntries_key, hbody, Option.bind_some, hlines rest hrest, Option.map_map]
    rfl

end

/-- The same for items that stand in no block of their own. -/
theorem exists_readOpenItems_tokens (handles : Handles) (items : List Outline) {fuel : Nat}
    (hfuel : (itemTokens items).length < fuel) :
    ∃ left, fuel ≤ left + (itemTokens items).length ∧ ∀ rest, endsOpenItem rest = true →
      readOpenItems handles fuel (itemTokens items ++ rest) =
        (readOpenItems handles left rest).map fun read => (itemTrees items ++ read.1, read.2) := by
  induction items generalizing fuel with
  | nil => exact ⟨fuel, Nat.le_refl _, by simp [itemTokens, itemTrees]⟩
  | cons item items ih =>
    obtain ⟨fuel, rfl⟩ : ∃ n, fuel = n + 1 := ⟨fuel - 1, by omega⟩
    have hlength : item.tokens.length + (itemTokens items).length < fuel := by
      simp [itemTokens] at hfuel
      omega
    obtain ⟨left, hleft, hitems⟩ := ih (show (itemTokens items).length < fuel by omega)
    refine ⟨left, by simp [itemTokens]; omega, fun rest hrest => ?_⟩
    have hitem := readPart_tokens (endsOpenItem_itemTokens items hrest)
      (fun hne : item.tokens ≠ [] => (startsNode_tokens hne _).openItem)
      fun hne => readNode_tokens handles false item _ hne (show item.tokens.length ≤ fuel by omega)
    rw [itemTokens, itemTrees, List.cons_append, List.append_assoc, readOpenItems_dash, hitem,
      Option.bind_some, hitems rest hrest, Option.map_map]
    rfl

/-- The tokens of an outline are a stream with its tree, if there are any. -/
theorem readStream?_tokens (o : Outline) :
    readStream? o.tokens = some (if o.tokens = [] then none else some o.tree) := by
  by_cases hnil : o.tokens = []
  · rw [hnil]
    rfl
  · have hempty : ¬o.tokens.isEmpty = true := by simpa using hnil
    have hstart : ¬startsDocument o.tokens = true := by
      have hstart := (startsNode_tokens hnil []).document
      rw [List.append_nil] at hstart
      exact Bool.eq_false_iff.1 hstart
    have hread := readNode_tokens defaultHandles false o [] hnil
      (show o.tokens.length ≤ 3 * o.tokens.length + 3 by omega)
    rw [List.append_nil] at hread
    rw [readStream?, if_neg hempty, if_neg hstart, hread, if_neg hnil]
    rfl

/-! ## Numbering -/

mutual

/-- Without anchors there is nothing to number. -/
theorem number_tree (names : AnchorNames) (o : Outline) :
    (o.tree : Yaml.Tree String).number names = some (o.tree, names) := by
  match o with
  | .nothing => rfl
  | .word w =>
    rw [tree, tree]
    cases Brackets.ofWord? w with
    | some b => cases b <;> rfl
    | none => rfl
  | .text s => rfl
  | .value s => rfl
  | .list [] => rfl
  | .list (item :: items) =>
    have hitems := numberItems_itemTrees names (item :: items)
    rw [itemTrees, itemTrees] at hitems
    simp only [tree, itemTrees, blockTree, Yaml.Tree.number, Properties.number, Properties.none, hitems,
      Option.bind_eq_bind, Option.bind_some, Option.pure_def]
  | .fields lines =>
    have hlines := numberEntries_lineTrees names lines
    rw [tree, tree]
    cases hstring : (lineTrees lines : List (Yaml.Tree String × Yaml.Tree String)) with
    | nil =>
      rw [lineTokens_eq_nil.1 (lineTokens_eq_nil.2 hstring)]
      rfl
    | cons entry entries =>
      rw [hstring] at hlines
      cases hnumber : (lineTrees lines : List (Yaml.Tree Nat × Yaml.Tree Nat)) with
      | nil => simp [lineTokens_eq_nil.1 (lineTokens_eq_nil.2 hnumber)] at hstring
      | cons entry entries =>
        rw [hnumber] at hlines
        simp only [blockTree, Yaml.Tree.number, Properties.number, Properties.none, hlines,
          Option.bind_eq_bind, Option.bind_some, Option.pure_def]

theorem numberItems_itemTrees (names : AnchorNames) (items : List Outline) :
    Yaml.Tree.numberItems names (itemTrees items) = some (itemTrees items, names) := by
  match items with
  | [] => rfl
  | item :: items =>
    rw [itemTrees, itemTrees, Yaml.Tree.numberItems, number_tree names item]
    simp only [numberItems_itemTrees names items, Option.bind_eq_bind, Option.bind_some,
      Option.pure_def]

theorem numberEntries_lineTrees (names : AnchorNames) (lines : List (Line Outline)) :
    Yaml.Tree.numberEntries names (lineTrees lines) = some (lineTrees lines, names) := by
  match lines with
  | [] => rfl
  | .comment _ :: lines => exact numberEntries_lineTrees names lines
  | .empty :: lines => exact numberEntries_lineTrees names lines
  | .field key body :: lines =>
    simp only [lineTrees, Yaml.Tree.numberEntries, Yaml.Tree.number, Properties.number, Properties.none,
      number_tree names body, numberEntries_lineTrees names lines, Option.bind_eq_bind,
      Option.bind_some, Option.pure_def]

end

/-- A printed document is read as its tree, provided its keys are short enough. -/
theorem ofText?_print {levels : Nat} {lines : List (Line Outline)}
    (h : Sound levels (.fields lines)) :
    Document.ofText? (print lines).toList =
      if linesFit lines then some (Document.ofRoot (Outline.fields lines).tree) else none := by
  have hread := readStream?_tokens (.fields lines)
  rw [tokens] at hread
  rw [Document.ofText?, tokens?_print h]
  split
  · rw [Option.bind_eq_bind, Option.bind_some, hread]
    split
    · rename_i hnil
      have hnil : (Outline.fields lines).tokens = [] := hnil
      rw [tree_eq_empty hnil]
      rfl
    · rw [Option.bind_eq_bind, Option.bind_some]
      dsimp only
      rw [number_tree]
      rfl
  · rfl

end Outline
end CiPipelines
