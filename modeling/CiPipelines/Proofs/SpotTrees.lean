import CiPipelines.Proofs.OutlineTrees
import CiPipelines.Proofs.Spots

/-!
# Trees around a spot

The tokens of a text at a spot, with whatever follows, are read as a tree that holds the text there.
What is read around the spot is the same for all texts.  Since nothing at the spot and on the way to
it has an anchor, this goes for the anchors and aliases of the document, too.
-/

namespace CiPipelines

open Yaml

namespace Outline

/-! ## What is around a spot -/

/-- How texts and collections are made. -/
structure Maker (β : Type) where
  text : String → β
  sequence : List β → β
  mapping : List (β × β) → β

/-- What stands above and below the part of an opening in its block. -/
inductive Beside (β : Type) : Opening → Type where
  | colon {gap : Nat} {lines : List (Line Outline)} {key : String} (above below : List (β × β)) :
      Beside β (.colon gap lines key)
  | dash {gap : Nat} {items : List Outline} (above below : List β) : Beside β (.dash gap items)
  | dashBelow {gap : Nat} {lines : List (Line Outline)} {key : String} {items : List Outline}
      (above : List (β × β)) (itemsAbove itemsBelow : List β) (below : List (β × β)) :
      Beside β (.dashBelow gap lines key items)

/-- What stands around a spot in all the blocks, and the value of a key there. -/
inductive Around (β : Type) : Spot → Type where
  | key {gap : Nat} {lines : List (Line Outline)} (above : List (β × β)) (under : β)
      (below : List (β × β)) : Around β (.key gap lines)
  | behind {opening : Opening} (beside : Beside β opening) : Around β (.behind opening)
  | inside {opening : Opening} {inner : Spot} (beside : Beside β opening) (within : Around β inner) :
      Around β (.inside opening inner)

section

variable {β : Type} (make : Maker β)

/-- A block with a part in it. -/
def Beside.fill (part : β) : {opening : Opening} → Beside β opening → β
  | .colon _ _ key, .colon above below => make.mapping (above ++ (make.text key, part) :: below)
  | .dash _ _, .dash above below => make.sequence (above ++ part :: below)
  | .dashBelow _ _ key _, .dashBelow above itemsAbove itemsBelow below =>
    make.mapping (above ++ (make.text key, make.sequence (itemsAbove ++ part :: itemsBelow)) :: below)

/-- A text at a spot, with all that is around it. -/
def Around.fill (s : String) : {spot : Spot} → Around β spot → β
  | _, .key above under below => make.mapping (above ++ (make.text s, under) :: below)
  | _, .behind beside => beside.fill make (make.text s)
  | _, .inside beside within => beside.fill make (within.fill s)

end

/-- Trees without tags and anchors. -/
def plainTrees (α : Type) : Maker (Yaml.Tree α) :=
  ⟨fun s => .scalar .none (inlineStyle s) s, .sequence .none, .mapping .none⟩

/-! ## Reading nodes -/

theorem Spot.startsNode (spot : Spot) (s : String) (us : List Token) :
    StartsNode (spot.tokens s ++ us) ∧ spot.tokens s ++ us ≠ [] := by
  have hopening : ∀ (o : Opening) (ts : List Token),
      StartsNode (o.tokens ++ ts ++ us) ∧ o.tokens ++ ts ++ us ≠ [] := fun o ts => by
    cases o <;> exact ⟨⟨rfl, rfl, rfl, rfl⟩, List.cons_ne_nil _ _⟩
  cases spot with
  | key gap above => exact ⟨⟨rfl, rfl, rfl, rfl⟩, List.cons_ne_nil _ _⟩
  | behind opening => exact hopening opening _
  | inside opening inner => exact hopening opening _

/-- There are as many tokens for each text. -/
theorem Spot.length_tokens (spot : Spot) (s : String) :
    (spot.tokens s).length = (spot.tokens "").length := by
  induction spot with
  | key gap above => simp [Spot.tokens, keyTokens]
  | behind opening => simp [Spot.tokens]
  | inside opening inner ih => simp [Spot.tokens, ih]

section

variable (handles : Handles) {fuel : Nat}

/-- A mapping is read with its fields up to a key, the part behind that key, and what follows. -/
theorem exists_readNode_key (openItems : Bool) {above : List (Line Outline)}
    (hfuel : (lineTokens above).length + 4 ≤ fuel) :
    ∃ left, fuel ≤ left + ((lineTokens above).length + 2) ∧ ∀ key ts,
      readNode handles true openItems fuel (.blockMapping :: (keyTokens above key ++ ts)) =
        (if endsBlockEntry ts then some (.empty, ts) else readNode handles true true left ts).bind
          fun part => (readBlockEntries handles left part.2).map fun below =>
            (.mapping .none (lineTrees above ++
              (.scalar .none (inlineStyle key) key, part.1) :: below.1), below.2) := by
  obtain ⟨fuel, rfl⟩ : ∃ n, fuel = n + 1 := ⟨fuel - 1, by omega⟩
  obtain ⟨left, hleft, habove⟩ := exists_readBlockEntries_tokens handles above
    (show (lineTokens above).length < fuel by omega)
  obtain ⟨left, rfl⟩ : ∃ n, left = n + 2 := ⟨left - 2, by omega⟩
  refine ⟨left + 1, by omega, fun key ts => ?_⟩
  rw [keyTokens, List.append_assoc, readNode_blockMapping, habove _ rfl]
  simp only [List.cons_append, List.nil_append]
  rw [readBlockEntries_key]
  simp only [Option.map_bind, Option.map_map, Function.comp_def]

/-- A sequence is read with its items up to a dash, the part behind that dash, and what follows. -/
theorem exists_readNode_item (openItems : Bool) {above : List Outline}
    (hfuel : (itemTokens above).length + 2 ≤ fuel) :
    ∃ left, fuel ≤ left + ((itemTokens above).length + 2) ∧ ∀ ts, StartsNode ts →
      readNode handles true openItems fuel (.blockSequence :: (itemTokens above ++ .dash :: ts)) =
        (readNode handles true false left ts).bind fun part =>
          (readBlockItems handles left part.2).map fun below =>
            (.sequence .none (itemTrees above ++ part.1 :: below.1), below.2) := by
  obtain ⟨fuel, rfl⟩ : ∃ n, fuel = n + 1 := ⟨fuel - 1, by omega⟩
  obtain ⟨left, hleft, habove⟩ := exists_readBlockItems_tokens handles above
    (show (itemTokens above).length < fuel by omega)
  obtain ⟨left, rfl⟩ : ∃ n, left = n + 1 := ⟨left - 1, by omega⟩
  refine ⟨left, by omega, fun ts hts => ?_⟩
  rw [readNode_blockSequence, habove _ rfl, readBlockItems_dash,
    if_neg (Bool.eq_false_iff.1 hts.item)]
  simp only [Option.map_bind, Option.map_map, Function.comp_def]

/-- The same for a sequence without a block of its own. -/
theorem exists_readNode_openItem {above : List Outline}
    (hfuel : (itemTokens above).length + 2 ≤ fuel) :
    ∃ left, fuel ≤ left + ((itemTokens above).length + 2) ∧ ∀ ts, StartsNode ts →
      readNode handles true true fuel (itemTokens above ++ .dash :: ts) =
        (readNode handles true false left ts).bind fun part =>
          (readOpenItems handles left part.2).map fun below =>
            (.sequence .none (itemTrees above ++ part.1 :: below.1), below.2) := by
  obtain ⟨fuel, rfl⟩ : ∃ n, fuel = n + 1 := ⟨fuel - 1, by omega⟩
  obtain ⟨left, hleft, habove⟩ := exists_readOpenItems_tokens handles above
    (show (itemTokens above).length < fuel by omega)
  obtain ⟨left, rfl⟩ : ∃ n, left = n + 1 := ⟨left - 1, by omega⟩
  refine ⟨left, by omega, fun ts hts => ?_⟩
  have hdash : readNode handles true true (fuel + 1) (itemTokens above ++ .dash :: ts) =
      (readOpenItems handles fuel (itemTokens above ++ .dash :: ts)).map fun read =>
        (.sequence .none read.1, read.2) := by
    cases above <;> exact readNode_dash ..
  rw [hdash, habove _ rfl, readOpenItems_dash, if_neg (Bool.eq_false_iff.1 hts.openItem)]
  simp only [Option.map_bind, Option.map_map, Function.comp_def]

/-- An opening reads its part, by some reader, and then what follows that. -/
theorem Opening.exists_readNode (o : Opening) (openItems : Bool) (hfuel : o.tokens.length ≤ fuel) :
    ∃ (openItems' : Bool) (left : Nat)
      (beside : List Token → Option (Beside (Yaml.Tree String) o × List Token)),
      fuel ≤ left + o.tokens.length ∧ ∀ ts, StartsNode ts →
        readNode handles true openItems fuel (o.tokens ++ ts) =
          (readNode handles true openItems' left ts).bind fun part =>
            (beside part.2).map fun read => (read.1.fill (plainTrees String) part.1, read.2) := by
  cases o with
  | colon gap above key =>
    have hlength : (Opening.colon gap above key).tokens.length = (lineTokens above).length + 4 := by
      simp [Opening.tokens, keyTokens]
    rw [hlength] at hfuel ⊢
    obtain ⟨left, hleft, hread⟩ := exists_readNode_key handles openItems hfuel
    refine ⟨true, left, fun ts => (readBlockEntries handles left ts).map fun below =>
      (.colon (lineTrees above) below.1, below.2), by omega, fun ts hts => ?_⟩
    rw [Opening.tokens, List.cons_append, hread, if_neg (Bool.eq_false_iff.1 hts.entry)]
    simp only [Option.map_map, Function.comp_def]
    rfl
  | dash gap above =>
    have hlength : (Opening.dash gap above).tokens.length = (itemTokens above).length + 2 := by
      simp [Opening.tokens]
    rw [hlength] at hfuel ⊢
    obtain ⟨left, hleft, hread⟩ := exists_readNode_item handles openItems hfuel
    refine ⟨false, left, fun ts => (readBlockItems handles left ts).map fun below =>
      (.dash (itemTrees above) below.1, below.2), hleft, fun ts hts => ?_⟩
    rw [Opening.tokens, List.cons_append, List.append_assoc, List.singleton_append, hread ts hts]
    simp only [Option.map_map, Function.comp_def]
    rfl
  | dashBelow gap above key items =>
    have hlength : (Opening.dashBelow gap above key items).tokens.length =
        (lineTokens above).length + 4 + ((itemTokens items).length + 1) := by
      simp [Opening.tokens, keyTokens]
      omega
    rw [hlength] at hfuel ⊢
    obtain ⟨left, hleft, hread⟩ := exists_readNode_key handles openItems
      (show (lineTokens above).length + 4 ≤ fuel by omega)
    obtain ⟨left', hleft', hread'⟩ := exists_readNode_openItem handles
      (show (itemTokens items).length + 2 ≤ left by omega)
    refine ⟨false, left', fun ts => (readOpenItems handles left' ts).bind fun itemsBelow =>
      (readBlockEntries handles left itemsBelow.2).map fun below =>
        (.dashBelow (lineTrees above) (itemTrees items) itemsBelow.1 below.1, below.2), by omega,
      fun ts hts => ?_⟩
    -- Items without indentation belong to the key, so two readers share what follows.
    have hdash : ¬endsBlockEntry (itemTokens items ++ .dash :: ts) = true := by
      cases items <;> exact Bool.false_ne_true
    have htokens : (Opening.dashBelow gap above key items).tokens ++ ts =
        .blockMapping :: (keyTokens above key ++ (itemTokens items ++ .dash :: ts)) := by
      simp [Opening.tokens]
    rw [htokens, hread, if_neg hdash, hread' ts hts]
    simp only [Option.map_bind, Option.map_map, Option.bind_assoc, Option.bind_map,
      Function.comp_def]
    rfl

/-- What is read around a text at a spot is the same for all texts. -/
theorem Spot.exists_readNode (spot : Spot) (openItems : Bool)
    (hfuel : (spot.tokens "").length ≤ fuel) (us : List Token) :
    ∃ around : Option (Around (Yaml.Tree String) spot × List Token),
      ∀ s, readNode handles true openItems fuel (spot.tokens s ++ us) =
        around.map fun read => (read.1.fill (plainTrees String) s, read.2) := by
  induction spot generalizing openItems fuel with
  | key gap above =>
    have hlength : ((Spot.key gap above).tokens "").length = (lineTokens above).length + 4 := by
      simp [Spot.tokens, keyTokens]
    obtain ⟨left, -, hread⟩ := exists_readNode_key handles openItems (hlength ▸ hfuel)
    refine ⟨(if endsBlockEntry us then some (.empty, us)
      else readNode handles true true left us).bind fun under =>
        (readBlockEntries handles left under.2).map fun below =>
          (.key (lineTrees above) under.1 below.1, below.2), fun s => ?_⟩
    rw [Spot.tokens, List.cons_append, hread]
    simp only [Option.map_bind, Option.map_map, Function.comp_def]
    rfl
  | behind opening =>
    simp only [Spot.tokens, List.length_append, List.length_singleton] at hfuel
    obtain ⟨openItems', left, beside, hleft, hread⟩ :=
      opening.exists_readNode handles openItems (Nat.le_of_succ_le hfuel)
    obtain ⟨left, rfl⟩ : ∃ n, left = n + 1 := ⟨left - 1, by omega⟩
    refine ⟨(beside us).map fun read => (.behind read.1, read.2), fun s => ?_⟩
    rw [Spot.tokens, List.append_assoc, List.singleton_append, hread _ ⟨rfl, rfl, rfl, rfl⟩,
      readNode_scalar, Option.bind_some, Option.map_map]
    rfl
  | inside opening inner ih =>
    simp only [Spot.tokens, List.length_append] at hfuel
    obtain ⟨openItems', left, beside, hleft, hread⟩ :=
      opening.exists_readNode handles openItems (show opening.tokens.length ≤ fuel by omega)
    obtain ⟨around, hinner⟩ := ih openItems' (show (inner.tokens "").length ≤ left by omega)
    refine ⟨around.bind fun within => (beside within.2).map fun read =>
      (.inside read.1 within.1, read.2), fun s => ?_⟩
    rw [Spot.tokens, List.append_assoc, hread _ (inner.startsNode s us).1, hinner]
    simp only [Option.map_bind, Option.map_map, Option.bind_map, Function.comp_def]
    rfl

end

/-- A stream with a text at a spot is a document with the text in it, whichever text it is. -/
theorem Spot.exists_readStream? (spot : Spot) (us : List Token) :
    ∃ around : Option (Around (Yaml.Tree String) spot), ∀ s, readStream? (spot.tokens s ++ us) =
      around.map fun around => some (around.fill (plainTrees String) s) := by
  obtain ⟨around, hread⟩ := spot.exists_readNode defaultHandles false
    (show (spot.tokens "").length ≤ 3 * (spot.tokens "" ++ us).length + 3 by
      simp only [List.length_append]
      omega) us
  refine ⟨(around.filter fun read => read.2.all (· == .documentEnd)).map (·.1), fun s => ?_⟩
  obtain ⟨hstarts, hne⟩ := spot.startsNode s us
  have hempty : ¬(spot.tokens s ++ us).isEmpty = true := by simpa using hne
  have hlength : (spot.tokens s ++ us).length = (spot.tokens "" ++ us).length := by
    rw [List.length_append, List.length_append, spot.length_tokens]
  rw [readStream?, if_neg hempty, if_neg (Bool.eq_false_iff.1 hstarts.document), hlength, hread]
  cases around with
  | none => rfl
  | some read =>
    cases hrest : read.2.all (· == .documentEnd) <;>
    · simp only [Option.map_some, Option.bind_eq_bind, Option.bind_some, Option.filter, hrest]
      rfl

/-! ## Numbering -/

/-- An item is numbered behind those above it, and those below it behind the item. -/
theorem number_item (names : AnchorNames) (above below : List (Yaml.Tree String))
    (part : Yaml.Tree String) :
    ((plainTrees String).sequence (above ++ part :: below)).number names =
      (Yaml.Tree.numberItems names above).bind fun above => (part.number above.2).bind fun part =>
        (Yaml.Tree.numberItems part.2 below).map fun below =>
          ((plainTrees Nat).sequence (above.1 ++ part.1 :: below.1), below.2) := by
  have hitems : Yaml.Tree.numberItems names (above ++ part :: below) =
      (Yaml.Tree.numberItems names above).bind fun above => (part.number above.2).bind fun part =>
        (Yaml.Tree.numberItems part.2 below).map fun below =>
          (above.1 ++ part.1 :: below.1, below.2) := by
    induction above generalizing names with
    | nil =>
      simp only [List.nil_append, Yaml.Tree.numberItems, Option.bind_eq_bind, Option.bind_some,
        Option.pure_def, Option.map_eq_bind, Function.comp_def]
    | cons item above ih =>
      simp only [List.cons_append, Yaml.Tree.numberItems, ih, Option.bind_eq_bind, Option.pure_def,
        Option.bind_assoc, Option.map_eq_bind, Option.bind_some, Function.comp_def]
  simp only [plainTrees, Yaml.Tree.number, Properties.number, Properties.none, hitems,
    Option.bind_eq_bind, Option.pure_def, Option.bind_assoc, Option.map_eq_bind, Option.bind_some,
    Function.comp_def]

/-- The same for an entry of a mapping. -/
theorem number_entry (names : AnchorNames) (above below : List (Yaml.Tree String × Yaml.Tree String))
    (key : String) (part : Yaml.Tree String) :
    ((plainTrees String).mapping (above ++ ((plainTrees String).text key, part) :: below)).number names =
      (Yaml.Tree.numberEntries names above).bind fun above => (part.number above.2).bind fun part =>
        (Yaml.Tree.numberEntries part.2 below).map fun below =>
          ((plainTrees Nat).mapping
            (above.1 ++ ((plainTrees Nat).text key, part.1) :: below.1), below.2) := by
  have hentries : Yaml.Tree.numberEntries names (above ++ ((plainTrees String).text key, part) :: below) =
      (Yaml.Tree.numberEntries names above).bind fun above => (part.number above.2).bind fun part =>
        (Yaml.Tree.numberEntries part.2 below).map fun below =>
          (above.1 ++ ((plainTrees Nat).text key, part.1) :: below.1, below.2) := by
    induction above generalizing names with
    | nil =>
      simp only [List.nil_append, plainTrees, Yaml.Tree.numberEntries, Yaml.Tree.number,
        Properties.number, Properties.none, Option.bind_eq_bind, Option.bind_some, Option.pure_def,
        Option.map_eq_bind, Function.comp_def]
    | cons entry above ih =>
      simp only [List.cons_append, Yaml.Tree.numberEntries, ih, Option.bind_eq_bind, Option.pure_def,
        Option.bind_assoc, Option.map_eq_bind, Option.bind_some, Function.comp_def]
  simp only [plainTrees] at hentries
  simp only [plainTrees, Yaml.Tree.number, Properties.number, Properties.none] at hentries ⊢
  simp only [hentries, Option.bind_eq_bind, Option.pure_def, Option.bind_assoc, Option.map_eq_bind,
    Option.bind_some, Function.comp_def]

/-- What stands above a part is numbered in front of it, and what stands below it behind it. -/
theorem Beside.exists_number {o : Opening} (beside : Beside (Yaml.Tree String) o)
    (names : AnchorNames) :
    ∃ (γ : Type) (above : Option (γ × AnchorNames))
      (number : γ → AnchorNames → Option (Beside (Yaml.Tree Nat) o × AnchorNames)),
      ∀ part, (beside.fill (plainTrees String) part).number names =
        above.bind fun front => (part.number front.2).bind fun first =>
          (number front.1 first.2).map fun read => (read.1.fill (plainTrees Nat) first.1, read.2) := by
  cases beside with
  | colon above below =>
    refine ⟨_, Yaml.Tree.numberEntries names above, fun front names =>
      (Yaml.Tree.numberEntries names below).map fun read => (.colon front read.1, read.2),
      fun part => ?_⟩
    rw [fill, number_entry]
    simp only [Option.map_map, Function.comp_def]
    rfl
  | dash above below =>
    refine ⟨_, Yaml.Tree.numberItems names above, fun front names =>
      (Yaml.Tree.numberItems names below).map fun read => (.dash front read.1, read.2),
      fun part => ?_⟩
    rw [fill, number_item]
    simp only [Option.map_map, Function.comp_def]
    rfl
  | dashBelow above itemsAbove itemsBelow below =>
    refine ⟨_, (Yaml.Tree.numberEntries names above).bind fun front =>
      (Yaml.Tree.numberItems front.2 itemsAbove).map fun items => ((front.1, items.1), items.2),
      fun front names => (Yaml.Tree.numberItems names itemsBelow).bind fun items =>
        (Yaml.Tree.numberEntries items.2 below).map fun read =>
          (.dashBelow front.1 front.2 items.1 read.1, read.2), fun part => ?_⟩
    rw [fill, number_entry]
    simp only [number_item, Option.map_bind, Option.map_map, Option.bind_assoc, Option.bind_map,
      Function.comp_def]
    rfl

/-- What is around a text at a spot is numbered alike for all texts. -/
theorem Around.exists_number {spot : Spot} (around : Around (Yaml.Tree String) spot)
    (names : AnchorNames) : ∃ numbered : Option (Around (Yaml.Tree Nat) spot × AnchorNames),
      ∀ s, (around.fill (plainTrees String) s).number names =
        numbered.map fun read => (read.1.fill (plainTrees Nat) s, read.2) := by
  induction around generalizing names with
  | key above under below =>
    refine ⟨(Yaml.Tree.numberEntries names above).bind fun above => (under.number above.2).bind
      fun under => (Yaml.Tree.numberEntries under.2 below).map fun below =>
        (.key above.1 under.1 below.1, below.2), fun s => ?_⟩
    rw [fill, number_entry]
    simp only [Option.map_bind, Option.map_map, Function.comp_def]
    rfl
  | behind beside =>
    obtain ⟨γ, above, number, hnumber⟩ := beside.exists_number names
    refine ⟨above.bind fun front => (number front.1 front.2).map fun read => (.behind read.1, read.2),
      fun s => ?_⟩
    rw [fill, hnumber]
    simp only [Option.map_bind, Option.map_map, Function.comp_def]
    rfl
  | inside beside within ih =>
    obtain ⟨γ, above, number, hnumber⟩ := beside.exists_number names
    cases above with
    | none => exact ⟨none, fun s => by rw [fill, hnumber]; rfl⟩
    | some front =>
      obtain ⟨numbered, hwithin⟩ := ih front.2
      refine ⟨numbered.bind fun within => (number front.1 within.2).map fun read =>
        (.inside read.1 within.1, read.2), fun s => ?_⟩
      rw [fill, hnumber, Option.bind_some, hwithin]
      simp only [Option.map_bind, Option.map_map, Option.bind_map, Function.comp_def]
      rfl

/-! ## Documents -/

theorem nodesOfItems_append (a b : List (Yaml.Tree Nat)) :
    Yaml.Tree.nodesOfItems (a ++ b) = Yaml.Tree.nodesOfItems a ++ Yaml.Tree.nodesOfItems b := by
  induction a with
  | nil => rfl
  | cons item a ih =>
    simp only [List.cons_append, Yaml.Tree.nodesOfItems, ih, List.append_assoc]

theorem nodesOfEntries_append (a b : List (Yaml.Tree Nat × Yaml.Tree Nat)) :
    Yaml.Tree.nodesOfEntries (a ++ b) = Yaml.Tree.nodesOfEntries a ++ Yaml.Tree.nodesOfEntries b := by
  induction a with
  | nil => rfl
  | cons entry a ih =>
    simp only [List.cons_append, Yaml.Tree.nodesOfEntries, ih, List.append_assoc]

section

variable {γ : Type} {f : Yaml.Tree Nat → List γ} {ofScalar ofSequence ofMapping : List γ}

/-- What is told of the nodes of a block one by one changes only with the part in it, if it is the
same for all collections that have neither a tag nor an anchor. -/
theorem Beside.flatMap_nodes (hsequence : ∀ items, f (.sequence .none items) = ofSequence)
    (hmapping : ∀ entries, f (.mapping .none entries) = ofMapping) {o : Opening}
    (beside : Beside (Yaml.Tree Nat) o) {a b : Yaml.Tree Nat}
    (hab : a.nodes.flatMap f = b.nodes.flatMap f) :
    (beside.fill (plainTrees Nat) a).nodes.flatMap f =
      (beside.fill (plainTrees Nat) b).nodes.flatMap f := by
  cases beside <;>
    simp only [Beside.fill, plainTrees, Yaml.Tree.nodes, nodesOfItems_append,
      nodesOfEntries_append, Yaml.Tree.nodesOfItems, Yaml.Tree.nodesOfEntries,
      List.flatMap_cons, List.flatMap_append, hsequence, hmapping, hab]

/-- What is told of the nodes of a document one by one is the same for all texts at a spot, if it is
the same for all nodes of a kind that have neither a tag nor an anchor. -/
theorem Around.flatMap_nodes (hscalar : ∀ style s, f (.scalar .none style s) = ofScalar)
    (hsequence : ∀ items, f (.sequence .none items) = ofSequence)
    (hmapping : ∀ entries, f (.mapping .none entries) = ofMapping)
    {spot : Spot} (around : Around (Yaml.Tree Nat) spot) (p s : String) :
    (around.fill (plainTrees Nat) s).nodes.flatMap f =
      (around.fill (plainTrees Nat) p).nodes.flatMap f := by
  induction around with
  | key above under below =>
    simp only [Around.fill, plainTrees, Yaml.Tree.nodes, nodesOfEntries_append,
      Yaml.Tree.nodesOfEntries, List.flatMap_cons, List.flatMap_append, List.flatMap_nil, hscalar,
      hmapping]
  | behind beside =>
    refine beside.flatMap_nodes hsequence hmapping ?_
    simp only [plainTrees, Yaml.Tree.nodes, List.flatMap_cons, List.flatMap_nil, hscalar]
  | inside beside within ih => exact beside.flatMap_nodes hsequence hmapping ih

end

/-- Documents with the same anchors and as many marks have the same targets, and as many aliases may
be followed. -/
theorem ofRoot_congr {a b : Yaml.Tree Nat}
    (htargets : a.nodes.flatMap (fun t => (t.anchor?.map fun n => (n, t)).toList) =
      b.nodes.flatMap fun t => (t.anchor?.map fun n => (n, t)).toList)
    (hmarks : (a.nodes.flatMap fun t => [t.marks]) = b.nodes.flatMap fun t => [t.marks]) :
    (Document.ofRoot a).targets = (Document.ofRoot b).targets ∧
      (Document.ofRoot a).allowance = (Document.ofRoot b).allowance := by
  have hallowance : ∀ nodes : List (Yaml.Tree Nat), nodes.foldl (fun n t => n + t.marks) 0 =
      (nodes.flatMap fun t => [t.marks]).foldl (· + ·) 0 := fun nodes => by
    rw [← List.map_eq_flatMap, List.foldl_map]
  unfold Document.ofRoot
  dsimp only
  rw [List.filterMap_eq_flatMap_toList, htargets, ← List.filterMap_eq_flatMap_toList, hallowance,
    hmarks, ← hallowance]
  exact ⟨rfl, rfl⟩

/-- The anchors and aliases of a document are the same for all texts at a spot. -/
theorem Around.ofRoot_fill {spot : Spot} (around : Around (Yaml.Tree Nat) spot) (p s : String) :
    (Document.ofRoot (around.fill (plainTrees Nat) s)).targets =
        (Document.ofRoot (around.fill (plainTrees Nat) p)).targets ∧
      (Document.ofRoot (around.fill (plainTrees Nat) s)).allowance =
        (Document.ofRoot (around.fill (plainTrees Nat) p)).allowance :=
  ofRoot_congr
    (around.flatMap_nodes (fun _ _ => rfl) (fun _ => rfl) (fun _ => rfl) p s)
    (around.flatMap_nodes (fun _ _ => (rfl : _ = [1])) (fun _ => (rfl : _ = [2]))
      (fun _ => (rfl : _ = [2])) p s)

end Outline
end CiPipelines
