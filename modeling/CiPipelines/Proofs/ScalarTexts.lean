import CiPipelines.Github.Reader
import CiPipelines.Proofs.MergedEntries
import CiPipelines.Proofs.NumberWords
import CiPipelines.Proofs.OutlineFields
import CiPipelines.Proofs.SpotParts

/-!
# Numbers and truth values in a document

At a spot of a document a number or a truth value is read as the text that it is printed as.  So a
variable keeps the text of such a word only if the word is printed as it stands.
-/

namespace CiPipelines

open Yaml

/-! ## Values with texts for numbers -/

namespace Yaml.Value

mutual

/-- A value with its numbers and truth values as texts, but for those in keys. -/
def asTexts : Value → Value
  | .null => .null
  | .bool b => .text (if b then "true" else "false")
  | .integer n => .text (toString n)
  | .real x => .text (String.ofList x.text)
  | .text s => .text s
  | .sequence items => .sequence (itemsAsTexts items)
  | .mapping entries => .mapping (entriesAsTexts entries)
  | .tagged tag v => .tagged tag v.asTexts

/-- The items of a sequence, each with texts. -/
def itemsAsTexts : List Value → List Value
  | [] => []
  | v :: rest => v.asTexts :: itemsAsTexts rest

/-- The entries of a mapping, each value with texts. -/
def entriesAsTexts : List (Value × Value) → List (Value × Value)
  | [] => []
  | (k, v) :: rest => (k, v.asTexts) :: entriesAsTexts rest

end

theorem itemsAsTexts_eq_map (items : List Value) : itemsAsTexts items = items.map asTexts := by
  induction items with
  | nil => rfl
  | cons v rest ih => rw [itemsAsTexts, ih, List.map_cons]

theorem entriesAsTexts_eq_map (entries : Entries) :
    entriesAsTexts entries = entries.map fun e => (e.1, e.2.asTexts) := by
  induction entries with
  | nil => rfl
  | cons e rest ih => rw [entriesAsTexts, ih, List.map_cons]

theorem asTexts_of_isNumberOrTruth {v : Value} {s : String} (hv : v.isNumberOrTruth = true)
    (hs : Node.scalarText? v = some s) : v.asTexts = .text s := by
  cases v <;> simp_all [isNumberOrTruth, Node.scalarText?, asTexts]

mutual

/-- The plain data stay the same. -/
theorem ofValue_asTexts : ∀ v : Value, Node.ofValue v.asTexts = Node.ofValue v
  | .null | .bool _ | .integer _ | .real _ | .text _ => rfl
  | .sequence items => congrArg Node.list (ofItems_itemsAsTexts items)
  | .mapping entries => congrArg Node.fields (ofEntries_entriesAsTexts entries)
  | .tagged _ v => ofValue_asTexts v

theorem ofItems_itemsAsTexts :
    ∀ items : List Value, Node.ofItems (itemsAsTexts items) = Node.ofItems items
  | [] => rfl
  | v :: rest => congrArg₂ List.cons (ofValue_asTexts v) (ofItems_itemsAsTexts rest)

theorem ofEntries_entriesAsTexts :
    ∀ entries : Entries, Node.ofEntries (entriesAsTexts entries) = Node.ofEntries entries
  | [] => rfl
  | (k, v) :: rest => by
    rw [entriesAsTexts, Node.ofEntries, Node.ofEntries, ofValue_asTexts v,
      ofEntries_entriesAsTexts rest]

end

mutual

theorem depth_asTexts : ∀ v : Value, v.asTexts.depth = v.depth
  | .null | .bool _ | .integer _ | .real _ | .text _ => rfl
  | .sequence items => congrArg (· + 1) (depthOfItems_itemsAsTexts items)
  | .mapping entries => congrArg (· + 1) (depthOfEntries_entriesAsTexts entries)
  | .tagged _ v => congrArg (· + 1) (depth_asTexts v)

theorem depthOfItems_itemsAsTexts :
    ∀ items : List Value, depthOfItems (itemsAsTexts items) = depthOfItems items
  | [] => rfl
  | v :: rest => congrArg₂ max (depth_asTexts v) (depthOfItems_itemsAsTexts rest)

theorem depthOfEntries_entriesAsTexts :
    ∀ entries : Entries, depthOfEntries (entriesAsTexts entries) = depthOfEntries entries
  | [] => rfl
  | (k, v) :: rest => by
    rw [entriesAsTexts, depthOfEntries, depthOfEntries, depth_asTexts v,
      depthOfEntries_entriesAsTexts rest]

end

end Yaml.Value

/-! ## Merge keys among texts -/

namespace Yaml

/-- What can be done with each of some values can be done after a change of them. -/
theorem mapM_map_of_commutes {α β γ δ : Type} {g : α → β} {k : γ → δ} {step : β → Option δ}
    {step' : α → Option γ} (h : ∀ x, step (g x) = (step' x).map k) (xs : List α) :
    (xs.map g).mapM step = (xs.mapM step').map (List.map k) := by
  induction xs with
  | nil => rfl
  | cons x xs ih =>
    rw [List.map_cons, List.mapM_cons, List.mapM_cons, h, ih]
    cases step' x with
    | none => rfl
    | some y => cases xs.mapM step' <;> rfl

namespace Entries

/-- The entries with texts for numbers and truth values. -/
abbrev asTexts (entries : Entries) : Entries := entries.map fun e => (e.1, e.2.asTexts)

theorem asTexts_append (a b : Entries) : asTexts (a ++ b) = a.asTexts ++ b.asTexts :=
  List.map_append

theorem merge?_asTexts (entries : Entries) :
    merge? entries.asTexts = (merge? entries).map Value.asTexts := by
  rw [merge?, List.find?_map, merge?, Option.map_map, Option.map_map]
  rfl

theorem takeMerge_asTexts (entries : Entries) :
    takeMerge entries.asTexts = (takeMerge entries).asTexts := by
  have hlast : ∀ entries : Entries, lastFirst entries.asTexts = (lastFirst entries).asTexts := by
    intro entries
    rw [lastFirst, lastFirst, asTexts_append, asTexts, asTexts, List.getLast?_map,
      ← List.map_dropLast]
    cases entries.getLast? <;> rfl
  have hbehind : behindMerge entries.asTexts = (behindMerge entries).asTexts := by
    rw [behindMerge, behindMerge, asTexts, asTexts, List.dropWhile_map, List.map_tail]
    rfl
  rw [takeMerge_eq, takeMerge_eq, asTexts_append, ← hlast, hbehind, asTexts, List.takeWhile_map]
  rfl

theorem addMissing_asTexts (entries added : Entries) :
    addMissing entries.asTexts added.asTexts = (addMissing entries added).asTexts := by
  induction added generalizing entries with
  | nil => rfl
  | cons e added ih =>
    have hany : (entries.asTexts.any fun other => e.1.same other.1) =
        entries.any fun other => e.1.same other.1 := List.any_map
    rw [asTexts, asTexts, List.map_cons, addMissing_cons, addMissing_cons, hany]
    split
    · exact ih entries
    · rw [← ih, asTexts_append]
      rfl

end Entries

namespace Value

theorem entries?_asTexts (v : Value) : v.asTexts.entries? = v.entries?.map Entries.asTexts := by
  cases v with
  | mapping entries => exact congrArg some (entriesAsTexts_eq_map entries)
  | _ => rfl

theorem merged?_asTexts (v : Value) :
    v.asTexts.merged? = v.merged?.map (List.map Entries.asTexts) := by
  cases v with
  | mapping entries => exact congrArg (fun e => some [e]) (entriesAsTexts_eq_map entries)
  | sequence items =>
    rw [asTexts, merged?, itemsAsTexts_eq_map]
    exact mapM_map_of_commutes entries?_asTexts items
  | _ => rfl

theorem resolveEntries?_asTexts (entries : Entries) :
    resolveEntries? entries.asTexts = (resolveEntries? entries).map Entries.asTexts := by
  have hfold : ∀ (sources : List Entries) (own : Entries),
      (sources.map Entries.asTexts).foldl Entries.addMissing own.asTexts =
        (sources.foldl Entries.addMissing own).asTexts := by
    intro sources
    induction sources with
    | nil => exact fun own => rfl
    | cons source sources ih =>
      intro own
      rw [List.map_cons, List.foldl_cons, List.foldl_cons, Entries.addMissing_asTexts, ih]
  rw [resolveEntries?, resolveEntries?, Entries.merge?_asTexts]
  cases Entries.merge? entries with
  | none => rfl
  | some source =>
    simp only [Option.map_some, Option.bind_eq_bind, merged?_asTexts, Entries.takeMerge_asTexts]
    cases source.merged? with
    | none => rfl
    | some sources => exact congrArg some (hfold sources _)

/-- Merge keys are resolved alike among texts. -/
theorem resolve?_asTexts (levels : Nat) (v : Value) :
    resolve? levels v.asTexts = (resolve? levels v).map asTexts := by
  induction levels generalizing v with
  | zero => cases v <;> rfl
  | succ levels ih =>
    cases v with
    | sequence items =>
      rw [asTexts, resolve?, resolve?, itemsAsTexts_eq_map, mapM_map_of_commutes ih items]
      cases items.mapM (resolve? levels) with
      | none => rfl
      | some items =>
        exact congrArg (fun items => some (sequence items)) (itemsAsTexts_eq_map _).symm
    | mapping entries =>
      have hentry : ∀ e : Value × Value, (do return (e.1, ← resolve? levels e.2.asTexts)) =
          (do return (e.1, ← resolve? levels e.2) : Option (Value × Value)).map
            fun e => (e.1, e.2.asTexts) := by
        intro e
        rw [ih]
        cases resolve? levels e.2 <;> rfl
      rw [asTexts, resolve?, resolve?, entriesAsTexts_eq_map, resolveEntries?_asTexts]
      cases resolveEntries? entries with
      | none => rfl
      | some entries =>
        simp only [Option.map_some, Option.bind_eq_bind, Option.bind_some]
        rw [mapM_map_of_commutes hentry entries]
        cases entries.mapM fun e => do return (e.1, ← resolve? levels e.2) with
        | none => rfl
        | some entries =>
          exact congrArg (fun entries => some (mapping entries)) (entriesAsTexts_eq_map _).symm
    | tagged tag v =>
      rw [asTexts, resolve?, resolve?, ih]
      cases resolve? levels v <;> rfl
    | _ => rfl

theorem resolveMerges?_asTexts (v : Value) :
    v.asTexts.resolveMerges? = v.resolveMerges?.map asTexts := by
  rw [resolveMerges?, depth_asTexts, resolve?_asTexts]
  rfl

/-- Values that are the same with texts for numbers have the same plain data. -/
theorem ofValue_resolveMerges?_congr {v w : Value} (h : v.asTexts = w.asTexts) :
    v.resolveMerges?.map Node.ofValue = w.resolveMerges?.map Node.ofValue := by
  have htexts : ∀ v : Value, v.resolveMerges?.map Node.ofValue =
      v.asTexts.resolveMerges?.map Node.ofValue := by
    intro v
    rw [resolveMerges?_asTexts, Option.map_map]
    exact congrArg (Option.map · _) (funext fun v => (ofValue_asTexts v).symm)
  rw [htexts v, htexts w, h]

end Value
end Yaml

/-! ## Scalars at a spot -/

namespace Outline

theorem Beside.asTexts_fill {o : Opening} (beside : Beside Value o) {v w : Value}
    (h : v.asTexts = w.asTexts) :
    (beside.fill values v).asTexts = (beside.fill values w).asTexts := by
  cases beside <;>
    simp [fill, values, Value.asTexts, Value.entriesAsTexts_eq_map, Value.itemsAsTexts_eq_map, h]

section

variable {spot : Spot} (hkey : spot.isKey = false)

include hkey

/-- Parts of the same texts make values of the same texts. -/
theorem Around.asTexts_put (around : Around Value spot) {v w : Value}
    (h : v.asTexts = w.asTexts) :
    (around.put values v).asTexts = (around.put values w).asTexts := by
  induction around with
  | key above under below => cases hkey
  | behind beside => exact beside.asTexts_fill h
  | inside beside within ih => exact beside.asTexts_fill (ih hkey)

/-- A plain number or truth value at a spot is read as if the text that it is printed as stood
there, in quotes. -/
theorem Spot.ofYaml?_plain (hspot : spot.WellFormed) {rest : List Char}
    (hrest : spot.endsBefore 0 rest = true) {w s : String} {v : Value}
    (hw : Value.ofPlain? w = some v) (hv : v.isNumberOrTruth = true)
    (hs : Node.scalarText? v = some s) :
    Node.ofYaml? (String.ofList (spot.lead 0 0 ++ ' ' :: (w.toList ++ '\n' :: rest))) =
      Node.ofYaml? (String.ofList (spot.text s 0 0 ++ rest)) := by
  obtain ⟨value, hvalue⟩ := Spot.exists_ofText?_part hkey hspot rest
  rw [endsBefore_eq hkey] at hrest
  have hdenotes := denotes_of_ofPlain? hw hv
  have hword : Text.OrdinaryChars w.toList := hdenotes.wordMarks.ordinary
  have hprinted : Text.OrdinaryChars s.toList := by
    obtain ⟨t, ht, hmarks⟩ := hdenotes.exists_scalarText?
    obtain rfl := Option.some.inj (ht.symm.trans hs)
    exact WordMarks.ordinary fun c hc => isWordMark_of_isPrintedMark (hmarks c hc)
  have hplain := hvalue _ _ _ (readsPart_written (.plain hdenotes.isPlainText) hword
    (permitted_of_ordinary hword) hrest)
  have hquoted := hvalue _ _ _ (readsPart_written (inline_of_ordinary hprinted) hprinted
    (permitted_inline hprinted) hrest)
  rw [List.append_assoc, List.singleton_append] at hplain
  rw [text_eq_lead hkey, List.append_assoc, List.cons_append]
  have hofYaml : ∀ text : List Char, Node.ofYaml? (String.ofList text) =
      (Value.ofText? text).bind fun v => v.resolveMerges?.map Node.ofValue := by
    intro text
    rw [Node.ofYaml?, String.toList_ofList]
    cases Value.ofText? text with
    | none => rfl
    | some v => cases hmerges : v.resolveMerges? <;> simp [hmerges]
  -- The values differ, but not in the texts that a node keeps of them.
  have htexts : v.asTexts = (Value.text s).asTexts := Value.asTexts_of_isNumberOrTruth hv hs
  have hscalar : Value.ofScalar? none .plain w = some v := hw
  rw [hofYaml, hofYaml, hplain, hquoted, hscalar, ofScalar?_inlineStyle hprinted]
  cases value with
  | none => rfl
  | some around =>
    exact Value.ofValue_resolveMerges?_congr (around.asTexts_put hkey htexts)

/-- So a workflow is read as if the printed text stood there in quotes. -/
theorem Spot.read_plain (hspot : spot.WellFormed) {rest : List Char}
    (hrest : spot.endsBefore 0 rest = true) {w s : String} {v : Value}
    (hw : Value.ofPlain? w = some v) (hv : v.isNumberOrTruth = true)
    (hs : Node.scalarText? v = some s) (settings : Settings) :
    Github.read settings (String.ofList (spot.lead 0 0 ++ ' ' :: (w.toList ++ '\n' :: rest))) =
      Github.read settings (String.ofList (spot.text s 0 0 ++ rest)) := by
  have hnode := ofYaml?_plain hkey hspot hrest hw hv hs
  simp only [Github.read, Node.ofPipelineFile, hnode]

end

/-! ## Words as variables -/

/-- A word that is read as a number or a truth value. -/
def isNumberWord (w : String) : Bool := (Value.ofPlain? w).any Value.isNumberOrTruth

/-- What a word is printed as. -/
def printedWord (w : String) : String := ((Value.ofPlain? w).bind Node.scalarText?).getD ""

/-- A field for each of some words, written as they are. -/
def wordLines (words : List (String × String)) : List (Line Outline) :=
  words.map fun e => .field e.1 (.word e.2)

section

variable {w : String} (h : isNumberWord w = true)

include h

theorem exists_of_isNumberWord : ∃ v, Value.ofPlain? w = some v ∧ v.isNumberOrTruth = true ∧
    Denotes w v ∧ Node.scalarText? v = some (printedWord w) := by
  unfold isNumberWord at h
  cases hw : Value.ofPlain? w with
  | none =>
    rw [hw] at h
    cases h
  | some v =>
    rw [hw] at h
    have hdenotes := denotes_of_ofPlain? hw h
    obtain ⟨s, hs, -⟩ := hdenotes.exists_scalarText?
    refine ⟨v, rfl, h, hdenotes, ?_⟩
    rw [printedWord, hw, Option.bind_some, hs]
    rfl

theorem wordValue?_numberWord : wordValue? w = Value.ofPlain? w := by
  obtain ⟨v, -, -, hdenotes, -⟩ := exists_of_isNumberWord h
  unfold wordValue?
  split
  · rename_i b hword
    have hopening := hdenotes.wordMarks b.opening
      (Brackets.toList_of_ofWord? hword ▸ List.mem_cons_self ..)
    cases b <;> exact absurd hopening (by decide)
  · rfl

theorem isWord_numberWord : IsWord w := by
  obtain ⟨v, hv, -, hdenotes, -⟩ := exists_of_isNumberWord h
  refine ⟨hdenotes.wordMarks.ordinary, .inr hdenotes.isPlainText, ?_⟩
  rw [wordValue?_numberWord h, hv]
  rfl

/-- A number or a truth value is read as what it is printed as. -/
theorem node_numberWord : node (.word w) = .scalar (printedWord w) := by
  obtain ⟨v, hv, hnumber, -, hs⟩ := exists_of_isNumberWord h
  have htext := Value.asTexts_of_isNumberOrTruth hnumber hs
  rw [node, meaning, wordValue?_numberWord h, hv, Option.getD_some, ← Value.ofValue_asTexts, htext]
  rfl

end

/-! ### Words that are printed as they stand -/

section

variable {w : String}

theorem printedWord_eq_iff {v : Value} (hv : Value.ofPlain? w = some v)
    (hnumber : v.isNumberOrTruth = true) : printedWord w = w ↔ Node.scalarText? v = some w := by
  obtain ⟨s, hs, -⟩ := (denotes_of_ofPlain? hv hnumber).exists_scalarText?
  rw [printedWord, hv, Option.bind_some, hs, Option.getD_some, Option.some_inj]

theorem printedWord_bool_iff {b : Bool} (hv : Value.ofPlain? w = some (.bool b)) :
    printedWord w = w ↔ w = "true" ∨ w = "false" := by
  cases denotes_of_ofPlain? hv rfl with
  | truth hbool => exact (printedWord_eq_iff hv rfl).trans (scalarText?_bool_iff hbool)

/-- Of the words for integers those in decimal keep their text, without a plus sign and other than
`-0`. -/
theorem printedWord_integer_iff {n : Int} (hv : Value.ofPlain? w = some (.integer n)) :
    printedWord w = w ↔ (∀ c ∈ w.toList, c.isDigit = true ∨ c = '-') ∧ w ≠ "-0" := by
  cases denotes_of_ofPlain? hv rfl with
  | integer hinteger => exact (printedWord_eq_iff hv rfl).trans (scalarText?_integer_iff hinteger)

/-- A word for a real number without an exponent does not keep its text if it ends in a zero behind
another digit, as versions do. -/
theorem printedWord_real_ne {x : Yaml.Real} (hv : Value.ofPlain? w = some (.real x)) {d : Char}
    (hd : d.isDigit = true) (hend : [d, '0'] <:+ w.toList) (hexponent : 'e' ∉ w.toList) :
    printedWord w ≠ w := by
  cases denotes_of_ofPlain? hv rfl with
  | real hreal =>
    exact fun hw => scalarText?_real_ne hreal hd hend hexponent ((printedWord_eq_iff hv rfl).1 hw)

/-- A word with a capital letter or a plus sign does not keep its text. -/
theorem printedWord_ne_of_mem (h : isNumberWord w = true) {c : Char} (hc : c ∈ w.toList)
    (hmark : c.isUpper = true ∨ c = '+') : printedWord w ≠ w := by
  obtain ⟨v, hv, hnumber, hdenotes, -⟩ := exists_of_isNumberWord h
  exact fun hw => hdenotes.scalarText?_ne_of_mem hc hmark ((printedWord_eq_iff hv hnumber).1 hw)

end

/-- The fields of words are read as variables with what the words are printed as. -/
theorem vars_wordLines {words : List (String × String)}
    (h : ∀ e ∈ words, isNumberWord e.2 = true) :
    (node (.fields (wordLines words))).vars =
      Vars.ofList (words.map fun e => (e.1, printedWord e.2)) := by
  rw [Node.vars, entries_node_fields, wordLines, lineNodes_map_field, List.filterMap_map]
  refine congrArg Vars.ofList (Eq.trans (List.filterMap_congr fun e he => ?_)
    (congrFun List.filterMap_eq_map words))
  simp only [Function.comp_apply, node_numberWord (h e he)]

/-- Words can be written under all names that can be read as keys. -/
theorem Part.wordLines {levels : Nat} {words : List (String × String)}
    (hnames : ∀ e ∈ words, Text.OrdinaryChars e.1.toList ∧ e.1 ≠ "<<")
    (hwords : ∀ e ∈ words, isNumberWord e.2 = true) :
    Part (levels + 1) (words.map (·.1)) (words.all fun e => keyFits e.1) (wordLines words) :=
  map fun e he => (field (hnames e he).1 (hnames e he).2
    (.word (isWord_numberWord (hwords e he)))).of_eq (Bool.and_true _)

/-- Lines are found by their keys. -/
theorem lookup_of_mem_lines {lines : List (Line Outline)} (hnodup : (lineKeys lines).Nodup)
    {key : String} {body : Outline} (h : .field key body ∈ lines) :
    (lineNodes lines).lookup key = some (node body) := by
  induction lines with
  | nil => exact absurd h List.not_mem_nil
  | cons line lines ih =>
    cases line with
    | field other inner =>
      obtain ⟨hother, hnodup⟩ := List.nodup_cons.1 hnodup
      rw [lineNodes_field, List.lookup_cons]
      rcases List.mem_cons.1 h with heq | h
      · obtain ⟨rfl, rfl⟩ := Line.field.inj heq
        rw [beq_self_eq_true]
      · have hmem : key ∈ lineKeys lines := List.mem_filterMap.2 ⟨.field key body, h, rfl⟩
        have hne : (key == other) = false := by
          rw [beq_eq_false_iff_ne]
          rintro rfl
          exact hother hmem
        rw [hne]
        exact ih hnodup h
    | comment note => exact ih hnodup ((List.mem_cons.1 h).resolve_left nofun)
    | empty => exact ih hnodup ((List.mem_cons.1 h).resolve_left nofun)

/-- Words for different names are variables with their own texts exactly if each is printed as it
stands. -/
theorem ofList_printedWords_iff {words : List (String × String)} (h : (words.map (·.1)).Nodup) :
    (Vars.ofList (words.map fun e => (e.1, printedWord e.2))).entries = words ↔
      ∀ e ∈ words, printedWord e.2 = e.2 := by
  have hnodup : ((words.map fun e => (e.1, printedWord e.2)).map (·.1)).Nodup := by
    rw [List.map_map]
    exact h
  rw [Vars.ofList, Vars.entries_insertAll _ _ hnodup]
  show words.map (fun e => (e.1, printedWord e.2)) = words ↔ _
  conv_lhs => rhs; rw [← List.map_id words]
  rw [List.map_inj_left]
  exact forall₂_congr fun e he => Prod.ext_iff.trans (and_iff_right rfl)

/-! ## Variables of a workflow -/

section

variable {lines : List (Line Outline)} {words : List (String × String)}
  (hwords : ∀ e ∈ words, isNumberWord e.2 = true)

include hwords

/-- The environment of a workflow that is written with numbers and truth values as they are holds
what they are printed as. -/
theorem environment_wordLines (h : Written Document.maxDepth true (.fields lines))
    (henv : .field "env" (.fields (wordLines words)) ∈ lines) (settings : Settings) :
    ∃ p, Github.read settings (print lines) = .ok p ∧
      p.environment = Vars.ofList (words.map fun e => (e.1, printedWord e.2)) := by
  have hread : Github.read settings (print lines) =
      .ok (Github.ofNode settings (.fields (lineNodes lines))) := by
    rw [Github.read, h.ofPipelineFile_print]
    rfl
  refine ⟨_, hread, ?_⟩
  cases h.sound with
  | fields hbodies hkeys hnodup hnotes =>
    show (Node.fields (lineNodes lines)).varsAt "env" = _
    rw [Node.varsAt, get?_fields, lookup_of_mem_lines hnodup henv]
    exact vars_wordLines hwords

/-- So do the inputs of a step. -/
theorem readAction_wordLines (hnodup : (lineKeys lines).Nodup) {id : String}
    (huses : .field "uses" (.text id) ∈ lines)
    (hwith : .field "with" (.fields (wordLines words)) ∈ lines) :
    Github.readAction (node (.fields lines)) =
      .uses id (Vars.ofList (words.map fun e => (e.1, printedWord e.2))) := by
  have htext : (node (.fields lines)).textAt? "uses" = some id := by
    rw [Node.textAt?, get?_node_fields, lookup_of_mem_lines hnodup huses]
    rfl
  have hvars : (node (.fields lines)).varsAt "with" = (node (.fields (wordLines words))).vars := by
    rw [Node.varsAt, get?_node_fields, lookup_of_mem_lines hnodup hwith]
    rfl
  rw [Github.readAction, htext, hvars, vars_wordLines hwords]

end

/-! ## Variables of a whole file -/

theorem Sound.nodup_keys {levels : Nat} {lines : List (Line Outline)}
    (h : Sound levels (.fields lines)) : (lineKeys lines).Nodup := by
  cases h with
  | fields hbodies hkeys hnodup hnotes => exact hnodup

theorem Sound.exists_body {levels : Nat} {lines : List (Line Outline)}
    (h : Sound levels (.fields lines)) {key : String} {body : Outline}
    (hbody : .field key body ∈ lines) : ∃ below, Sound below body := by
  cases h with
  | fields hbodies hkeys hnodup hnotes => exact ⟨_, hbodies key body hbody⟩

theorem Sound.exists_item {levels : Nat} {items : List Outline} (h : Sound levels (.list items))
    {item : Outline} (hitem : item ∈ items) : ∃ below, Sound below item := by
  cases h with
  | list hitems hlines => exact ⟨_, hitems item hitem⟩

/-- A mapping with a field is read as one. -/
theorem isFields_node {lines : List (Line Outline)} {key : String} {body : Outline}
    (hnodup : (lineKeys lines).Nodup) (h : .field key body ∈ lines) :
    (node (.fields lines)).isFields = true := by
  have hne : lineNodes lines ≠ [] := by
    intro hnil
    have hlookup := lookup_of_mem_lines hnodup h
    rw [hnil] at hlookup
    cases hlookup
  rw [node_fields, if_neg hne]
  rfl

/-- A workflow that gives some words to its environment, as they stand, and to an action of one of
its steps. -/
structure GivesWords (lines : List (Line Outline)) (words : List (String × String)) (id : String) :
    Prop where
  environment : .field "env" (.fields (wordLines words)) ∈ lines
  inputs : ∃ jobs name job steps step, .field "jobs" (.fields jobs) ∈ lines ∧
    .field name (.fields job) ∈ jobs ∧ .field "steps" (.list steps) ∈ job ∧
    .fields step ∈ steps ∧ .field "uses" (.text id) ∈ step ∧
    .field "with" (.fields (wordLines words)) ∈ step

/-- The environment that is read, and the inputs of the action, hold the words themselves exactly if
each word is printed as it stands. -/
theorem read_words_iff {lines : List (Line Outline)} {words : List (String × String)} {id : String}
    (h : Written Document.maxDepth true (.fields lines)) (hgives : GivesWords lines words id)
    (hwords : ∀ e ∈ words, isNumberWord e.2 = true) (hnames : (words.map (·.1)).Nodup)
    (settings : Settings) :
    ∃ p, Github.read settings (print lines) = .ok p ∧
      (p.environment.entries = words ↔ ∀ e ∈ words, printedWord e.2 = e.2) ∧
      ∃ j ∈ p.jobs, ∃ s ∈ j.steps, ∃ inputs, s.action = .uses id inputs ∧
        (inputs.entries = words ↔ ∀ e ∈ words, printedWord e.2 = e.2) := by
  obtain ⟨jobs, name, job, steps, step, hjobs, hjob, hsteps, hstep, huses, hwith⟩ := hgives.inputs
  have hroot := h.sound.nodup_keys
  obtain ⟨_, hjobsSound⟩ := h.sound.exists_body hjobs
  obtain ⟨_, hjobSound⟩ := hjobsSound.exists_body hjob
  obtain ⟨_, hstepsSound⟩ := hjobSound.exists_body hsteps
  obtain ⟨_, hstepSound⟩ := hstepsSound.exists_item hstep
  have hread : Github.read settings (print lines) =
      .ok (Github.ofNode settings (.fields (lineNodes lines))) := by
    rw [Github.read, h.ofPipelineFile_print]
    rfl
  obtain ⟨p, hp, henvironment⟩ := environment_wordLines hwords h hgives.environment settings
  obtain rfl := Except.ok.inj (hread.symm.trans hp)
  refine ⟨_, hread, by rw [henvironment]; exact ofList_printedWords_iff hnames,
    Github.readJob settings name (node (.fields job)), ?_, Github.readStep (node (.fields step)), ?_,
    _, readAction_wordLines hwords hstepSound.nodup_keys huses hwith,
    ofList_printedWords_iff hnames⟩
  · have hentries : (Node.fields (lineNodes lines)).entriesAt "jobs" = lineNodes jobs := by
      rw [Node.entriesAt, get?_fields, lookup_of_mem_lines hroot hjobs, Option.map_some,
        entries_node_fields, Option.getD_some]
    have hmem : (name, node (.fields job)) ∈ lineNodes jobs := by
      obtain ⟨before, after, hlines, -⟩ :=
        List.lookup_eq_some_iff.1 (lookup_of_mem_lines hjobsSound.nodup_keys hjob)
      rw [hlines]
      exact List.mem_append_right _ (List.mem_cons_self ..)
    refine List.mem_map.2 ⟨(name, node (.fields job)), List.mem_filter.2 ⟨hentries ▸ hmem, ?_⟩, rfl⟩
    exact isFields_node hjobSound.nodup_keys hsteps
  · have hitems : (node (.fields job)).itemsAt "steps" = steps.map node := by
      rw [Node.itemsAt, get?_node_fields, lookup_of_mem_lines hjobSound.nodup_keys hsteps,
        Option.map_some, items_node_list, Option.getD_some]
    refine List.mem_map.2 ⟨node (.fields step), List.mem_filter.2 ⟨?_, ?_⟩, rfl⟩
    · exact hitems ▸ List.mem_map_of_mem hstep
    · exact isFields_node hstepSound.nodup_keys huses

/-- A version and a truth value that are printed as they stand. -/
def steadyWords : List (String × String) := [("NODE", "20"), ("DEBUG", "false")]

/-- A step with an action that they are given to. -/
def steadyStep : List (Line Outline) :=
  [.field "uses" (.text "actions/setup-node@v4"), .field "with" (.fields (wordLines steadyWords))]

/-- A workflow with this step, that gives them to its environment as well. -/
def steadyLines : List (Line Outline) :=
  [.field "env" (.fields (wordLines steadyWords)), .field "jobs" (.fields
    [.field "build" (.fields [.field "steps" (.list [.fields steadyStep])])])]

theorem written_steadyLines : Written Document.maxDepth true (.fields steadyLines) := by
  have hwords : ∀ levels, Written (levels + 2) true (.fields (wordLines steadyWords)) := fun levels =>
    ((Part.wordLines (by decide) (by decide +kernel)).of_eq (by decide +kernel)).fields (by decide)
  have huses : Part 123 ["uses"] true [.field "uses" (.text "actions/setup-node@v4")] :=
    .formatField (by decide) (.text (by decide))
  have hwith : Part 123 ["with"] true [.field "with" (.fields (wordLines steadyWords))] :=
    .formatField (by decide) (hwords 121)
  have hstep : Items 124 true [.fields steadyStep] :=
    Items.fields (huses.append hwith) (by decide) (List.cons_ne_nil _ _)
  have hsteps : Part 125 ["steps"] true [.field "steps" (.list [.fields steadyStep])] :=
    .formatField (by decide) hstep.list
  have hbuild : Part 126 ["build"] true
      [.field "build" (.fields [.field "steps" (.list [.fields steadyStep])])] :=
    .formatField (by decide) (hsteps.fields (by decide))
  have hjobs : Part 127 ["jobs"] true [.field "jobs" (.fields
      [.field "build" (.fields [.field "steps" (.list [.fields steadyStep])])])] :=
    .formatField (by decide) (hbuild.fields (by decide))
  have henv : Part 127 ["env"] true [.field "env" (.fields (wordLines steadyWords))] :=
    .formatField (by decide) (hwords 125)
  exact (henv.append hjobs).fields (by decide)

theorem read_words_iff_steadyLines :
    Written Document.maxDepth true (.fields steadyLines) ∧
      GivesWords steadyLines steadyWords "actions/setup-node@v4" ∧
      (∀ e ∈ steadyWords, isNumberWord e.2 = true) ∧ (steadyWords.map (·.1)).Nodup ∧
      ∃ p, Github.read {} (print steadyLines) = .ok p ∧ p.environment.entries = steadyWords ∧
        ∃ j ∈ p.jobs, ∃ s ∈ j.steps, ∃ inputs, s.action = .uses "actions/setup-node@v4" inputs ∧
          inputs.entries = steadyWords := by
  have hgives : GivesWords steadyLines steadyWords "actions/setup-node@v4" :=
    ⟨by simp [steadyLines], _, _, _, _, _, List.mem_cons_of_mem _ (List.mem_cons_self ..),
      List.mem_cons_self .., List.mem_cons_self .., List.mem_cons_self .., List.mem_cons_self ..,
      List.mem_cons_of_mem _ (List.mem_cons_self ..)⟩
  have hwords : ∀ e ∈ steadyWords, isNumberWord e.2 = true := by decide +kernel
  have hprinted : ∀ e ∈ steadyWords, printedWord e.2 = e.2 := by decide +kernel
  obtain ⟨p, hread, henv, j, hj, s, hs, inputs, hinputs, hwith⟩ :=
    read_words_iff written_steadyLines hgives hwords (by decide) {}
  exact ⟨written_steadyLines, hgives, hwords, by decide, p, hread, henv.2 hprinted, j, hj, s, hs,
    inputs, hinputs, hwith.2 hprinted⟩

/-- The version 3.10 in the environment of a workflow is read as 3.1. -/
theorem environment_version :
    (Github.read {} "env:\n  PYTHON: 3.10\n").toOption.map (·.environment.entries) =
      some [("PYTHON", "3.1")] := by
  decide +kernel

end Outline
end CiPipelines
