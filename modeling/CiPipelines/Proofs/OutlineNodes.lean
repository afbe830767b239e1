import CiPipelines.Model.Node
import CiPipelines.Proofs.OutlineTrees

/-!
# What a printed outline means

The plain data of a printed outline.  A sound outline has no merge keys, so its text is read as
the data of its parts; comments and empty lines leave no trace.
-/

namespace CiPipelines

open Yaml

namespace Outline

/-- A collection of values; null if there are none. -/
def blockValue {β : Type} (collection : List β → Value) : List β → Value
  | [] => .null
  | part :: rest => collection (part :: rest)

mutual

/-- The value of an outline. -/
def meaning : Outline → Value
  | .nothing => .null
  | .word w => (wordValue? w).getD .null
  | .text s => .text s
  | .value s => .text s
  | .list items => blockValue .sequence (itemMeanings items)
  | .fields lines => blockValue .mapping (lineMeanings lines)

/-- The values of the items of a list. -/
def itemMeanings : List Outline → List Value
  | [] => []
  | item :: rest => item.meaning :: itemMeanings rest

/-- The entries of a mapping. -/
def lineMeanings : List (Line Outline) → Entries
  | [] => []
  | .field key body :: rest => (.text key, body.meaning) :: lineMeanings rest
  | .comment _ :: rest => lineMeanings rest
  | .empty :: rest => lineMeanings rest

end

/-- The plain data of an outline. -/
def node (o : Outline) : Node := Node.ofValue o.meaning

/-- The fields of some lines. -/
def lineNodes (lines : List (Line Outline)) : List (String × Node) :=
  Node.ofEntries (lineMeanings lines)

/-! ## Values of trees -/

/-- A scalar of a style other than plain is a text. -/
theorem value_quoted (d : Document) (levels left : Nat) {style : Style} (s : String)
    (h : style = .plain → Value.ofPlain? s = some (.text s)) :
    (d.value levels (.scalar .none style s)).run left = some (.text s, left) := by
  rw [Document.value_scalar]
  by_cases hstyle : style = .plain
  · rw [hstyle]
    simp [Properties.none, Value.ownTag?, Value.ofScalar?, h hstyle, Value.withTag]
  · simp [Properties.none, Value.ownTag?, Value.ofScalar?, hstyle, Value.withTag]

theorem ofPlain?_of_inlineStyle {s : String} (hs : Text.OrdinaryChars s.toList)
    (h : inlineStyle s = .plain) : Value.ofPlain? s = some (.text s) := by
  unfold inlineStyle at h
  split at h
  · simp at h
  · rename_i hcontrol
    split at h
    · rename_i hplain
      refine (isPlainText_of_isPlain (fun c hc => ?_) hplain).2
      cases hbreak : isBreak c with
      | false => rfl
      | true =>
        rw [Text.isBreak_of_isOrdinary (hs c hc), beq_iff_eq] at hbreak
        exact absurd (List.any_eq_true.2 ⟨c, hc, by rw [hbreak]; decide⟩) hcontrol
    · simp at h

theorem ofPlain?_of_valueStyle {s : String} (hs : Text.OrdinaryChars s.toList)
    (h : valueStyle s = .plain) : Value.ofPlain? s = some (.text s) := by
  unfold valueStyle at h
  split at h
  · simp at h
  · exact ofPlain?_of_inlineStyle hs h

theorem value_empty (d : Document) (levels left : Nat) :
    (d.value levels .empty).run left = some (.null, left) := by
  rw [Yaml.Tree.empty, Document.value_scalar]
  rfl

theorem value_word (d : Document) (levels left : Nat) {w : String} (h : IsWord w) :
    (d.value (levels + 1) (Outline.word w).tree).run left =
      some ((Outline.word w).meaning, left) := by
  obtain ⟨v, hv⟩ := Option.isSome_iff_exists.1 h.value
  rw [tree, meaning, hv]
  unfold wordValue? at hv
  cases hbrackets : Brackets.ofWord? w with
  | some b =>
    rw [hbrackets] at hv
    obtain rfl := Option.some.inj hv
    cases b with
    | square =>
      show (d.value (levels + 1) (.sequence .none [])).run left = _
      rw [Document.value_sequence]
      rfl
    | curly =>
      show (d.value (levels + 1) (.mapping .none [])).run left = _
      rw [Document.value_mapping]
      rfl
  | none =>
    rw [hbrackets] at hv
    rw [Document.value_scalar]
    simp [Properties.none, Value.ownTag?, Value.ofScalar?, hv, Value.withTag]

/-- The items of a list have their values. -/
theorem value_itemTrees (d : Document) {levels : Nat} {items : List Outline}
    (h : ∀ item ∈ items, ∀ left, (d.value levels item.tree).run left = some (item.meaning, left))
    (left : Nat) :
    ((itemTrees items).mapM (d.value levels)).run left = some (itemMeanings items, left) := by
  induction items with
  | nil => rfl
  | cons item items ih =>
    have hitem := h item (List.mem_cons_self ..) left
    have ih := ih fun other hother => h other (List.mem_cons_of_mem _ hother)
    rw [itemTrees, itemMeanings, List.mapM_cons, StateT.run_bind, hitem, Option.bind_eq_bind,
      Option.bind_some, StateT.run_bind, ih]
    rfl

/-- The fields of a mapping have their values, behind those that have been read. -/
theorem value_lineTrees (d : Document) {levels : Nat} {lines : List (Line Outline)}
    (hbodies : ∀ key body, .field key body ∈ lines → ∀ left,
      (d.value levels body.tree).run left = some (body.meaning, left))
    (hkeys : ∀ key body, .field key body ∈ lines → Text.OrdinaryChars key.toList)
    (hnodup : (lineKeys lines).Nodup) {read : Entries}
    (hread : ∀ entry ∈ read, ∃ s, entry.1 = .text s ∧ s ∉ lineKeys lines) (left : Nat) :
    ((lineTrees lines).foldlM (fun (read : Entries) (entry : Yaml.Tree Nat × Yaml.Tree Nat) => do
        let key ← d.value levels entry.1
        if read.any fun other => key.same other.1 then failure
        else do
          let value ← d.value levels entry.2
          return read ++ [(key, value)]) read).run left =
      some (read ++ lineMeanings lines, left) := by
  -- What has been read grows by the keys that the lines below no longer have.
  induction lines generalizing read with
  | nil => rw [lineMeanings, List.append_nil]; rfl
  | cons line lines ih =>
    have hbodies' := fun key body h => hbodies key body (List.mem_cons_of_mem _ h)
    have hkeys' := fun key body h => hkeys key body (List.mem_cons_of_mem _ h)
    cases line with
    | field key body =>
      have hlineKeys : lineKeys (.field key body :: lines) = key :: lineKeys lines := rfl
      rw [hlineKeys] at hnodup hread
      obtain ⟨hnew, hnodup⟩ := List.nodup_cons.1 hnodup
      have hkey : (d.value levels (.scalar .none (inlineStyle key) key)).run left =
          some (.text key, left) :=
        value_quoted d levels left key
          (ofPlain?_of_inlineStyle (hkeys key body (List.mem_cons_self ..)))
      have hbody := hbodies key body (List.mem_cons_self ..) left
      have hfresh : ¬(read.any fun other => (Value.text key).same other.1) = true := by
        intro hany
        obtain ⟨entry, hentry, hsame⟩ := List.any_eq_true.1 hany
        obtain ⟨s, hs, hnot⟩ := hread entry hentry
        rw [hs] at hsame
        have heq : key = s := by simpa [Value.same] using hsame
        exact hnot (heq ▸ List.mem_cons_self ..)
      have hread' : ∀ entry ∈ read ++ [(.text key, body.meaning)],
          ∃ s, entry.1 = .text s ∧ s ∉ lineKeys lines := by
        intro entry hentry
        rcases List.mem_append.1 hentry with hentry | hentry
        · obtain ⟨s, hs, hnot⟩ := hread entry hentry
          exact ⟨s, hs, fun hmem => hnot (List.mem_cons_of_mem _ hmem)⟩
        · rw [List.mem_singleton.1 hentry]
          exact ⟨key, rfl, hnew⟩
      rw [lineTrees, lineMeanings, List.foldlM_cons, StateT.run_bind, StateT.run_bind, hkey]
      simp only [Option.bind_eq_bind, Option.bind_some, if_neg hfresh, StateT.run_bind, hbody,
        StateT.run_pure, Option.pure_def]
      rw [ih hbodies' hkeys' hnodup hread', List.append_assoc]
      rfl
    | comment note => exact ih hbodies' hkeys' hnodup hread
    | empty => exact ih hbodies' hkeys' hnodup hread

theorem lineTrees_eq_nil {lines : List (Line Outline)} :
    lineMeanings lines = [] ↔ (lineTrees lines : List (Yaml.Tree Nat × Yaml.Tree Nat)) = [] := by
  induction lines with
  | nil => simp [lineMeanings, lineTrees]
  | cons line lines ih => cases line <;> simp [lineMeanings, lineTrees, ih]

/-- The tree of a sound outline has the value of the outline. -/
theorem Sound.value_tree {levels : Nat} {o : Outline} (h : Sound levels o) (d : Document)
    (left : Nat) : (d.value levels o.tree).run left = some (o.meaning, left) := by
  induction h generalizing left with
  | nothing => exact value_empty d _ left
  | word hword => exact value_word d _ left hword
  | text hs => exact value_quoted d _ left _ (ofPlain?_of_inlineStyle hs)
  | value hs => exact value_quoted d _ left _ (ofPlain?_of_valueStyle hs.chars)
  | @list levels items hitems hlines ih =>
    cases items with
    | nil => exact value_empty d _ left
    | cons item items =>
      have hvalues := value_itemTrees d (fun item hitem => ih item hitem) left
      have htree : (Outline.list (item :: items)).tree =
          .sequence .none (itemTrees (item :: items) : List (Yaml.Tree Nat)) := rfl
      rw [htree, Document.value_sequence, StateT.run_bind, hvalues]
      rfl
  | @fields levels lines hbodies hkeys hnodup hnotes ih =>
    have hvalues := value_lineTrees d (fun key body h => ih key body h)
      (fun key body h => (hkeys key body h).1) hnodup
      (fun entry hentry => absurd hentry List.not_mem_nil) left
    rw [tree, meaning]
    -- Comments alone make no mapping; they are read as an empty node.
    cases htrees : (lineTrees lines : List (Yaml.Tree Nat × Yaml.Tree Nat)) with
    | nil =>
      rw [lineTrees_eq_nil.2 htrees]
      exact value_empty d _ left
    | cons entry entries =>
      rw [blockTree, ← htrees, Document.value_mapping, StateT.run_bind, hvalues]
      cases hmeanings : lineMeanings lines with
      | nil => simp [lineTrees_eq_nil.1 hmeanings] at htrees
      | cons entry entries => rfl

/-! ## Merge keys -/

/-- A value without merge keys is resolved as it is, down to each level. -/
def Resolved (v : Value) : Prop := ∀ levels, v.resolve? levels = some v

theorem resolved_ofPlain? {s : String} {v : Value} (h : Value.ofPlain? s = some v) :
    Resolved v := by
  intro levels
  cases scalarValue_of_ofPlain? h <;> cases levels <;> rfl

theorem resolved_text (s : String) : Resolved (.text s) := fun levels => by
  cases levels <;> rfl

theorem resolved_null : Resolved .null := fun levels => by
  cases levels <;> rfl

theorem resolved_sequence {items : List Value} (h : ∀ v ∈ items, Resolved v) :
    Resolved (.sequence items) := by
  intro levels
  cases levels with
  | zero => rfl
  | succ levels =>
    have hitems : items.mapM (Value.resolve? levels) = some items := by
      induction items with
      | nil => rfl
      | cons v items ih =>
        rw [List.mapM_cons, h v (List.mem_cons_self ..),
          ih fun other hother => h other (List.mem_cons_of_mem _ hother)]
        rfl
    rw [Value.resolve?, hitems]
    rfl

theorem resolved_mapping {entries : Entries}
    (h : ∀ entry ∈ entries, Entries.isMerge entry = false ∧ Resolved entry.2) :
    Resolved (.mapping entries) := by
  intro levels
  cases levels with
  | zero => rfl
  | succ levels =>
    have hmerge : Value.resolveEntries? entries = some entries := by
      have hfind : entries.find? Entries.isMerge = none :=
        List.find?_eq_none.2 fun entry hentry => by simp [(h entry hentry).1]
      rw [Value.resolveEntries?, Entries.merge?, hfind]
      rfl
    have hentries : (entries.mapM fun e => do return (e.1, ← Value.resolve? levels e.2)) =
        some entries := by
      clear hmerge
      induction entries with
      | nil => rfl
      | cons entry entries ih =>
        rw [List.mapM_cons, (h entry (List.mem_cons_self ..)).2,
          ih fun other hother => h other (List.mem_cons_of_mem _ hother)]
        rfl
    rw [Value.resolve?, hmerge, Option.bind_eq_bind, Option.bind_some, hentries]
    rfl

theorem resolved_itemMeanings {items : List Outline}
    (h : ∀ item ∈ items, Resolved item.meaning) : ∀ v ∈ itemMeanings items, Resolved v := by
  induction items with
  | nil => exact fun v hv => absurd hv List.not_mem_nil
  | cons item items ih =>
    intro v hv
    rcases List.mem_cons.1 hv with rfl | hv
    · exact h item (List.mem_cons_self ..)
    · exact ih (fun other hother => h other (List.mem_cons_of_mem _ hother)) v hv

theorem resolved_lineMeanings {lines : List (Line Outline)}
    (hbodies : ∀ key body, .field key body ∈ lines → Resolved body.meaning)
    (hkeys : ∀ key body, .field key body ∈ lines → key ≠ "<<") :
    ∀ entry ∈ lineMeanings lines, Entries.isMerge entry = false ∧ Resolved entry.2 := by
  induction lines with
  | nil => exact fun v hv => absurd hv List.not_mem_nil
  | cons line lines ih =>
    have ih := ih (fun key body h => hbodies key body (List.mem_cons_of_mem _ h))
      fun key body h => hkeys key body (List.mem_cons_of_mem _ h)
    cases line with
    | field key body =>
      intro entry hentry
      rcases List.mem_cons.1 hentry with rfl | hentry
      · exact ⟨beq_eq_false_iff_ne.2 (hkeys key body (List.mem_cons_self ..)),
          hbodies key body (List.mem_cons_self ..)⟩
      · exact ih entry hentry
    | comment note => exact ih
    | empty => exact ih

/-- A sound outline holds no merge keys. -/
theorem Sound.resolved {levels : Nat} {o : Outline} (h : Sound levels o) :
    Resolved o.meaning := by
  induction h with
  | nothing => exact resolved_null
  | @word levels w hword =>
    obtain ⟨v, hv⟩ := Option.isSome_iff_exists.1 hword.value
    rw [meaning, hv]
    unfold wordValue? at hv
    cases hbrackets : Brackets.ofWord? w with
    | some b =>
      rw [hbrackets] at hv
      obtain rfl := Option.some.inj hv
      cases b with
      | square => exact resolved_sequence fun v hv => absurd hv List.not_mem_nil
      | curly => exact resolved_mapping fun entry hentry => absurd hentry List.not_mem_nil
    | none =>
      rw [hbrackets] at hv
      exact resolved_ofPlain? hv
  | text hs => exact resolved_text _
  | value hs => exact resolved_text _
  | @list levels items hitems hlines ih =>
    rw [meaning]
    cases hmeanings : itemMeanings items with
    | nil => exact resolved_null
    | cons v vs => exact resolved_sequence (hmeanings ▸ resolved_itemMeanings ih)
  | @fields levels lines hbodies hkeys hnodup hnotes ih =>
    rw [meaning]
    cases hmeanings : lineMeanings lines with
    | nil => exact resolved_null
    | cons entry entries =>
      exact resolved_mapping
        (hmeanings ▸ resolved_lineMeanings ih fun key body h => (hkeys key body h).2)

/-! ## Plain data -/

/-- A printed document is read as its data, provided its keys are short enough. -/
theorem ofYaml?_print {lines : List (Line Outline)}
    (h : Sound Document.maxDepth (.fields lines)) :
    Node.ofYaml? (print lines) =
      if linesFit lines then some (Outline.fields lines).node else none := by
  have hvalue : Value.ofText? (print lines).toList =
      if linesFit lines then some (Outline.fields lines).meaning else none := by
    rw [Value.ofText?, ofText?_print h]
    split
    · have hroot := h.value_tree (.ofRoot (Outline.fields lines).tree)
        (Document.ofRoot (Outline.fields lines).tree).allowance
      rw [Option.bind_eq_bind, Option.bind_some]
      rw [Document.ofRoot] at hroot ⊢
      rw [hroot]
      rfl
    · rfl
  rw [Node.ofYaml?, hvalue]
  split
  · rw [Option.bind_eq_bind, Option.bind_some, Value.resolveMerges?, h.resolved]
    rfl
  · rfl

@[simp] theorem node_nothing : node .nothing = .null := rfl

@[simp] theorem node_text (s : String) : node (.text s) = .scalar s := rfl

@[simp] theorem node_value (s : String) : node (.value s) = .scalar s := rfl

theorem ofItems_itemMeanings (items : List Outline) :
    Node.ofItems (itemMeanings items) = items.map node := by
  induction items with
  | nil => rfl
  | cons item items ih =>
    rw [itemMeanings, Node.ofItems, ih]
    rfl

theorem node_list_cons (item : Outline) (items : List Outline) :
    node (.list (item :: items)) = .list (node item :: items.map node) := by
  have hitems := ofItems_itemMeanings (item :: items)
  rw [itemMeanings] at hitems
  rw [node, meaning, itemMeanings, blockValue, Node.ofValue, hitems]
  rfl

theorem node_list {items : List Outline} (h : items ≠ []) :
    node (.list items) = .list (items.map node) := by
  obtain ⟨item, items, rfl⟩ := List.exists_cons_of_ne_nil h
  exact node_list_cons item items

@[simp] theorem lineNodes_nil : lineNodes [] = [] := rfl

@[simp] theorem lineNodes_field (key : String) (body : Outline) (lines : List (Line Outline)) :
    lineNodes (.field key body :: lines) = (key, body.node) :: lineNodes lines := by
  rw [lineNodes, lineMeanings, Node.ofEntries]
  rfl

@[simp] theorem lineNodes_comment (note : String) (lines : List (Line Outline)) :
    lineNodes (.comment note :: lines) = lineNodes lines := rfl

@[simp] theorem lineNodes_empty (lines : List (Line Outline)) :
    lineNodes (.empty :: lines) = lineNodes lines := rfl

@[simp] theorem lineNodes_append (a b : List (Line Outline)) :
    lineNodes (a ++ b) = lineNodes a ++ lineNodes b := by
  induction a with
  | nil => rfl
  | cons line a ih => cases line <;> simp [ih]

theorem lineMeanings_eq_nil {lines : List (Line Outline)} :
    lineMeanings lines = [] ↔ lineNodes lines = [] := by
  induction lines with
  | nil => simp [lineMeanings]
  | cons line lines ih => cases line <;> simp [lineMeanings, ih]

/-- A mapping is read as its fields, and as null if it has none. -/
theorem node_fields (lines : List (Line Outline)) :
    node (.fields lines) = if lineNodes lines = [] then .null else .fields (lineNodes lines) := by
  rw [node, meaning]
  split
  · rename_i hnil
    rw [lineMeanings_eq_nil.2 hnil]
    rfl
  · rename_i hne
    have hcons : blockValue Value.mapping (lineMeanings lines) = .mapping (lineMeanings lines) := by
      cases hmeanings : lineMeanings lines with
      | nil => exact absurd (lineMeanings_eq_nil.1 hmeanings) hne
      | cons entry entries => rfl
    rw [hcons, Node.ofValue]
    rfl

/-- The fields of a mapping, also of one without any. -/
@[simp] theorem entries_node_fields (lines : List (Line Outline)) :
    (node (.fields lines)).entries = lineNodes lines := by
  rw [node_fields]
  split
  · rename_i hnil
    rw [hnil]
    rfl
  · rfl

/-- The items of a list, also of one without any. -/
@[simp] theorem items_node_list (items : List Outline) :
    (node (.list items)).items = items.map node := by
  cases items with
  | nil => rfl
  | cons item items => rw [node_list_cons]; rfl

end Outline
end CiPipelines
