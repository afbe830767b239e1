import CiPipelines.PipelineFile
import CiPipelines.Proofs.OutlineNodes
import CiPipelines.Proofs.OutlineParts

/-!
# Fields of printed outlines

What readers find of the pieces that writers lay documents with: the nodes of optional fields, of
lists of texts and of variables.
-/

namespace CiPipelines

open Yaml

namespace Outline

/-! ## Documents -/

section

variable {fits : Bool} {lines : List (Line Outline)}
  (h : Written Document.maxDepth fits (.fields lines))

include h

/-- A document that was written is read as its data, provided its keys are short enough. -/
theorem Written.ofYaml?_print :
    Node.ofYaml? (print lines) = if fits then some (node (.fields lines)) else none := by
  have hfits : linesFit lines = fits := h.keysFit_eq
  rw [Outline.ofYaml?_print h.sound, hfits]

/-- A pipeline file that was written has its fields, provided its keys are short enough. -/
theorem Written.ofPipelineFile_print : Node.ofPipelineFile (print lines) =
    if fits then .ok (.fields (lineNodes lines)) else .error .notYaml := by
  rw [Node.ofPipelineFile, h.ofYaml?_print]
  cases fits with
  | false => rfl
  | true =>
    rw [if_pos rfl, if_pos rfl, node_fields]
    by_cases hnil : lineNodes lines = []
    · rw [if_pos hnil, hnil]
    · rw [if_neg hnil]

end

/-! ## The nodes of optional fields -/

/-- The field of a list of texts, if there are any. -/
def listNode? (items : List String) : Option Node :=
  if items.isEmpty then none else some (.list (items.map .scalar))

/-- The field of some variables, if there are any. -/
def varsNode? (vars : Vars) : Option Node :=
  if vars.isEmpty then none else some (.fields (vars.entries.map fun e => (e.1, .scalar e.2)))

theorem node_values {items : List String} (h : items ≠ []) :
    node (.list (items.map .value)) = .list (items.map .scalar) := by
  rw [node_list (by simpa using h), List.map_map]
  rfl

theorem lookup_single {key other : String} {n : Node} :
    ([(key, n)] : List (String × Node)).lookup other = if other = key then some n else none := by
  by_cases heq : other = key
  · simp [heq]
  · have hbeq : (other == key) = false := by simpa using heq
    simp [List.lookup_cons, hbeq, heq]

@[simp] theorem get?_fields (entries : List (String × Node)) (key : String) :
    (Node.fields entries).get? key = entries.lookup key := rfl

@[simp] theorem get?_node_fields (lines : List (Line Outline)) (key : String) :
    (node (.fields lines)).get? key = (lineNodes lines).lookup key := by
  rw [Node.get?, entries_node_fields]

@[simp] theorem text?_scalar (s : String) : (Node.scalar s).text? = some s := rfl

@[simp] theorem text?_node_fields (lines : List (Line Outline)) :
    (node (.fields lines)).text? = none := by
  rw [node_fields]
  split <;> rfl

/-- A field that is there unless a condition holds. -/
@[simp] theorem lookup_unless {absent : Prop} [Decidable absent] (key other : String)
    (body : Outline) : (lineNodes (if absent then [] else [.field key body])).lookup other =
      if other = key then (if absent then none else some body.node) else none := by
  split <;> simp [lookup_single]

/-- A field that is there if a condition holds. -/
@[simp] theorem lookup_when {present : Prop} [Decidable present] (key other : String)
    (body : Outline) : (lineNodes (if present then [.field key body] else [])).lookup other =
      if other = key then (if present then some body.node else none) else none := by
  split <;> simp [lookup_single]

@[simp] theorem lookup_textField (key other : String) (s : Option String) :
    (lineNodes (textField key s)).lookup other = if other = key then s.map .scalar else none := by
  cases s with
  | none => simp [textField]
  | some s => simp [textField, lookup_single]

@[simp] theorem lookup_valueField (key other : String) (s : Option String) :
    (lineNodes (valueField key s)).lookup other = if other = key then s.map .scalar else none := by
  cases s with
  | none => simp [valueField]
  | some s => simp [valueField, lookup_single]

theorem node_texts {items : List String} (h : ¬items.isEmpty = true) :
    node (.list (items.map .text)) = .list (items.map .scalar) := by
  rw [node_list (by simpa using h), List.map_map]
  rfl

@[simp] theorem lookup_listField (key other : String) (items : List String) :
    (lineNodes (listField key items)).lookup other =
      if other = key then listNode? items else none := by
  unfold listField listNode?
  split
  · simp
  · rename_i hne
    simp [lookup_single, node_texts hne]

theorem lineNodes_varLines (vars : Vars) :
    lineNodes (varLines vars) = vars.entries.map fun e => (e.1, .scalar e.2) := by
  have hnodes : ∀ entries : List (String × String),
      lineNodes (entries.map fun e => .field e.1 (.value e.2)) =
        entries.map fun e => (e.1, .scalar e.2) := by
    intro entries
    induction entries with
    | nil => rfl
    | cons entry entries ih => simp [ih]
  exact hnodes vars.entries

theorem node_vars {vars : Vars} (h : ¬vars.isEmpty = true) :
    node (.fields (varLines vars)) = .fields (vars.entries.map fun e => (e.1, .scalar e.2)) := by
  rw [node_fields, lineNodes_varLines, if_neg]
  intro hnil
  exact h (List.isEmpty_iff.2 (List.map_eq_nil_iff.1 hnil))

@[simp] theorem lookup_varsField (key other : String) (vars : Vars) :
    (lineNodes (varsField key vars)).lookup other =
      if other = key then varsNode? vars else none := by
  unfold varsField varsNode?
  split
  · simp
  · rename_i hne
    simp [lookup_single, node_vars hne]

@[simp] theorem listNode?_items (items : List String) :
    ((listNode? items).map Node.items).getD [] = items.map .scalar := by
  unfold listNode?
  split
  · rename_i hempty
    rw [List.isEmpty_iff.1 hempty]
    rfl
  · rfl

@[simp] theorem map_scalar_bind_text? (s : Option String) :
    (s.map Node.scalar).bind Node.text? = s := by
  cases s <;> rfl

@[simp] theorem listNode?_texts (items : List String) :
    ((listNode? items).map Node.texts).getD [] = items := by
  unfold listNode?
  split
  · rename_i hempty
    exact (List.isEmpty_iff.1 hempty).symm
  · simp [Node.texts, List.filterMap_map, Function.comp_def, Node.text?]

/-- Values that are each read back are read back as a list. -/
theorem filterMap_written {α β : Type} {xs : List α} {write : α → β} {read : β → Option α}
    (h : ∀ x ∈ xs, read (write x) = some x) : (xs.map write).filterMap read = xs := by
  induction xs with
  | nil => rfl
  | cons x xs ih =>
    rw [List.map_cons, List.filterMap_cons, h x (List.mem_cons_self ..),
      ih fun y hy => h y (List.mem_cons_of_mem _ hy)]

/-- The texts of the fields of a mapping of variables are the variables. -/
theorem ofList_scalars (vars : Vars) {f : String × Node → Option (String × String)}
    (h : ∀ e : String × String, f (e.1, .scalar e.2) = some e) :
    Vars.ofList ((vars.entries.map fun e => (e.1, .scalar e.2)).filterMap f) = vars := by
  rw [filterMap_written fun e _ => h e, Vars.ofList_entries]

@[simp] theorem varsNode?_vars (vars : Vars) :
    ((varsNode? vars).map Node.vars).getD .empty = vars := by
  unfold varsNode?
  split
  · rename_i hempty
    exact Vars.ext_entries (List.isEmpty_iff.1 hempty).symm
  · exact ofList_scalars vars fun _ => rfl

/-- A field for each of some values. -/
theorem lineNodes_map_field {α : Type} (xs : List α) (key : α → String) (body : α → Outline) :
    lineNodes (xs.map fun x => .field (key x) (body x)) = xs.map fun x => (key x, (body x).node) := by
  induction xs with
  | nil => rfl
  | cons x xs ih => simp [ih]

/-! ## The keys of nodes -/

/-- The fields of a mapping have its keys. -/
theorem map_fst_lineNodes (lines : List (Line Outline)) :
    (lineNodes lines).map (·.1) = lineKeys lines := by
  induction lines with
  | nil => rfl
  | cons line lines ih =>
    cases line with
    | field key body => simpa [lineKeys] using ih
    | comment note => exact ih
    | empty => exact ih

/-- A mapping with a field is read as fields. -/
theorem isFields_node_fields {lines : List (Line Outline)} (h : lineKeys lines ≠ []) :
    (node (.fields lines)).isFields = true := by
  rw [node_fields, if_neg]
  · rfl
  · intro hnil
    rw [← map_fst_lineNodes, hnil] at h
    exact h rfl

/-! ## Empty lines -/

theorem lineNodes_intersperse (lines : List (Line Outline)) :
    lineNodes (lines.intersperse .empty) = lineNodes lines := by
  fun_induction List.intersperse Line.empty lines with
  | case1 => rfl
  | case2 line => rfl
  | case3 line lines hne ih => cases line <;> simp [ih]

/-- Fields with an empty line in front of each. -/
theorem lineNodes_flatMap {α : Type} (xs : List α) (key : α → String) (body : α → Outline) :
    lineNodes (xs.flatMap fun x => [.empty, .field (key x) (body x)]) =
      xs.map fun x => (key x, (body x).node) := by
  induction xs with
  | nil => rfl
  | cons x xs ih => simp [ih]

@[simp] theorem lineNodes_varsParagraph (key : String) (vars : Vars) :
    lineNodes (varsParagraph key vars) = lineNodes (varsField key vars) := by
  cases hempty : vars.isEmpty <;> simp [varsParagraph, varsField, hempty]

end Outline
end CiPipelines
