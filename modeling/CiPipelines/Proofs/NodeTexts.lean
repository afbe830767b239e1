import CiPipelines.Model.Node
import CiPipelines.Proofs.PipelineTexts

/-!
# All texts of a file

What is known of every text and every key of a file is known of whatever a reader takes out of it:
of its items and fields, of the texts that it asks for by key, and of variables.
-/

namespace CiPipelines
namespace Node

variable {text key : String → Prop}

/-- A node whose texts and keys are all as given. -/
inductive Holds (text key : String → Prop) : Node → Prop where
  | null : Holds text key .null
  | scalar {s : String} (hs : text s) : Holds text key (.scalar s)
  | list {items : List Node} (hitems : ∀ n ∈ items, Holds text key n) : Holds text key (.list items)
  | fields {entries : List (String × Node)} (hkeys : ∀ e ∈ entries, key e.1)
      (hvalues : ∀ e ∈ entries, Holds text key e.2) : Holds text key (.fields entries)

section

variable (text key) [DecidablePred text] [DecidablePred key]

mutual

/-- Whether the texts and keys of a node are all as given. -/
def holds : Node → Bool
  | .null => true
  | .scalar s => decide (text s)
  | .list items => itemsHold items
  | .fields entries => entriesHold entries

/-- Whether those of some items are. -/
def itemsHold : List Node → Bool
  | [] => true
  | n :: rest => holds n && itemsHold rest

/-- Whether those of some entries are. -/
def entriesHold : List (String × Node) → Bool
  | [] => true
  | (name, n) :: rest => decide (key name) && holds n && entriesHold rest

end

mutual

theorem Holds.of_holds : ∀ n : Node, holds text key n = true → n.Holds text key
  | .null, _ => .null
  | .scalar _, h => .scalar (of_decide_eq_true h)
  | .list items, h => .list (forall_of_itemsHold items h)
  | .fields entries, h =>
    .fields (fun e he => (forall_of_entriesHold entries h e he).1) fun e he =>
      (forall_of_entriesHold entries h e he).2

theorem forall_of_itemsHold : ∀ items : List Node, itemsHold text key items = true →
    ∀ n ∈ items, n.Holds text key
  | [], _ => nofun
  | n :: rest, h => by
    obtain ⟨hfirst, hrest⟩ := Bool.and_eq_true_iff.1 h
    exact List.forall_mem_cons.2 ⟨Holds.of_holds n hfirst, forall_of_itemsHold rest hrest⟩

theorem forall_of_entriesHold : ∀ entries : List (String × Node), entriesHold text key entries = true →
    ∀ e ∈ entries, key e.1 ∧ e.2.Holds text key
  | [], _ => nofun
  | (name, n) :: rest, h => by
    obtain ⟨hfirst, hrest⟩ := Bool.and_eq_true_iff.1 h
    obtain ⟨hname, hn⟩ := Bool.and_eq_true_iff.1 hfirst
    exact List.forall_mem_cons.2 ⟨⟨of_decide_eq_true hname, Holds.of_holds n hn⟩,
      forall_of_entriesHold rest hrest⟩

end

end

namespace Holds

variable {n : Node} (h : n.Holds text key)

include h

theorem entries : ∀ e ∈ n.entries, key e.1 ∧ e.2.Holds text key := by
  intro e he
  cases h with
  | fields hkeys hvalues => exact ⟨hkeys e he, hvalues e he⟩
  | _ => exact absurd he List.not_mem_nil

theorem items : ∀ m ∈ n.items, m.Holds text key := by
  intro m hm
  cases h with
  | list hitems => exact hitems m hm
  | _ => exact absurd hm List.not_mem_nil

theorem text? : ∀ s ∈ n.text?, text s := by
  intro s hs
  cases h with
  | scalar htext =>
    obtain rfl := Option.some.inj hs
    exact htext
  | _ => exact absurd hs (Option.not_mem_none s)

theorem texts : ∀ s ∈ n.texts, text s := by
  intro s hs
  cases h with
  | scalar htext =>
    obtain rfl := List.mem_singleton.1 hs
    exact htext
  | list hitems =>
    obtain ⟨m, hm, hs⟩ := List.mem_filterMap.1 hs
    exact (hitems m hm).text? s hs
  | _ => exact absurd hs List.not_mem_nil

theorem get? (name : String) : ∀ m ∈ n.get? name, m.Holds text key :=
  fun m hm => (h.entries (name, m) (KeyTable.mem_of_lookup (Option.mem_def.1 hm))).2

theorem textAt? (name : String) : ∀ s ∈ n.textAt? name, text s := by
  intro s hs
  obtain ⟨m, hm, hs⟩ := Option.bind_eq_some_iff.1 hs
  exact (h.get? name m hm).text? s hs

/-- What holds of the texts of a file and of a usual text holds of a text by key. -/
theorem textAt?_getD (name : String) {usual : String} (husual : text usual) :
    text ((n.textAt? name).getD usual) := by
  cases hget : n.textAt? name with
  | none => exact husual
  | some s => exact h.textAt? name s hget

theorem textsAt (name : String) : ∀ s ∈ n.textsAt name, text s := by
  intro s hs
  rw [Node.textsAt] at hs
  cases hget : n.get? name with
  | none => exact absurd (hget ▸ hs) List.not_mem_nil
  | some m =>
    rw [hget] at hs
    exact (h.get? name m hget).texts s hs

theorem itemsAt (name : String) : ∀ m ∈ n.itemsAt name, m.Holds text key := by
  intro m hm
  rw [Node.itemsAt] at hm
  cases hget : n.get? name with
  | none => exact absurd (hget ▸ hm) List.not_mem_nil
  | some list =>
    rw [hget] at hm
    exact (h.get? name list hget).items m hm

theorem entriesAt (name : String) : ∀ e ∈ n.entriesAt name, key e.1 ∧ e.2.Holds text key := by
  intro e he
  rw [Node.entriesAt] at he
  cases hget : n.get? name with
  | none => exact absurd (hget ▸ he) List.not_mem_nil
  | some m =>
    rw [hget] at he
    exact (h.get? name m hget).entries e he

/-- Variables are named by keys, and a variable without a value is empty. -/
theorem vars (hempty : text "") :
    (∀ name ∈ n.vars.names, key name) ∧ ∀ e ∈ n.vars.entries, text e.2 := by
  have hentry : ∀ e ∈ n.vars.entries, key e.1 ∧ text e.2 := by
    intro e he
    have hmem := (Vars.mem_entries_insertAll he).resolve_left List.not_mem_nil
    obtain ⟨⟨name, value⟩, hentry, heq⟩ := List.mem_filterMap.1 hmem
    obtain ⟨hname, hvalue⟩ := h.entries (name, value) hentry
    -- Only a field that is a text or empty is a variable.
    cases value with
    | null =>
      obtain rfl := Option.some.inj heq
      exact ⟨hname, hempty⟩
    | scalar s =>
      obtain rfl := Option.some.inj heq
      exact ⟨hname, hvalue.text? s rfl⟩
    | list items => cases heq
    | fields entries => cases heq
  constructor
  · intro name hname
    obtain ⟨e, he, rfl⟩ := List.mem_map.1 hname
    exact (hentry e he).1
  · exact fun e he => (hentry e he).2

theorem varsAt (hempty : text "") (name : String) :
    (∀ own ∈ (n.varsAt name).names, key own) ∧
      ∀ e ∈ (n.varsAt name).entries, text e.2 := by
  rw [Node.varsAt]
  cases hget : n.get? name with
  | none =>
    constructor
    · exact fun own hown => absurd hown List.not_mem_nil
    · exact fun e he => absurd he List.not_mem_nil
  | some m => exact (h.get? name m hget).vars hempty

end Holds
end Node
end CiPipelines
