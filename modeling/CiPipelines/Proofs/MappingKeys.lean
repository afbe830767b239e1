import CiPipelines.Model.Node
import CiPipelines.Proofs.NodeValues
import Mathlib.Data.List.Forall2
import Mathlib.Data.List.Nodup

/-!
# Keys of mappings

A value may be asked to have only mappings with keys of some kind.  A document means a value in
whose mappings no two keys are the same text, and merging keeps that.  The names of plain data are
the texts of keys, also of keys that are no texts themselves; so names may come twice, but not where
each key with a text is a text.
-/

namespace CiPipelines
namespace Yaml

/-! ## Results of readers -/

section

variable {α β : Type}

/-- The results that a reader with an allowance may have. -/
def Gives (m : StateT Nat Option α) (a : α) : Prop :=
  ∃ left left', m.run left = some (a, left')

theorem Gives.bind {m : StateT Nat Option α} {f : α → StateT Nat Option β} {b : β}
    (h : Gives (m >>= f) b) : ∃ a, Gives m a ∧ Gives (f a) b := by
  obtain ⟨left, left', hrun⟩ := h
  rw [StateT.run_bind] at hrun
  obtain ⟨⟨a, middle⟩, hm, hf⟩ := Option.bind_eq_some_iff.1 hrun
  exact ⟨a, ⟨left, middle, hm⟩, middle, left', hf⟩

theorem Gives.of_pure {a b : α} (h : Gives (pure a) b) : b = a := by
  obtain ⟨left, left', hrun⟩ := h
  exact (Prod.mk.inj (Option.some.inj hrun)).1.symm

theorem not_gives_failure {a : α} : ¬Gives failure a := by
  rintro ⟨left, left', hrun⟩
  cases hrun

/-- Each result of a list of readers is that of one of them. -/
theorem Gives.of_mem_mapM {f : α → StateT Nat Option β} {xs : List α} {ys : List β}
    (h : Gives (xs.mapM f) ys) : ∀ y ∈ ys, ∃ x ∈ xs, Gives (f x) y := by
  induction xs generalizing ys with
  | nil =>
    rw [List.mapM_nil] at h
    obtain rfl := h.of_pure
    exact nofun
  | cons x xs ih =>
    rw [List.mapM_cons] at h
    obtain ⟨y, hy, h⟩ := h.bind
    obtain ⟨rest, hrest, h⟩ := h.bind
    obtain rfl := h.of_pure
    refine List.forall_mem_cons.2 ⟨⟨x, List.mem_cons_self .., hy⟩, fun z hz => ?_⟩
    obtain ⟨w, hw, hgives⟩ := ih hrest z hz
    exact ⟨w, List.mem_cons_of_mem _ hw, hgives⟩

/-- What each reader keeps holds in the end. -/
theorem Gives.of_foldlM {f : β → α → StateT Nat Option β} {xs : List α} {b c : β}
    {P : β → Prop} (hstep : ∀ b x c, P b → Gives (f b x) c → P c) (hb : P b)
    (h : Gives (xs.foldlM f b) c) : P c := by
  induction xs generalizing b with
  | nil =>
    rw [List.foldlM_nil] at h
    obtain rfl := h.of_pure
    exact hb
  | cons x xs ih =>
    rw [List.foldlM_cons] at h
    obtain ⟨middle, hmiddle, h⟩ := h.bind
    exact ih (hstep b x middle hb hmiddle) h

/-- The results of optional readers, one for each. -/
theorem forall₂_of_mapM {f : α → Option β} {xs : List α} {ys : List β}
    (h : xs.mapM f = some ys) : List.Forall₂ (fun x y => f x = some y) xs ys := by
  induction xs generalizing ys with
  | nil =>
    obtain rfl := Option.some.inj (List.mapM_nil.symm.trans h)
    exact .nil
  | cons x xs ih =>
    rw [List.mapM_cons] at h
    obtain ⟨y, hy, h⟩ := Option.bind_eq_some_iff.1 h
    obtain ⟨rest, hrest, h⟩ := Option.bind_eq_some_iff.1 h
    obtain rfl := Option.some.inj h
    exact .cons hy (ih hrest)

theorem exists_of_mem_mapM {f : α → Option β} {xs : List α} {ys : List β}
    (h : xs.mapM f = some ys) : ∀ y ∈ ys, ∃ x ∈ xs, f x = some y := by
  have hall := forall₂_of_mapM h
  clear h
  induction hall with
  | nil => exact nofun
  | cons hy _ ih =>
    refine List.forall_mem_cons.2 ⟨⟨_, List.mem_cons_self .., hy⟩, fun z hz => ?_⟩
    obtain ⟨x, hx, hz⟩ := ih z hz
    exact ⟨x, List.mem_cons_of_mem _ hx, hz⟩

end

namespace Value

/-! ## Kinds of keys -/

/-- All mappings of a value, other than those in keys, have keys of a kind. -/
inductive Keyed (P : List Value → Prop) : Value → Prop
  | null : Keyed P .null
  | bool (b : Bool) : Keyed P (.bool b)
  | integer (n : Int) : Keyed P (.integer n)
  | real (x : Real) : Keyed P (.real x)
  | text (s : String) : Keyed P (.text s)
  | sequence {items : List Value} (hitems : ∀ v ∈ items, Keyed P v) : Keyed P (.sequence items)
  | mapping {entries : Entries} (hkeys : P (entries.map (·.1)))
    (hvalues : ∀ e ∈ entries, Keyed P e.2) : Keyed P (.mapping entries)
  | tagged (tag : String) {v : Value} (hv : Keyed P v) : Keyed P (.tagged tag v)

section

variable {P Q R : List Value → Prop} {v : Value}

theorem keyed_mapping {entries : Entries} :
    Keyed P (.mapping entries) ↔ P (entries.map (·.1)) ∧ ∀ e ∈ entries, Keyed P e.2 := by
  refine ⟨fun h => ?_, fun ⟨hkeys, hvalues⟩ => .mapping hkeys hvalues⟩
  cases h with
  | mapping hkeys hvalues => exact ⟨hkeys, hvalues⟩

theorem Keyed.and_imp (himp : ∀ keys, P keys → Q keys → R keys) (hP : Keyed P v) (hQ : Keyed Q v) :
    Keyed R v := by
  induction hP with
  | null => exact .null
  | bool b => exact .bool b
  | integer n => exact .integer n
  | real x => exact .real x
  | text s => exact .text s
  | sequence _ ih =>
    cases hQ with
    | sequence hitems => exact .sequence fun v hv => ih v hv (hitems v hv)
  | mapping hkeys _ ih =>
    cases hQ with
    | mapping hkeys' hvalues =>
      exact .mapping (himp _ hkeys hkeys') fun e he => ih e he (hvalues e he)
  | tagged tag _ ih =>
    cases hQ with
    | tagged _ hv => exact .tagged tag (ih hv)

theorem Keyed.withTag (h : Keyed P v) (tag : Option Uri) : Keyed P (v.withTag tag) := by
  unfold Value.withTag
  split
  · exact .tagged _ h
  · exact h

/-- Scalars have no mappings. -/
theorem keyed_of_scalarValue {s : String} (h : ScalarValue s v) : Keyed P v := by
  cases h with
  | null => exact .null
  | bool b => exact .bool b
  | integer n => exact .integer n
  | real x => exact .real x
  | text => exact .text s

end

section

variable (P : List Value → Prop) [DecidablePred P]

mutual

/-- Whether all mappings of a value, other than those in keys, have keys of a kind. -/
def isKeyed : Value → Bool
  | .sequence items => areKeyed items
  | .mapping entries => decide (P (entries.map (·.1))) && valuesKeyed entries
  | .tagged _ v => isKeyed v
  | _ => true

/-- Whether all mappings of some values do. -/
def areKeyed : List Value → Bool
  | [] => true
  | v :: rest => isKeyed v && areKeyed rest

/-- Whether all mappings of the values of some entries do. -/
def valuesKeyed : List (Value × Value) → Bool
  | [] => true
  | (_, v) :: rest => isKeyed v && valuesKeyed rest

end

mutual

theorem keyed_of_isKeyed : ∀ v : Value, isKeyed P v = true → Keyed P v
  | .null, _ => .null
  | .bool b, _ => .bool b
  | .integer n, _ => .integer n
  | .real x, _ => .real x
  | .text s, _ => .text s
  | .sequence items, h => .sequence (keyed_of_areKeyed items h)
  | .mapping entries, h => by
    obtain ⟨hkeys, hvalues⟩ := Bool.and_eq_true_iff.1 h
    exact .mapping (of_decide_eq_true hkeys) (keyed_of_valuesKeyed entries hvalues)
  | .tagged tag v, h => .tagged tag (keyed_of_isKeyed v h)

theorem keyed_of_areKeyed : ∀ items : List Value, areKeyed P items = true →
    ∀ v ∈ items, Keyed P v
  | [], _ => nofun
  | v :: rest, h => by
    obtain ⟨hfirst, hrest⟩ := Bool.and_eq_true_iff.1 h
    exact List.forall_mem_cons.2 ⟨keyed_of_isKeyed v hfirst, keyed_of_areKeyed rest hrest⟩

theorem keyed_of_valuesKeyed : ∀ entries : Entries, valuesKeyed P entries = true →
    ∀ e ∈ entries, Keyed P e.2
  | [], _ => nofun
  | (_, v) :: rest, h => by
    obtain ⟨hfirst, hrest⟩ := Bool.and_eq_true_iff.1 h
    exact List.forall_mem_cons.2 ⟨keyed_of_isKeyed v hfirst, keyed_of_valuesKeyed rest hrest⟩

end

end

/-! ## Texts as keys -/

/-- The text that a value is, without a tag. -/
def text? : Value → Option String
  | .text s => some s
  | _ => none

theorem eq_text_of_text? {v : Value} {s : String} (h : v.text? = some s) : v = .text s := by
  cases v with
  | text t => exact congrArg _ (Option.some.inj h)
  | _ => cases h

/-- No two keys are the same text. -/
def DistinctTexts (keys : List Value) : Prop := (keys.filterMap text?).Nodup

/-- Each key that has a text is a text. -/
def PlainKeys (keys : List Value) : Prop := ∀ k ∈ keys, Node.scalarText? k = k.text?

instance : DecidablePred PlainKeys := fun keys =>
  inferInstanceAs (Decidable (∀ k ∈ keys, Node.scalarText? k = k.text?))

/-- No two keys have the same text. -/
def DistinctNames (keys : List Value) : Prop := (keys.filterMap Node.scalarText?).Nodup

theorem DistinctTexts.names {keys : List Value} (h : DistinctTexts keys) (hplain : PlainKeys keys) :
    DistinctNames keys := by
  rw [DistinctNames, List.filterMap_congr hplain]
  exact h

/-- A key that is none of the others can be put behind them. -/
theorem DistinctTexts.concat {keys : List Value} {k : Value} (h : DistinctTexts keys)
    (hnew : ∀ other ∈ keys, k.same other = false) : DistinctTexts (keys ++ [k]) := by
  rw [DistinctTexts, List.filterMap_append]
  cases htext : k.text? with
  | none =>
    rw [List.filterMap_cons_none htext, List.filterMap_nil, List.append_nil]
    exact h
  | some s =>
    obtain rfl := eq_text_of_text? htext
    have hfresh : s ∉ keys.filterMap text? := by
      intro hmem
      obtain ⟨other, hother, hs⟩ := List.mem_filterMap.1 hmem
      have hsame := hnew other hother
      rw [eq_text_of_text? hs, same, beq_self_eq_true] at hsame
      cases hsame
    rw [List.filterMap_cons_some htext, List.filterMap_nil]
    exact List.nodup_append.2 ⟨h, List.nodup_singleton s, fun a ha b hb heq =>
      hfresh (List.mem_singleton.1 hb ▸ heq ▸ ha)⟩

end Value

/-! ## Documents -/

namespace Document

variable {d : Document} {levels : Nat} {v : Value}

/-- An alias means what some other node means. -/
theorem exists_of_gives_alias {n : Nat} (h : Gives (d.value levels (.alias n)) v) :
    ∃ target, (∀ m, target ≠ .alias m) ∧ Gives (d.value levels target) v := by
  rw [value_alias] at h
  obtain ⟨target, -, h⟩ := h.bind
  cases target with
  | «alias» m => exact absurd h not_gives_failure
  | scalar p style s => exact ⟨.scalar p style s, nofun, h⟩
  | sequence p items => exact ⟨.sequence p items, nofun, h⟩
  | mapping p entries => exact ⟨.mapping p entries, nofun, h⟩

/-- The entries of a mapping are collected with keys that are different texts. -/
theorem keyed_entries {entries : List (Tree Nat × Tree Nat)} {collected : Entries}
    (hbelow : ∀ {v t}, Gives (d.value levels t) v → v.Keyed Value.DistinctTexts)
    (h : Gives (entries.foldlM (fun read entry => do
        let key ← d.value levels entry.1
        if read.any fun other => key.same other.1 then failure
        else do
          let value ← d.value levels entry.2
          return read ++ [(key, value)]) []) collected) :
    (Value.mapping collected).Keyed Value.DistinctTexts := by
  have hnone : (Value.mapping []).Keyed Value.DistinctTexts :=
    .mapping List.nodup_nil fun e he => absurd he List.not_mem_nil
  -- Each key is tested against those before it, so the keys read so far stay different.
  refine Gives.of_foldlM (P := fun read => (Value.mapping read).Keyed Value.DistinctTexts)
    (fun read entry after hread hstep => ?_) hnone h
  obtain ⟨hkeys, hvalues⟩ := Value.keyed_mapping.1 hread
  obtain ⟨key, -, hstep⟩ := hstep.bind
  split at hstep
  · exact absurd hstep not_gives_failure
  · rename_i hnew
    obtain ⟨value, hvalue, hstep⟩ := hstep.bind
    obtain rfl := hstep.of_pure
    refine .mapping ?_ (List.forall_mem_append.2
      ⟨hvalues, List.forall_mem_singleton.2 (hbelow hvalue)⟩)
    rw [List.map_append]
    refine hkeys.concat (List.forall_mem_map.2 fun other hother => ?_)
    exact Bool.eq_false_iff.2 fun hsame => hnew (List.any_eq_true.2 ⟨other, hother, hsame⟩)

/-- A scalar or collection has no two keys that are the same text, if nothing below it has. -/
theorem keyed_node {t : Tree Nat} (h : Gives (d.value levels t) v) (halias : ∀ n, t ≠ .alias n)
    (hbelow : ∀ lower < levels, ∀ {v t}, Gives (d.value lower t) v → v.Keyed Value.DistinctTexts) :
    v.Keyed Value.DistinctTexts := by
  cases t with
  | «alias» n => exact absurd rfl (halias n)
  | scalar p style s =>
    obtain ⟨left, left', hrun⟩ := h
    obtain ⟨w, hvalue, rfl⟩ := exists_scalarValue hrun
    exact (Value.keyed_of_scalarValue hvalue).withTag _
  | sequence p items =>
    cases levels with
    | zero =>
      rw [value_zero_sequence] at h
      exact absurd h not_gives_failure
    | succ levels =>
      rw [value_sequence] at h
      obtain ⟨values, hvalues, h⟩ := h.bind
      obtain rfl := h.of_pure
      refine (Value.Keyed.sequence fun w hw => ?_).withTag _
      obtain ⟨item, -, hitem⟩ := hvalues.of_mem_mapM w hw
      exact hbelow levels (Nat.lt_succ_self _) hitem
  | mapping p entries =>
    cases levels with
    | zero =>
      rw [value_zero_mapping] at h
      exact absurd h not_gives_failure
    | succ levels =>
      rw [value_mapping] at h
      obtain ⟨collected, hcollected, h⟩ := h.bind
      obtain rfl := h.of_pure
      exact (keyed_entries (hbelow levels (Nat.lt_succ_self _)) hcollected).withTag _

/-- The mappings of a document have no two keys that are the same text. -/
theorem keyed_value {t : Tree Nat} (h : Gives (d.value levels t) v) :
    v.Keyed Value.DistinctTexts := by
  induction levels using Nat.strongRecOn generalizing t v with
  | ind levels ih =>
    cases t with
    | «alias» n =>
      obtain ⟨target, halias, htarget⟩ := exists_of_gives_alias h
      exact keyed_node htarget halias ih
    | scalar p style s => exact keyed_node h nofun ih
    | sequence p items => exact keyed_node h nofun ih
    | mapping p entries => exact keyed_node h nofun ih

end Document

/-! ## Merging -/

namespace Entries

/-- Without its merge key a mapping has some of its entries, in some order. -/
theorem exists_perm_takeMerge (entries : Entries) :
    ∃ kept, kept.Sublist entries ∧ (takeMerge entries).Perm kept := by
  unfold takeMerge
  dsimp only
  split
  · exact ⟨entries, .refl _, .refl _⟩
  · rename_i e after hdrop
    have hall := List.takeWhile_append_dropWhile (p := fun e => !isMerge e) (l := entries)
    rw [hdrop] at hall
    have hkept : (entries.takeWhile (fun e => !isMerge e) ++ after).Sublist entries := by
      conv => rhs; rw [← hall]
      exact (List.Sublist.refl _).append (List.sublist_cons_self ..)
    refine ⟨_, hkept, ?_⟩
    cases hlast : after.getLast? with
    | none =>
      rw [List.getLast?_eq_none_iff.1 hlast, List.append_nil]
    | some last =>
      -- The last entry has moved to the place of the merge key.
      obtain ⟨front, rfl⟩ := List.getLast?_eq_some_iff.1 hlast
      rw [List.dropLast_concat]
      exact (List.perm_append_singleton last front).symm.append_left _

/-- What is put behind the entries one after the other, unless it is there, keeps what one entry
keeps. -/
theorem addMissing_induction {P : Entries → Prop} {entries added : Entries}
    (hstep : ∀ acc : Entries, ∀ e ∈ added, P acc → (∀ other ∈ acc, e.1.same other.1 = false) →
      P (acc ++ [e])) (h : P entries) : P (addMissing entries added) := by
  induction added generalizing entries with
  | nil => exact h
  | cons e added ih =>
    refine ih (fun acc e he => hstep acc e (List.mem_cons_of_mem _ he)) ?_
    dsimp only
    split
    · exact h
    · rename_i hnew
      refine hstep entries e (List.mem_cons_self ..) h fun other hother => ?_
      exact Bool.eq_false_iff.2 fun hsame => hnew (List.any_eq_true.2 ⟨other, hother, hsame⟩)

end Entries

namespace Value

/-- Merging keeps a kind of keys. -/
structure MergeStable (P : List Value → Prop) : Prop where
  perm : ∀ {keys kept moved : List Value}, P keys → kept.Sublist keys → moved.Perm kept → P moved
  concat : ∀ {keys added : List Value} {k : Value}, P keys → P added → k ∈ added →
    (∀ other ∈ keys, k.same other = false) → P (keys ++ [k])

theorem mergeStable_distinctTexts : MergeStable DistinctTexts where
  perm h hkept hmoved := ((hmoved.filterMap _).nodup_iff).2 (h.sublist (hkept.filterMap _))
  concat h _ _ hnew := h.concat hnew

theorem mergeStable_plainKeys : MergeStable PlainKeys where
  perm h hkept hmoved := fun k hk => h k (hkept.subset (hmoved.mem_iff.1 hk))
  concat h hadded hmem _ :=
    List.forall_mem_append.2 ⟨h, List.forall_mem_singleton.2 (hadded _ hmem)⟩

section

variable {P : List Value → Prop}

variable (hP : MergeStable P)

include hP

theorem MergeStable.takeMerge {entries : Entries} (h : Keyed P (.mapping entries)) :
    Keyed P (.mapping entries.takeMerge) := by
  obtain ⟨hkeys, hvalues⟩ := keyed_mapping.1 h
  obtain ⟨kept, hkept, hmoved⟩ := entries.exists_perm_takeMerge
  exact .mapping (hP.perm hkeys (hkept.map _) (hmoved.map _)) fun e he =>
    hvalues e (hkept.subset (hmoved.mem_iff.1 he))

theorem MergeStable.addMissing {entries added : Entries} (h : Keyed P (.mapping entries))
    (hadded : Keyed P (.mapping added)) : Keyed P (.mapping (entries.addMissing added)) := by
  obtain ⟨haddedKeys, haddedValues⟩ := keyed_mapping.1 hadded
  refine Entries.addMissing_induction (P := fun acc => Keyed P (.mapping acc)) ?_ h
  intro acc e he hacc hnew
  obtain ⟨hkeys, hvalues⟩ := keyed_mapping.1 hacc
  refine .mapping ?_ (List.forall_mem_append.2
    ⟨hvalues, List.forall_mem_singleton.2 (haddedValues e he)⟩)
  rw [List.map_append]
  exact hP.concat hkeys haddedKeys (List.mem_map_of_mem he) (List.forall_mem_map.2 hnew)

omit hP in
/-- The mappings that a merge key names are those of its value. -/
theorem Keyed.merged? {source : Value} (h : Keyed P source) {added : List Entries}
    (hadded : source.merged? = some added) : ∀ m ∈ added, Keyed P (.mapping m) := by
  cases h with
  | mapping hkeys hvalues =>
    obtain rfl := Option.some.inj hadded
    exact List.forall_mem_singleton.2 (.mapping hkeys hvalues)
  | sequence hitems =>
    intro m hm
    obtain ⟨v, hv, hentries⟩ := exists_of_mem_mapM hadded m hm
    have hown := hitems v hv
    cases hown with
    | mapping hkeys hvalues =>
      obtain rfl := Option.some.inj hentries
      exact .mapping hkeys hvalues
    | _ => cases hentries
  | _ => cases hadded

theorem MergeStable.resolveEntries? {entries resolved : Entries} (h : Keyed P (.mapping entries))
    (hresolved : resolveEntries? entries = some resolved) : Keyed P (.mapping resolved) := by
  unfold Value.resolveEntries? at hresolved
  split at hresolved
  · exact Option.some.inj hresolved ▸ h
  · rename_i source hmerge
    obtain ⟨e, he, rfl⟩ := Option.map_eq_some_iff.1 hmerge
    obtain ⟨added, hadded, hfold⟩ := Option.bind_eq_some_iff.1 hresolved
    obtain rfl := Option.some.inj hfold
    have hall := ((keyed_mapping.1 h).2 e (List.mem_of_find?_eq_some he)).merged? hadded
    exact List.foldlRecOn (motive := fun acc => Keyed P (.mapping acc)) added
      Entries.addMissing (hP.takeMerge h)
      fun acc hacc m hm => hP.addMissing hacc (hall m hm)

/-- Resolving the merge keys of a value keeps a kind of keys that merging keeps. -/
theorem MergeStable.resolve? {levels : Nat} {v w : Value} (h : Keyed P v)
    (hresolve : v.resolve? levels = some w) : Keyed P w := by
  induction levels generalizing v w with
  | zero =>
    obtain rfl := Option.some.inj hresolve
    exact h
  | succ levels ih =>
    -- The entries of a mapping are merged first; what is in them then is a level below.
    cases h with
    | sequence hitems =>
      obtain ⟨items, hmap, hw⟩ := Option.bind_eq_some_iff.1 hresolve
      obtain rfl := Option.some.inj hw
      refine .sequence fun w hw => ?_
      obtain ⟨v, hv, hresolve⟩ := exists_of_mem_mapM hmap w hw
      exact ih (hitems v hv) hresolve
    | mapping hkeys hvalues =>
      obtain ⟨entries, hentries, hresolve⟩ := Option.bind_eq_some_iff.1 hresolve
      obtain ⟨resolved, hmap, hw⟩ := Option.bind_eq_some_iff.1 hresolve
      obtain rfl := Option.some.inj hw
      obtain ⟨hkeys, hvalues⟩ :=
        keyed_mapping.1 (hP.resolveEntries? (.mapping hkeys hvalues) hentries)
      have hentry : ∀ e out : Value × Value,
          (do return (e.1, ← Value.resolve? levels e.2) : Option (Value × Value)) = some out →
            e.1 = out.1 ∧ e.2.resolve? levels = some out.2 := by
        intro e out h
        obtain ⟨w, hw, hpair⟩ := Option.bind_eq_some_iff.1 h
        obtain rfl := Option.some.inj hpair
        exact ⟨rfl, hw⟩
      refine .mapping ?_ fun out hout => ?_
      · have hsame : entries.map (·.1) = resolved.map (·.1) :=
          List.forall₂_eq_eq_eq ▸ List.forall₂_map_left_iff.2 (List.forall₂_map_right_iff.2
            ((forall₂_of_mapM hmap).imp fun e out h => (hentry e out h).1))
        exact hsame ▸ hkeys
      · obtain ⟨e, he, hresolve⟩ := exists_of_mem_mapM hmap out hout
        exact ih (hvalues e he) (hentry e out hresolve).2
    | tagged tag hv =>
      obtain ⟨inner, hinner, hw⟩ := Option.bind_eq_some_iff.1 hresolve
      obtain rfl := Option.some.inj hw
      exact .tagged tag (ih hv hinner)
    | null => exact Option.some.inj hresolve ▸ .null
    | bool b => exact Option.some.inj hresolve ▸ .bool b
    | integer n => exact Option.some.inj hresolve ▸ .integer n
    | real x => exact Option.some.inj hresolve ▸ .real x
    | text s => exact Option.some.inj hresolve ▸ .text s

end

end Value

/-- A text means a value whose mappings have no two keys that are the same text. -/
theorem keyed_ofText? {text : List Char} {v : Value} (h : Value.ofText? text = some v) :
    v.Keyed Value.DistinctTexts := by
  obtain ⟨d, -, h⟩ := Option.bind_eq_some_iff.1 h
  obtain ⟨⟨w, left⟩, hrun, hpair⟩ := Option.bind_eq_some_iff.1 h
  obtain rfl := Option.some.inj hpair
  exact Document.keyed_value ⟨d.allowance, left, hrun⟩

end Yaml

/-! ## Names of fields -/

namespace Node

open Yaml

theorem map_fst_ofEntries (entries : Entries) :
    (ofEntries entries).map (·.1) = (entries.map (·.1)).filterMap scalarText? := by
  induction entries with
  | nil => rfl
  | cons e entries ih =>
    obtain ⟨k, v⟩ := e
    rw [ofEntries, List.map_cons]
    cases hk : scalarText? k with
    | none => rw [List.filterMap_cons_none hk, ih]
    | some name => rw [List.filterMap_cons_some hk, List.map_cons, ih]

theorem exists_of_mem_ofEntries {entries : Entries} {name : String} {n : Node}
    (h : (name, n) ∈ ofEntries entries) : ∃ e ∈ entries, n = ofValue e.2 := by
  induction entries with
  | nil => cases h
  | cons e entries ih =>
    obtain ⟨k, v⟩ := e
    rw [ofEntries] at h
    have hrest : (name, n) ∈ ofEntries entries → ∃ e ∈ (k, v) :: entries, n = ofValue e.2 :=
      fun h => (ih h).imp fun e he => he.imp_left (List.mem_cons_of_mem _)
    cases hk : scalarText? k with
    | none =>
      rw [hk] at h
      exact hrest h
    | some key =>
      rw [hk] at h
      rcases List.mem_cons.1 h with hfirst | h
      · exact ⟨_, List.mem_cons_self .., (Prod.mk.inj hfirst).2⟩
      · exact hrest h

/-- The fields of the data of a value have different names. -/
theorem nodup_names_ofValue {v : Value} (h : v.Keyed Value.DistinctNames) :
    ((ofValue v).entries.map (·.1)).Nodup := by
  induction h with
  | mapping hkeys _ =>
    rw [ofValue, entries, map_fst_ofEntries]
    exact hkeys
  | tagged tag _ ih => exact ih
  | _ => exact List.nodup_nil

/-- The fields of the data of a value are the data of parts of it. -/
theorem exists_of_mem_entries {P : List Value → Prop} {v : Value} (h : v.Keyed P) :
    ∀ entry ∈ (ofValue v).entries, ∃ w : Value, w.Keyed P ∧ entry.2 = ofValue w := by
  induction h with
  | mapping _ hvalues =>
    intro entry hentry
    obtain ⟨e, he, heq⟩ := exists_of_mem_ofEntries hentry
    exact ⟨e.2, hvalues e he, heq⟩
  | tagged tag _ ih => exact ih
  | _ => exact nofun

/-- In the data of a text no two fields have the same name, at the root and one level below it, if
each key with a text is a text. -/
theorem nodup_names_ofYaml? {text : String} {root : Node} (h : ofYaml? text = some root)
    (hplain : ∀ v, Value.ofText? text.toList = some v → v.Keyed Value.PlainKeys) :
    (root.entries.map (·.1)).Nodup ∧ ∀ key, ((root.entriesAt key).map (·.1)).Nodup := by
  obtain ⟨v, hv, h⟩ := Option.bind_eq_some_iff.1 h
  obtain ⟨w, hw, h⟩ := Option.bind_eq_some_iff.1 h
  obtain rfl := Option.some.inj h
  -- The reader keeps keys that are texts apart; `hplain` excludes others that have a text.
  have hkeyed : w.Keyed Value.DistinctNames :=
    Value.Keyed.and_imp (fun _ => Value.DistinctTexts.names)
      (Value.mergeStable_distinctTexts.resolve? (keyed_ofText? hv) hw)
      (Value.mergeStable_plainKeys.resolve? (hplain v hv) hw)
  refine ⟨nodup_names_ofValue hkeyed, fun key => ?_⟩
  unfold entriesAt
  cases hget : (ofValue w).get? key with
  | none => exact List.nodup_nil
  | some n =>
    obtain ⟨before, after, hentries, -⟩ := List.lookup_eq_some_iff.1 hget
    have hmem : (key, n) ∈ (ofValue w).entries := by
      rw [hentries]
      exact List.mem_append_right _ (List.mem_cons_self ..)
    obtain ⟨u, hu, heq⟩ := exists_of_mem_entries hkeyed _ hmem
    obtain rfl : n = ofValue u := heq
    exact nodup_names_ofValue hu

end Node
end CiPipelines
