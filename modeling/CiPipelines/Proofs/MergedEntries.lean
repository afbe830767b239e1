import CiPipelines.Proofs.MappingKeys
import Mathlib.Data.List.TakeWhile

/-!
# Order of merged entries

The data of a text show each mapping with its own entries first, and behind them those that only a
merged mapping has, each key with the value of the first mapping that has it.  The own entries are
in the order of the text exactly if at most one of them is behind the merge key: the last of them
takes the place of the merge key.
-/

namespace CiPipelines
namespace Yaml

/-- Where all keys are texts, no key comes twice. -/
theorem Value.DistinctTexts.nodup {keys : List Value} (h : DistinctTexts keys)
    (htexts : ∀ k ∈ keys, k.text?.isSome) : keys.Nodup := by
  refine (List.pairwise_filterMap.1 h).imp_of_mem fun {k other} hk hother hne heq => ?_
  obtain ⟨s, hs⟩ := Option.isSome_iff_exists.1 (htexts k hk)
  exact hne s hs s (heq ▸ hs) rfl

/-- A text is the same key as itself only. -/
theorem Value.same_text (s : String) (k : Value) : (text s).same k = (k.text? == some s) := by
  cases k with
  | text t => rw [same, text?, Option.some_beq_some, BEq.comm]
  | _ => rfl

namespace Entries

/-- The entries of a mapping other than its merge key. -/
def written (entries : Entries) : Entries := entries.filter fun e => !isMerge e

/-- The entries behind the merge key. -/
def behindMerge (entries : Entries) : Entries := (entries.dropWhile fun e => !isMerge e).tail

/-- The entries with the last one first. -/
def lastFirst (entries : Entries) : Entries := entries.getLast?.toList ++ entries.dropLast

/-- The value of the first entry whose key is the text. -/
def at? (entries : Entries) (s : String) : Option Value :=
  (entries.find? fun e => e.1.text? == some s).map (·.2)

/-- The mappings that are merged into a mapping. -/
def sources? (entries : Entries) : Option (List Entries) :=
  match merge? entries with
  | none => some []
  | some source => source.merged?

/-! ## Taking out the merge key -/

theorem isMerge_iff {e : Value × Value} : isMerge e = true ↔ e.1 = .text "<<" := by
  obtain ⟨k, v⟩ := e
  cases k with
  | text s => simp [isMerge]
  | _ => simp [isMerge]

/-- The last entry takes the place of the merge key. -/
theorem takeMerge_eq (entries : Entries) :
    takeMerge entries =
      (entries.takeWhile fun e => !isMerge e) ++ lastFirst (behindMerge entries) := by
  have hall := List.takeWhile_append_dropWhile (p := fun e => !isMerge e) (l := entries)
  unfold takeMerge behindMerge
  dsimp only
  split
  · rename_i hdrop
    rw [hdrop, List.append_nil] at hall
    rw [hdrop, hall]
    exact (List.append_nil _).symm
  · rename_i e after hdrop
    rw [hdrop, List.tail_cons, lastFirst]
    cases hlast : after.getLast? with
    | none =>
      rw [List.getLast?_eq_none_iff.1 hlast]
      exact (List.append_nil _).symm
    | some last => rfl

theorem takeMerge_of_merge?_eq_none {entries : Entries} (h : merge? entries = none) :
    takeMerge entries = entries := by
  have hdrop : entries.dropWhile (fun e => !isMerge e) = [] := by
    refine List.dropWhile_eq_nil_iff.2 fun e he => ?_
    simpa using List.find?_eq_none.1 (Option.map_eq_none_iff.1 h) e he
  unfold takeMerge
  dsimp only
  rw [hdrop]

theorem lastFirst_perm (entries : Entries) : (lastFirst entries).Perm entries := by
  cases hlast : entries.getLast? with
  | none =>
    rw [List.getLast?_eq_none_iff.1 hlast]
    exact .refl _
  | some last =>
    obtain ⟨front, rfl⟩ := List.getLast?_eq_some_iff.1 hlast
    rw [lastFirst, hlast, List.dropLast_concat]
    exact (List.perm_append_singleton last front).symm

theorem lastFirst_of_length_le {entries : Entries} (h : entries.length ≤ 1) :
    lastFirst entries = entries := by
  match entries with
  | [] => rfl
  | [e] => rfl
  | _ :: _ :: _ => exact absurd h (by simp)

/-- Entries with different keys change their order, unless there is at most one. -/
theorem length_le_of_map_lastFirst {entries : Entries} (hnodup : (entries.map (·.1)).Nodup)
    (h : (lastFirst entries).map (·.1) = entries.map (·.1)) : entries.length ≤ 1 := by
  cases hlast : entries.getLast? with
  | none =>
    rw [List.getLast?_eq_none_iff.1 hlast]
    exact Nat.zero_le 1
  | some last =>
    obtain ⟨front, rfl⟩ := List.getLast?_eq_some_iff.1 hlast
    rw [lastFirst, hlast, List.dropLast_concat] at h
    cases front with
    | nil => exact Nat.le_refl 1
    | cons first front =>
      have hkey : last.1 = first.1 := (List.cons.inj h).1
      refine absurd (List.mem_map.2 ⟨last, ?_, hkey⟩) (List.nodup_cons.1 hnodup).1
      exact List.mem_append_right _ (List.mem_singleton_self _)

section

variable {entries : Entries} (hkeys : Value.DistinctTexts (entries.map (·.1)))

include hkeys

/-- A mapping has one merge key at most. -/
theorem written_eq :
    written entries = (entries.takeWhile fun e => !isMerge e) ++ behindMerge entries := by
  have hall := List.takeWhile_append_dropWhile (p := fun e => !isMerge e) (l := entries)
  have hbefore : (entries.takeWhile fun e => !isMerge e).filter (fun e => !isMerge e) =
      entries.takeWhile fun e => !isMerge e :=
    List.filter_eq_self.2 fun e he => List.mem_takeWhile_imp (p := fun e => !isMerge e) he
  unfold written behindMerge
  cases hdrop : entries.dropWhile fun e => !isMerge e with
  | nil =>
    rw [hdrop, List.append_nil] at hall
    rw [hall] at hbefore ⊢
    rw [hbefore]
    exact (List.append_nil _).symm
  | cons e after =>
    have hmerge : isMerge e = true := by
      have hhead := List.head?_dropWhile_not (fun e => !isMerge e) entries
      rw [hdrop] at hhead
      simpa using hhead
    -- Another merge key behind the first one would have the same text.
    have hafter : ∀ other ∈ after, isMerge other = false := by
      intro other hother
      by_contra hfound
      rw [Bool.not_eq_false] at hfound
      have htext : ∀ {e : Value × Value}, isMerge e = true → e.1.text? = some "<<" :=
        fun h => congrArg Value.text? (isMerge_iff.1 h)
      rw [← hall, hdrop, Value.DistinctTexts, List.map_append, List.filterMap_append,
        List.map_cons, List.filterMap_cons_some (htext hmerge)] at hkeys
      have hnodup := (List.nodup_append.1 hkeys).2.1
      exact (List.nodup_cons.1 hnodup).1
        (List.mem_filterMap.2 ⟨other.1, List.mem_map_of_mem hother, htext hfound⟩)
    conv => lhs; rw [← hall, hdrop]
    rw [List.filter_append, hbefore, List.filter_cons_of_neg (by simp [hmerge]), List.tail_cons,
      List.filter_eq_self.2 fun other hother => by simp [hafter other hother]]

theorem takeMerge_perm : (takeMerge entries).Perm (written entries) := by
  rw [takeMerge_eq, written_eq hkeys]
  exact (lastFirst_perm _).append_left _

/-- The order of the text is kept if at most one entry is behind the merge key. -/
theorem takeMerge_eq_written (h : (behindMerge entries).length ≤ 1) :
    takeMerge entries = written entries := by
  rw [takeMerge_eq, written_eq hkeys, lastFirst_of_length_le h]

/-- The order of the keys is not kept otherwise. -/
theorem length_behindMerge_le (htexts : ∀ e ∈ entries, e.1.text?.isSome)
    (h : (takeMerge entries).map (·.1) = (written entries).map (·.1)) :
    (behindMerge entries).length ≤ 1 := by
  have hbehind : (behindMerge entries).Sublist entries :=
    (List.tail_sublist _).trans (List.dropWhile_sublist _)
  have hnodup := (hkeys.nodup (List.forall_mem_map.2 htexts)).sublist (hbehind.map _)
  rw [takeMerge_eq, written_eq hkeys, List.map_append, List.map_append,
    List.append_cancel_left_eq] at h
  exact length_le_of_map_lastFirst hnodup h

end

/-! ## Values of keys -/

section

variable {entries other : Entries} {s : String}

theorem at?_append : (entries ++ other).at? s = (entries.at? s).or (other.at? s) := by
  unfold at?
  rw [List.find?_append]
  cases entries.find? fun e => e.1.text? == some s <;> rfl

theorem at?_cons (e : Value × Value) :
    at? (e :: entries) s = if e.1.text? = some s then some e.2 else entries.at? s := by
  by_cases hkey : e.1.text? = some s
  · simp [at?, hkey]
  · simp [at?, hkey]

/-- There is a value at a text that is the same as some key. -/
theorem any_same_text :
    (entries.any fun e => (Value.text s).same e.1) = (entries.at? s).isSome := by
  induction entries with
  | nil => rfl
  | cons e entries ih =>
    rw [List.any_cons, ih, at?_cons, Value.same_text]
    split
    · rename_i hkey
      rw [hkey, beq_self_eq_true]
      rfl
    · rename_i hkey
      rw [beq_eq_false_iff_ne.2 hkey]
      rfl

/-- Where no two keys are the same text, each entry with a text counts. -/
theorem at?_eq_some_iff (h : Value.DistinctTexts (entries.map (·.1))) {v : Value} :
    entries.at? s = some v ↔ (.text s, v) ∈ entries := by
  induction entries with
  | nil => exact ⟨nofun, nofun⟩
  | cons e entries ih =>
    rw [at?_cons, List.mem_cons]
    split
    · rename_i hkey
      rw [Value.DistinctTexts, List.map_cons, List.filterMap_cons_some hkey, List.nodup_cons] at h
      rw [Option.some.injEq]
      refine ⟨fun hv => .inl (Prod.ext (Value.eq_text_of_text? hkey) hv).symm, fun hmem => ?_⟩
      refine (congrArg Prod.snd (hmem.resolve_right fun hlater => h.1 ?_)).symm
      exact List.mem_filterMap.2 ⟨.text s, List.mem_map_of_mem (f := (·.1)) hlater, rfl⟩
    · rename_i hkey
      rw [ih (h.sublist ((List.sublist_cons_self ..).filterMap _))]
      refine ⟨.inr, fun hmem => hmem.resolve_left ?_⟩
      rintro rfl
      exact hkey rfl

theorem at?_congr_perm (h : Value.DistinctTexts (other.map (·.1))) (hperm : entries.Perm other) :
    entries.at? s = other.at? s := by
  have h' : Value.DistinctTexts (entries.map (·.1)) :=
    (((hperm.map _).filterMap _).nodup_iff).2 h
  refine Option.ext fun v => ?_
  rw [at?_eq_some_iff h', at?_eq_some_iff h, hperm.mem_iff]

end

/-! ## Adding entries -/

theorem addMissing_cons (entries added : Entries) (e : Value × Value) :
    addMissing entries (e :: added) =
      if entries.any fun other => e.1.same other.1 then addMissing entries added
      else addMissing (entries ++ [e]) added := by
  rw [addMissing, List.foldl_cons]
  split <;> rfl

/-- What is added is new, and in order. -/
theorem exists_addMissing_eq (entries added : Entries) :
    ∃ new, addMissing entries added = entries ++ new ∧ new.Sublist added ∧
      ∀ e ∈ new, ∀ other ∈ entries, e.1.same other.1 = false := by
  induction added generalizing entries with
  | nil => exact ⟨[], (List.append_nil _).symm, .refl _, nofun⟩
  | cons e added ih =>
    rw [addMissing_cons]
    split
    · obtain ⟨new, heq, hsub, hnew⟩ := ih entries
      exact ⟨new, heq, hsub.cons e, hnew⟩
    · rename_i hfresh
      obtain ⟨new, heq, hsub, hnew⟩ := ih (entries ++ [e])
      refine ⟨e :: new, by rw [heq, List.append_assoc]; rfl, hsub.cons_cons e, ?_⟩
      refine List.forall_mem_cons.2 ⟨fun other hother => ?_, fun later hlater other hother => ?_⟩
      · exact Bool.eq_false_iff.2 fun hsame => hfresh (List.any_eq_true.2 ⟨other, hother, hsame⟩)
      · exact hnew later hlater other (List.mem_append_left _ hother)

/-- Entries that are added have a value where there is none. -/
theorem at?_addMissing (entries added : Entries) (s : String) :
    (addMissing entries added).at? s = (entries ++ added).at? s := by
  induction added generalizing entries with
  | nil => rw [List.append_nil]; rfl
  | cons e added ih =>
    rw [addMissing_cons]
    split
    · rename_i hfound
      rw [ih, at?_append, at?_append, at?_cons]
      split
      · rename_i hkey
        rw [Value.eq_text_of_text? hkey, any_same_text] at hfound
        obtain ⟨v, hv⟩ := Option.isSome_iff_exists.1 hfound
        rw [hv]
        rfl
      · rfl
    · rw [ih, List.append_assoc]
      rfl

theorem at?_foldl_addMissing (own : Entries) (sources : List Entries) (s : String) :
    (sources.foldl addMissing own).at? s = (own ++ sources.flatten).at? s := by
  induction sources generalizing own with
  | nil => rw [List.flatten_nil, List.append_nil]; rfl
  | cons source sources ih =>
    rw [List.foldl_cons, ih, at?_append, at?_addMissing, List.flatten_cons, ← List.append_assoc,
      @at?_append (own ++ source)]

theorem exists_foldl_addMissing_eq (own : Entries) (sources : List Entries) :
    ∃ added, sources.foldl addMissing own = own ++ added ∧ added.Sublist sources.flatten ∧
      ∀ e ∈ added, ∀ other ∈ own, e.1.same other.1 = false := by
  induction sources generalizing own with
  | nil => exact ⟨[], (List.append_nil _).symm, .refl _, nofun⟩
  | cons source sources ih =>
    obtain ⟨new, hnew, hnewSub, hnewKeys⟩ := exists_addMissing_eq own source
    obtain ⟨added, hadded, haddedSub, haddedKeys⟩ := ih (own ++ new)
    refine ⟨new ++ added, by rw [List.foldl_cons, hnew, hadded, List.append_assoc], ?_,
      List.forall_mem_append.2 ⟨hnewKeys, fun e he other hother => ?_⟩⟩
    · exact hnewSub.append haddedSub
    · exact haddedKeys e he other (List.mem_append_left _ hother)

/-! ## Resolving a merge key -/

/-- The own entries of a mapping and those that merged mappings add behind them. -/
structure MergesTo (entries : Entries) (sources : List Entries) (own added : Entries) : Prop where
  own_perm : own.Perm entries.written
  own_eq : entries.behindMerge.length ≤ 1 → own = entries.written
  length_le : (∀ e ∈ entries, e.1.text?.isSome) →
    own.map (·.1) = entries.written.map (·.1) → entries.behindMerge.length ≤ 1
  added_sublist : added.Sublist sources.flatten
  added_new : ∀ e ∈ added, ∀ other ∈ own, e.1.same other.1 = false
  /-- The own entries win, then the first mapping that has a key. -/
  at?_eq : ∀ s, (own ++ added).at? s = (entries.written ++ sources.flatten).at? s

theorem exists_sources_of_resolveEntries? {entries resolved : Entries}
    (h : Value.resolveEntries? entries = some resolved) :
    ∃ sources, entries.sources? = some sources ∧
      sources.foldl addMissing (takeMerge entries) = resolved := by
  unfold Value.resolveEntries? at h
  unfold sources?
  cases hmerge : merge? entries with
  | none =>
    rw [hmerge] at h
    obtain rfl := Option.some.inj h
    exact ⟨[], rfl, takeMerge_of_merge?_eq_none hmerge⟩
  | some source =>
    rw [hmerge] at h
    obtain ⟨sources, hsources, hfold⟩ := Option.bind_eq_some_iff.1 h
    exact ⟨sources, hsources, Option.some.inj hfold⟩

theorem mergesTo_of_resolveEntries? {entries resolved : Entries}
    (hkeys : Value.DistinctTexts (entries.map (·.1)))
    (h : Value.resolveEntries? entries = some resolved) :
    ∃ sources own added, entries.sources? = some sources ∧ resolved = own ++ added ∧
      MergesTo entries sources own added := by
  obtain ⟨sources, hsources, rfl⟩ := exists_sources_of_resolveEntries? h
  obtain ⟨added, hadded, hsub, hnew⟩ := exists_foldl_addMissing_eq (takeMerge entries) sources
  have hwritten : Value.DistinctTexts (entries.written.map (·.1)) :=
    hkeys.sublist ((List.filter_sublist.map _).filterMap _)
  refine ⟨sources, takeMerge entries, added, hsources, hadded, takeMerge_perm hkeys,
    takeMerge_eq_written hkeys, length_behindMerge_le hkeys, hsub, hnew, fun s => ?_⟩
  rw [← hadded, at?_foldl_addMissing, at?_append, at?_append,
    at?_congr_perm hwritten (takeMerge_perm hkeys)]

end Entries

/-! ## Depths of values -/

namespace Value

theorem depth_pos (v : Value) : 0 < v.depth := by
  cases v with
  | sequence items => exact Nat.succ_pos _
  | mapping entries => exact Nat.succ_pos _
  | tagged tag v => exact Nat.succ_pos _
  | _ => exact Nat.one_pos

theorem depth_le_depthOfItems {items : List Value} : ∀ v ∈ items, v.depth ≤ depthOfItems items := by
  induction items with
  | nil => exact List.forall_mem_nil _
  | cons first items ih =>
    rw [depthOfItems]
    exact List.forall_mem_cons.2
      ⟨Nat.le_max_left .., fun v hv => (ih v hv).trans (Nat.le_max_right ..)⟩

theorem depth_le_depthOfEntries {entries : Entries} :
    ∀ e ∈ entries, e.2.depth ≤ depthOfEntries entries := by
  induction entries with
  | nil => exact List.forall_mem_nil _
  | cons first entries ih =>
    rw [depthOfEntries]
    exact List.forall_mem_cons.2 ⟨(Nat.le_max_right ..).trans (Nat.le_max_left ..),
      fun e he => (ih e he).trans (Nat.le_max_right ..)⟩

/-- What is merged is nested less deep than the value of the merge key. -/
theorem depth_lt_of_merged? {source : Value} {sources : List Entries}
    (h : source.merged? = some sources) : ∀ e ∈ sources.flatten, e.2.depth < source.depth := by
  intro e he
  obtain ⟨entries, hentries, he⟩ := List.mem_flatten.1 he
  have hentry := Nat.lt_succ_of_le (depth_le_depthOfEntries e he)
  cases source with
  | mapping own =>
    obtain rfl := Option.some.inj h
    obtain rfl := List.mem_singleton.1 hentries
    exact hentry
  | sequence items =>
    obtain ⟨v, hv, hown⟩ := exists_of_mem_mapM h entries hentries
    have hitem := Nat.lt_succ_of_le (depth_le_depthOfItems v hv)
    cases v with
    | mapping own =>
      obtain rfl := Option.some.inj hown
      exact hentry.trans hitem
    | _ => cases hown
  | _ => cases h

/-- Resolving a merge key puts nothing deep into a mapping. -/
theorem depth_le_of_resolveEntries? {entries resolved : Entries}
    (h : resolveEntries? entries = some resolved) :
    ∀ e ∈ resolved, e.2.depth ≤ depthOfEntries entries := by
  obtain ⟨sources, hsources, rfl⟩ := Entries.exists_sources_of_resolveEntries? h
  obtain ⟨added, hadded, hsub, -⟩ := entries.takeMerge.exists_foldl_addMissing_eq sources
  obtain ⟨kept, hkept, hmoved⟩ := entries.exists_perm_takeMerge
  rw [hadded]
  refine List.forall_mem_append.2 ⟨fun e he => ?_, fun e he => ?_⟩
  · exact depth_le_depthOfEntries e (hkept.subset (hmoved.mem_iff.1 he))
  · unfold Entries.sources? at hsources
    split at hsources
    · obtain rfl := Option.some.inj hsources
      exact absurd (hsub.subset he) List.not_mem_nil
    · rename_i source hmerge
      obtain ⟨own, hown, rfl⟩ := Option.map_eq_some_iff.1 hmerge
      exact (depth_lt_of_merged? hsources e (hsub.subset he)).le.trans
        (depth_le_depthOfEntries own (List.mem_of_find?_eq_some hown))

end Value

end Yaml

/-! ## Data of values -/

namespace Node

open Yaml

/-- The names under which entries are shown, those whose keys have a text. -/
def names (entries : Entries) : List String := (entries.map (·.1)).filterMap scalarText?

/-- How data show a value: a mapping with its own entries and, behind them, those that are merged
into it, as far as their keys have a text. -/
inductive Shows : Value → Node → Prop
  | null : Shows .null .null
  | scalar {v : Value} {s : String} (hs : scalarText? v = some s) : Shows v (.scalar s)
  | sequence {items : List Value} {nodes : List Node} (hitems : List.Forall₂ Shows items nodes) :
    Shows (.sequence items) (.list nodes)
  | mapping {entries own added : Entries} {sources : List Entries} {fields : List (String × Node)}
    (hsources : entries.sources? = some sources) (hmerge : entries.MergesTo sources own added)
    (hnames : fields.map (·.1) = names (own ++ added))
    (hvalues : List.Forall₂ Shows
      (((own ++ added).filter fun e => (scalarText? e.1).isSome).map (·.2)) (fields.map (·.2))) :
    Shows (.mapping entries) (.fields fields)
  | tagged {tag : String} {v : Value} {n : Node} (hv : Shows v n) : Shows (.tagged tag v) n

theorem forall₂_shows_ofItems {items resolved : List Value}
    (h : List.Forall₂ (fun v w => Shows v (ofValue w)) items resolved) :
    List.Forall₂ Shows items (ofItems resolved) := by
  induction h with
  | nil => exact .nil
  | cons hv _ ih => exact .cons hv ih

theorem forall₂_shows_ofEntries {entries resolved : Entries}
    (h : List.Forall₂ (fun e out => e.1 = out.1 ∧ Shows e.2 (ofValue out.2)) entries resolved) :
    List.Forall₂ Shows ((entries.filter fun e => (scalarText? e.1).isSome).map (·.2))
      ((ofEntries resolved).map (·.2)) := by
  induction h with
  | nil => exact .nil
  | @cons e out entries resolved hfirst _ ih =>
    obtain ⟨k, w⟩ := out
    obtain ⟨hkey, hvalue⟩ := hfirst
    rw [ofEntries]
    cases hk : scalarText? k with
    | none =>
      rw [List.filter_cons_of_neg (by simp [hkey, hk])]
      exact ih
    | some name =>
      rw [List.filter_cons_of_pos (by simp [hkey, hk])]
      exact .cons hvalue ih

/-- What is left of a value without merge keys shows it. -/
theorem shows_ofValue {levels : Nat} {v w : Value} (hdepth : v.depth ≤ levels)
    (hkeyed : v.Keyed Value.DistinctTexts) (h : v.resolve? levels = some w) :
    Shows v (ofValue w) := by
  -- On the levels: merged values are no parts of the mapping, but no deeper than its parts.
  induction levels generalizing v w with
  | zero => exact absurd v.depth_pos (Nat.not_lt.2 hdepth)
  | succ levels ih =>
    cases hkeyed with
    | @sequence items hitems =>
      obtain ⟨resolved, hmap, hw⟩ := Option.bind_eq_some_iff.1 h
      obtain rfl := Option.some.inj hw
      have hlevel : ∀ item ∈ items, item.depth ≤ levels ∧ item.Keyed Value.DistinctTexts :=
        fun item hitem => ⟨(Value.depth_le_depthOfItems item hitem).trans
          (Nat.le_of_succ_le_succ hdepth), hitems item hitem⟩
      refine .sequence (forall₂_shows_ofItems ?_)
      refine ((List.forall₂_and_left _ _).2 ⟨hlevel, forall₂_of_mapM hmap⟩).imp ?_
      rintro item out ⟨⟨hdepth, hkeyed⟩, hresolve⟩
      exact ih hdepth hkeyed hresolve
    | mapping hkeys hvalues =>
      obtain ⟨merged, hentries, h⟩ := Option.bind_eq_some_iff.1 h
      obtain ⟨resolved, hmap, hw⟩ := Option.bind_eq_some_iff.1 h
      obtain rfl := Option.some.inj hw
      -- In the values that merging brings in, keys differ as well.
      have hbelow := (Value.keyed_mapping.1 (Value.mergeStable_distinctTexts.resolveEntries?
        (.mapping hkeys hvalues) hentries)).2
      have hshown : List.Forall₂ (fun e out => e.1 = out.1 ∧ Shows e.2 (ofValue out.2))
          merged resolved := by
        have hlevel : ∀ e ∈ merged, e.2.depth ≤ levels ∧ e.2.Keyed Value.DistinctTexts :=
          fun e he => ⟨(Value.depth_le_of_resolveEntries? hentries e he).trans
            (Nat.le_of_succ_le_succ hdepth), hbelow e he⟩
        refine ((List.forall₂_and_left _ _).2 ⟨hlevel, forall₂_of_mapM hmap⟩).imp ?_
        rintro e out ⟨⟨hdepth, hkeyed⟩, hentry⟩
        obtain ⟨w, hw, hpair⟩ := Option.bind_eq_some_iff.1 hentry
        obtain rfl := Option.some.inj hpair
        exact ⟨rfl, ih hdepth hkeyed hw⟩
      obtain ⟨sources, own, added, hsources, rfl, hmerge⟩ :=
        Entries.mergesTo_of_resolveEntries? hkeys hentries
      refine .mapping hsources hmerge ?_ (forall₂_shows_ofEntries hshown)
      rw [map_fst_ofEntries]
      refine congrArg (List.filterMap scalarText?) ?_
      exact (List.forall₂_eq_eq_eq ▸ List.forall₂_map_left_iff.2 (List.forall₂_map_right_iff.2
        (hshown.imp fun e out h => h.1)) : _ = _).symm
    | tagged tag hv =>
      obtain ⟨inner, hinner, hw⟩ := Option.bind_eq_some_iff.1 h
      obtain rfl := Option.some.inj hw
      rw [ofValue]
      exact .tagged (ih (Nat.le_of_succ_le_succ hdepth) hv hinner)
    | null => exact Option.some.inj h ▸ .null
    | bool b => exact Option.some.inj h ▸ .scalar rfl
    | integer n => exact Option.some.inj h ▸ .scalar rfl
    | real x => exact Option.some.inj h ▸ .scalar rfl
    | text s => exact Option.some.inj h ▸ .scalar rfl

section

variable {entries other : Entries} {fields : List (String × Node)}

theorem names_append : names (entries ++ other) = names entries ++ names other := by
  rw [names, List.map_append, List.filterMap_append]
  rfl

theorem map_text_names (htexts : ∀ e ∈ entries, e.1.text?.isSome) :
    (names entries).map Value.text = entries.map (·.1) := by
  induction entries with
  | nil => rfl
  | cons e entries ih =>
    obtain ⟨hfirst, hrest⟩ := List.forall_mem_cons.1 htexts
    obtain ⟨s, hs⟩ := Option.isSome_iff_exists.1 hfirst
    have hkey := Value.eq_text_of_text? hs
    have hname : scalarText? e.1 = some s := by rw [hkey]; rfl
    rw [names, List.map_cons, List.filterMap_cons_some hname, List.map_cons, hkey]
    exact congrArg _ (ih hrest)

/-- The entries of a mapping are shown first, in the order of the text, exactly if at most one of
them is behind the merge key. -/
theorem Shows.names_prefix_iff (h : Shows (.mapping entries) (.fields fields))
    (htexts : ∀ e ∈ entries, e.1.text?.isSome) :
    names entries.written <+: fields.map (·.1) ↔ entries.behindMerge.length ≤ 1 := by
  cases h with
  | @mapping _ own added _ _ hsources hmerge hnames hvalues =>
    rw [hnames, names_append]
    constructor
    · intro hprefix
      have hwritten : ∀ e ∈ entries.written, e.1.text?.isSome := fun e he =>
        htexts e (List.mem_of_mem_filter he)
      have hown : ∀ e ∈ own, e.1.text?.isSome := fun e he =>
        hwritten e (hmerge.own_perm.mem_iff.1 he)
      have hlength : (names entries.written).length = (names own).length :=
        ((hmerge.own_perm.map _).filterMap _).length_eq.symm
      -- The prefix is as long as the list of own names, so it is that list.
      have heq : names entries.written = names own :=
        (List.prefix_of_prefix_length_le hprefix (List.prefix_append ..) hlength.le).eq_of_length
          hlength
      refine hmerge.length_le htexts ?_
      rw [← map_text_names hown, ← map_text_names hwritten, heq]
    · intro hle
      rw [hmerge.own_eq hle]
      exact List.prefix_append ..

end

/-- The data of each text show what the text means, with the entries of each mapping in the order of
the text as far as `MergesTo` says. -/
theorem exists_shows_of_ofYaml? {text : String} {n : Node} (h : ofYaml? text = some n) :
    ∃ v, Value.ofText? text.toList = some v ∧ Shows v n := by
  obtain ⟨v, hv, h⟩ := Option.bind_eq_some_iff.1 h
  obtain ⟨w, hw, h⟩ := Option.bind_eq_some_iff.1 h
  obtain rfl := Option.some.inj h
  exact ⟨v, hv, shows_ofValue (Nat.le_refl _) (keyed_ofText? hv) hw⟩

/-- So the data of a text hold all its entries and what is merged into them.  The entries of a mapping
whose keys are texts come in the order of the text, in front of what is merged in, exactly if at most
one of them is behind the merge key. -/
theorem shows_in_order_of_ofYaml? {text : String} {n : Node} (h : ofYaml? text = some n) :
    ∃ v, Value.ofText? text.toList = some v ∧ Shows v n ∧
      ∀ (entries : Entries) (fields : List (String × Node)),
        Shows (.mapping entries) (.fields fields) → (∀ e ∈ entries, e.1.text?.isSome) →
          (names entries.written <+: fields.map (·.1) ↔ entries.behindMerge.length ≤ 1) := by
  obtain ⟨v, hv, hshows⟩ := exists_shows_of_ofYaml? h
  exact ⟨v, hv, hshows, fun _ _ hmapping htexts => hmapping.names_prefix_iff htexts⟩

/-- A mapping with a merge key in front of its last entry. -/
def mergeBeforeLast : String :=
  "stage: build\nscript: make\n<<: \x7bimage: 'node:20', stage: test\x7d\nneeds: []\n"

/-- Its entries come first, with their own values. -/
theorem shows_in_order_mergeBeforeLast : ∃ n v, ofYaml? mergeBeforeLast = some n ∧
    Value.ofText? mergeBeforeLast.toList = some v ∧ Shows v n ∧
      n.entries.map (·.1) = ["stage", "script", "needs", "image"] ∧
      n.textAt? "stage" = some "build" := by
  have hentries : (ofYaml? mergeBeforeLast).map
      (fun n => (n.entries.map (·.1), n.textAt? "stage")) =
        some (["stage", "script", "needs", "image"], some "build") := by decide +kernel
  obtain ⟨n, hn, heq⟩ := Option.map_eq_some_iff.1 hentries
  obtain ⟨hkeys, hstage⟩ := Prod.mk.inj heq
  obtain ⟨v, hv, hshows, -⟩ := shows_in_order_of_ofYaml? hn
  exact ⟨n, v, hn, hv, hshows, hkeys, hstage⟩

/-- A mapping with a merge key in front of three entries. -/
def mergeInFront : String :=
  "build:\n  <<: \x7bimage: 'node:20'\x7d\n  stage: build\n  script: make\n  needs: []\n"

/-- The last of its entries comes first. -/
theorem map_fst_mergeInFront : ∃ n, ofYaml? mergeInFront = some n ∧
    (n.entriesAt "build").map (·.1) = ["needs", "stage", "script", "image"] := by
  have hkeys : (ofYaml? mergeInFront).map (fun n => (n.entriesAt "build").map (·.1)) =
      some ["needs", "stage", "script", "image"] := by decide +kernel
  exact Option.map_eq_some_iff.1 hkeys

end Node
end CiPipelines
