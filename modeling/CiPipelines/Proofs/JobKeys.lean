import CiPipelines.Proofs.AzureFiles
import CiPipelines.Proofs.GitlabFiles
import CiPipelines.Proofs.KeyLengths

/-!
# Keys of jobs under the rules in use

Three sets of rules make keys: the standard ones, those of GitLab with its keywords, and those of
Azure without dashes.  Whatever the jobs are called, the search for a key tries the forms of its
base in turn and ends at the first one that no earlier job has, at the latest after as many as
there are earlier jobs.  Different names get different keys, each key is one that the platform
takes, and a job keeps its base if that is free.

Keys are their own keys: once the jobs of a pipeline go by their keys, the rules rename nothing.
-/

namespace CiPipelines

namespace KeyRules

/-- The rules by which the writers make keys. -/
def inUse : List KeyRules := [.standard, Gitlab.keyRules, Azure.keyRules]

theorem sound_of_mem_inUse {r : KeyRules} (h : r ∈ inUse) : r.Sound := by
  simp only [inUse, List.mem_cons, List.not_mem_nil, or_false] at h
  rcases h with rfl | rfl | rfl
  · exact sound_standard
  · exact Gitlab.sound_keyRules
  · exact Azure.sound_keyRules

/-! ## The search for a key -/

section

variable (r : KeyRules)

/-- The forms of a key in the order in which they are tried: the base, then the base with the
numbers from two. -/
def form (base : String) : Nat → String
  | 0 => base
  | n + 1 => r.numbered base (n + 2)

/-- The key is the first form of the base that is not taken: the forms that were tried in vain are
all taken. -/
structure IsFirstFree (base : String) (taken : List String) (failures : Nat) (key : String) :
    Prop where
  key_eq : key = r.form base failures
  free : key ∉ taken
  failed : ∀ i < failures, r.form base i ∈ taken

/-- No two forms of a base are the same. -/
theorem form_inj {base : String} {m n : Nat} (h : r.form base m = r.form base n) : m = n := by
  cases m with
  | zero =>
    cases n with
    | zero => rfl
    | succ n => exact absurd h.symm (r.numbered_ne base _)
  | succ m =>
    cases n with
    | zero => exact absurd h (r.numbered_ne base _)
    | succ n => exact congrArg Nat.succ (Nat.add_right_cancel (r.numbered_inj h))

/-- The search for a free form passes only forms that are taken. -/
theorem firstFree_eq_numbered (base : String) (taken : List String) (more n : Nat) :
    ∃ i, r.firstFree base taken more n = r.numbered base (n + i) ∧
      ∀ j < i, r.numbered base (n + j) ∈ taken := by
  induction more generalizing n with
  | zero => exact ⟨0, rfl, fun j hj => absurd hj (Nat.not_lt_zero j)⟩
  | succ more ih =>
    unfold firstFree
    split
    · rename_i htaken
      obtain ⟨i, heq, hfailed⟩ := ih (n + 1)
      refine ⟨i + 1, by rw [heq, Nat.add_assoc, Nat.add_comm 1], fun j hj => ?_⟩
      cases j with
      | zero => exact List.contains_iff_mem.1 htaken
      | succ j =>
        have hmem := hfailed j (Nat.lt_of_succ_lt_succ hj)
        rwa [Nat.add_assoc, Nat.add_comm 1] at hmem
    · exact ⟨0, rfl, fun j hj => absurd hj (Nat.not_lt_zero j)⟩

variable {r} in
/-- Fewer forms than there are taken keys, or as many, are tried in vain. -/
theorem IsFirstFree.le_length {base key : String} {taken : List String} {failures : Nat}
    (h : r.IsFirstFree base taken failures key) : failures ≤ taken.length := by
  have hnodup : ((List.range failures).map (r.form base)).Nodup :=
    List.pairwise_map.2 (List.nodup_range.imp fun hne heq => hne (r.form_inj heq))
  have hsubset : (List.range failures).map (r.form base) ⊆ taken := by
    intro key hkey
    obtain ⟨i, hi, rfl⟩ := List.mem_map.1 hkey
    exact h.failed i (List.mem_range.1 hi)
  have hlength := hnodup.length_le_of_subset hsubset
  rwa [List.length_map, List.length_range] at hlength

variable {r} in
/-- Only which keys are taken counts. -/
theorem IsFirstFree.congr {base key : String} {taken taken' : List String} {failures : Nat}
    (h : r.IsFirstFree base taken failures key) (hsame : ∀ k, k ∈ taken ↔ k ∈ taken') :
    r.IsFirstFree base taken' failures key :=
  ⟨h.key_eq, fun hmem => h.free ((hsame key).2 hmem), fun i hi => (hsame _).1 (h.failed i hi)⟩

/-- The search for a key ends at the first form that is free. -/
theorem exists_isFirstFree (base : String) (taken : List String) :
    ∃ failures, r.IsFirstFree base taken failures (r.freeKey base taken) := by
  have hfree := r.freeKey_not_mem base taken
  unfold freeKey at hfree ⊢
  split at hfree
  · rename_i hbase
    obtain ⟨i, heq, hfailed⟩ := r.firstFree_eq_numbered base taken taken.length 2
    rw [if_pos hbase]
    refine ⟨i + 1, by rw [heq, form, Nat.add_comm], hfree, fun j hj => ?_⟩
    cases j with
    | zero => exact List.contains_iff_mem.1 hbase
    | succ j =>
      rw [form, Nat.add_comm]
      exact hfailed j (Nat.lt_of_succ_lt_succ hj)
  · rename_i hbase
    rw [if_neg hbase]
    exact ⟨0, rfl, hfree, fun j hj => absurd hj (Nat.not_lt_zero j)⟩

end

end KeyRules

/-! ## Tables and the jobs in front -/

namespace KeyTable

/-- A name keeps its key when others are added. -/
theorem key_add_of_mem {t : KeyTable} {name : String} (h : name ∈ t.entries.map (·.1))
    (other : String) : (t.add other).key name = t.key name := by
  unfold add
  split
  · rfl
  · rename_i hnew
    have hne : name ≠ other := by
      rintro rfl
      exact lookup_eq_none.1 (Option.not_isSome_iff_eq_none.1 hnew) h
    have hbeq : (name == other) = false := by simpa using hne
    simp [key, List.lookup_cons, hbeq]

theorem key_foldl_add_of_mem {t : KeyTable} {name : String} (h : name ∈ t.entries.map (·.1))
    (names : List String) : (names.foldl add t).key name = t.key name := by
  induction names generalizing t with
  | nil => rfl
  | cons other names ih =>
    rw [List.foldl_cons, ih (mem_names_add.2 (.inr h)), key_add_of_mem h]

/-- A new name gets the first form of its base that is free. -/
theorem key_add_of_not_mem {t : KeyTable} {name : String} (h : name ∉ t.entries.map (·.1)) :
    (t.add name).key name = t.rules.freeKey (t.rules.base name) t.taken := by
  have hnone : t.entries.lookup name = none := lookup_eq_none.2 h
  rw [add, hnone, if_neg (by simp), key, List.lookup_cons, beq_self_eq_true]
  rfl

/-- A table has no names but those that were added. -/
theorem mem_of_mem_names_foldl_add {t : KeyTable} {names : List String} {name : String}
    (h : name ∈ (names.foldl add t).entries.map (·.1)) :
    name ∈ names ∨ name ∈ t.entries.map (·.1) := by
  induction names generalizing t with
  | nil => exact .inr h
  | cons other names ih =>
    rcases ih h with h | h
    · exact .inl (List.mem_cons_of_mem _ h)
    · rcases mem_names_add.1 h with rfl | h
      · exact .inl (List.mem_cons_self ..)
      · exact .inr h

section

variable {r : KeyRules} (h : r.Sound)

include h

/-- A table has the names for which it was made. -/
theorem mem_names_ofNames {names : List String} {name : String} :
    name ∈ (ofNames r names).entries.map (·.1) ↔ name ∈ names := by
  refine ⟨fun hmem => ?_, (sound_ofNames h names).2.2 name⟩
  rcases mem_of_mem_names_foldl_add hmem with hmem | hmem
  · exact hmem
  · exact absurd hmem List.not_mem_nil

/-- A name that comes later changes no key. -/
theorem key_ofNames_append_of_mem {before : List String} (after : List String) {name : String}
    (hname : name ∈ before) : (ofNames r (before ++ after)).key name = (ofNames r before).key name := by
  rw [ofNames, List.foldl_append]
  exact key_foldl_add_of_mem ((mem_names_ofNames h).2 hname) after

/-- A new name gets the first form of its base that no name in front of it has. -/
theorem exists_isFirstFree_key {before : List String} (after : List String) {name : String}
    (hnew : name ∉ before) : ∃ failures ≤ before.length,
      r.IsFirstFree (r.base name) ((ofNames r (before ++ name :: after)).keys before) failures
        ((ofNames r (before ++ name :: after)).key name) := by
  obtain ⟨hsound, hrules, -⟩ := sound_ofNames h before
  have hkey : (ofNames r (before ++ name :: after)).key name =
      r.freeKey (r.base name) (ofNames r before).taken := by
    have hadded : name ∈ ((ofNames r before).add name).entries.map (·.1) :=
      mem_names_add.2 (.inl rfl)
    have hfresh : name ∉ (ofNames r before).entries.map (·.1) :=
      fun hmem => hnew ((mem_names_ofNames h).1 hmem)
    have hlast : (ofNames r (before ++ name :: after)).key name =
        ((ofNames r before).add name).key name := by
      rw [ofNames, List.foldl_append, List.foldl_cons]
      exact key_foldl_add_of_mem hadded after
    rw [hlast, key_add_of_not_mem hfresh, hrules]
  -- The taken keys are those of the names in front, which have them in the whole table too.
  have htaken : ∀ key, key ∈ (ofNames r before).taken ↔
      key ∈ (ofNames r (before ++ name :: after)).keys before := by
    intro key
    rw [hsound.mem_taken, keys, List.mem_map]
    refine exists_congr fun other => ?_
    rw [mem_names_ofNames h]
    refine and_congr_right fun hother => ?_
    rw [key_ofNames_append_of_mem h _ hother]
  obtain ⟨failures, hfree⟩ := r.exists_isFirstFree (r.base name) (ofNames r before).taken
  rw [hkey]
  have hfirst := hfree.congr htaken
  refine ⟨failures, ?_, hfirst⟩
  have hlength := hfirst.le_length
  rwa [keys, List.length_map] at hlength

/-- The key of a name for which the table was not made is its base. -/
theorem key_ofNames_of_not_mem {names : List String} {name : String} (hname : name ∉ names) :
    (ofNames r names).key name = r.base name := by
  obtain ⟨-, hrules, -⟩ := sound_ofNames h names
  have hnone : (ofNames r names).entries.lookup name = none :=
    lookup_eq_none.2 fun hmem => hname ((mem_names_ofNames h).1 hmem)
  rw [key, hnone, hrules]
  rfl

/-- Names for which the table was made are told apart by their keys. -/
theorem key_ofNames_inj {names : List String} {a b : String} (ha : a ∈ names) (hb : b ∈ names)
    (heq : (ofNames r names).key a = (ofNames r names).key b) : a = b := by
  obtain ⟨hsound, -, hmem⟩ := sound_ofNames h names
  exact hsound.key_inj (hmem a ha) (hmem b hb) heq

/-- A name keeps its base if no name in front of it has that as its key. -/
theorem key_eq_base {before : List String} (after : List String) {name : String}
    (hfree : r.base name ∉ (ofNames r (before ++ name :: after)).keys before) :
    (ofNames r (before ++ name :: after)).key name = r.base name := by
  have hfirst : ∀ {before after : List String}, name ∉ before →
      r.base name ∉ (ofNames r (before ++ name :: after)).keys before →
        (ofNames r (before ++ name :: after)).key name = r.base name := by
    intro before after hnew hfree
    obtain ⟨failures, -, hkey⟩ := exists_isFirstFree_key h after hnew
    cases failures with
    | zero => exact hkey.key_eq
    | succ failures => exact absurd (hkey.failed 0 (Nat.succ_pos failures)) hfree
  by_cases hname : name ∈ before
  · -- Where the name stands first its base is free, so that later it is not.
    obtain ⟨earlier, between, rfl, hnew⟩ := List.eq_append_cons_of_mem hname
    have hlist : earlier ++ name :: between ++ name :: after =
        earlier ++ name :: (between ++ name :: after) := by
      rw [List.append_assoc, List.cons_append]
    have hkey : (ofNames r (earlier ++ name :: between ++ name :: after)).key name =
        r.base name := by
      rw [hlist] at hfree ⊢
      refine hfirst hnew fun hmem => hfree ?_
      rw [keys, List.map_append]
      exact List.mem_append_left _ hmem
    exact absurd (List.mem_map.2 ⟨name, hname, hkey⟩) hfree
  · exact hfirst hname hfree

end

end KeyTable

/-! ## Keys without dashes -/

namespace Azure

/-- No key of a stage holds a dash. -/
theorem dash_not_mem_key (jobs : List Job) (name : String) :
    '-' ∉ ((KeyTable.ofJobs keyRules jobs).key name).toList := by
  have hbase : '-' ∉ (keyRules.base name).toList := by
    intro hmem
    have hclean : keyRules.base name = keyRules.clean name := by
      have hnone : keyRules.reserved.contains (keyRules.clean name) = false := rfl
      simp only [KeyRules.base, hnone, Bool.false_eq_true, if_false]
    have htext : (keyRules.clean name).toList =
        (KeyRules.cleanName name).toList.map fun c => if c == '-' then '_' else c :=
      String.toList_ofList
    rw [hclean, htext] at hmem
    obtain ⟨c, -, hc⟩ := List.mem_map.1 hmem
    split at hc
    · exact absurd hc (by decide)
    · rename_i hdash
      exact hdash (beq_iff_eq.2 hc)
  -- A number comes with an underscore in front.
  rcases KeyTable.madeFrom_key (r := keyRules) jobs name with heq | ⟨n, -, heq⟩
  · rwa [heq]
  · have hseparator : '-' ∉ (String.singleton keyRules.separator).toList := by decide
    have hdigits : '-' ∉ (toString n).toList := by
      intro hmem
      rw [Nat.toString_eq_repr, Nat.toList_repr] at hmem
      exact absurd (Nat.isDigit_of_mem_toDigits (by decide) (by decide) hmem) (by decide)
    rw [heq, KeyRules.numbered, String.toList_append, String.toList_append, List.mem_append,
      List.mem_append]
    rintro ((hmem | hmem) | hmem)
    · exact hbase hmem
    · exact hseparator hmem
    · exact hdigits hmem

/-- A key without dashes is its own key. -/
theorem clean_of_isKey {key : String} (h : IsKey key) (hdash : '-' ∉ key.toList) :
    keyRules.clean key = key := by
  have hmap : (key.toList.map fun c => if c == '-' then '_' else c) = key.toList := by
    refine (List.map_congr_left fun c hc => ?_).trans (List.map_id _)
    rw [if_neg]
    · rfl
    · exact fun heq => hdash (beq_iff_eq.1 heq ▸ hc)
  have hclean : keyRules.clean key = String.ofList
      ((KeyRules.cleanName key).toList.map fun c => if c == '-' then '_' else c) := rfl
  rw [hclean, KeyRules.cleanName_of_isKey h, hmap, String.ofList_toList]

end Azure

namespace KeyTable

/-- A key is its own base. -/
theorem base_key {r : KeyRules} (hr : r ∈ KeyRules.inUse) (jobs : List Job) (name : String) :
    r.base ((ofJobs r jobs).key name) = (ofJobs r jobs).key name := by
  obtain ⟨hkey, hfree⟩ := key_ofJobs (KeyRules.sound_of_mem_inUse hr) jobs name
  refine KeyRules.base_of_clean ?_ hfree
  simp only [KeyRules.inUse, List.mem_cons, List.not_mem_nil, or_false] at hr
  rcases hr with rfl | rfl | rfl
  · exact KeyRules.cleanName_of_isKey hkey
  · exact KeyRules.cleanName_of_isKey hkey
  · exact Azure.clean_of_isKey hkey (Azure.dash_not_mem_key jobs name)

/-! ## Main results -/

/-- What the rules in use make of any jobs.  The search for the key of a job ends at the first form
of its base that no earlier job has, and fails at most as often as there are earlier jobs.
Different names have different keys.  Every key, also of a name that no job has, is made of lower
case letters, digits, dashes and underscores, for Azure without dashes, and can name a job of
GitLab.  A job whose base no earlier job has keeps it. -/
theorem key_laws {r : KeyRules} (hr : r ∈ KeyRules.inUse) (jobs : List Job) :
    (∀ before j after, jobs = before ++ j :: after → j.name ∉ before.map (·.name) →
      ∃ failures ≤ before.length, r.IsFirstFree (r.base j.name)
        (before.map fun b => (ofJobs r jobs).key b.name) failures ((ofJobs r jobs).key j.name)) ∧
    (∀ a ∈ jobs, ∀ b ∈ jobs, a.name ≠ b.name →
      (ofJobs r jobs).key a.name ≠ (ofJobs r jobs).key b.name) ∧
    (∀ name, (ofJobs r jobs).key name ≠ "" ∧
      (∀ c ∈ ((ofJobs r jobs).key name).toList,
        (c.isLower ∨ c.isDigit ∨ c = '_' ∨ c = '-') ∧ (r = Azure.keyRules → c ≠ '-')) ∧
      (r = Gitlab.keyRules → (ofJobs r jobs).key name ∉ Gitlab.keywords ∧
        ((ofJobs r jobs).key name).toList.head? ≠ some '.')) ∧
    (∀ before j after, jobs = before ++ j :: after →
      (∀ b ∈ before, (ofJobs r jobs).key b.name ≠ r.base j.name) →
        (ofJobs r jobs).key j.name = r.base j.name) := by
  have hsound := KeyRules.sound_of_mem_inUse hr
  have hnames : ∀ before (j : Job) after, (before ++ j :: after).map (·.name) =
      before.map (·.name) ++ j.name :: after.map (·.name) := fun before j after => by
    rw [List.map_append, List.map_cons]
  -- The search, different keys, legal keys, bases kept.
  refine ⟨?_, ?_, fun name => ?_, ?_⟩
  · rintro before j after rfl hnew
    rw [ofJobs, hnames]
    obtain ⟨failures, hle, hkey⟩ := exists_isFirstFree_key hsound (after.map (·.name)) hnew
    rw [List.length_map] at hle
    rw [keys, List.map_map] at hkey
    exact ⟨failures, hle, hkey⟩
  · intro a ha b hb hne heq
    exact hne (key_ofNames_inj hsound (List.mem_map_of_mem ha) (List.mem_map_of_mem hb) heq)
  · obtain ⟨hkey, hfree⟩ := key_ofJobs hsound jobs name
    refine ⟨hkey.ne_empty, fun c hc => ⟨?_, ?_⟩, ?_⟩
    · have hchar := hkey.chars c hc
      simp only [isKeyChar, Bool.or_eq_true, beq_iff_eq] at hchar
      rcases hchar with ((hlower | hdigit) | hdash) | hunder
      · exact .inl hlower
      · exact .inr (.inl hdigit)
      · exact .inr (.inr (.inr hdash))
      · exact .inr (.inr (.inl hunder))
    · rintro rfl rfl
      exact Azure.dash_not_mem_key jobs name hc
    · rintro rfl
      exact ⟨hfree, hkey.head?_ne_dot⟩
  · rintro before j after rfl hfree
    rw [ofJobs, hnames] at hfree ⊢
    refine key_eq_base hsound (after.map (·.name)) fun hmem => ?_
    obtain ⟨name, hname, heq⟩ := List.mem_map.1 hmem
    obtain ⟨b, hb, rfl⟩ := List.mem_map.1 hname
    exact hfree b hb heq

/-- Jobs whose names meet in their keys: with each other, with a keyword, with a keyword made into a
key, and with a numbered key.  One depends on a name that no job has. -/
def crowdedJobs : List Job :=
  [Job.new "stages" "r", Job.new "Stages" "r", Job.new "stages job" "r",
    { Job.new "a" "r" with dependsOn := ["Stages", "A+2"] }, Job.new "A" "r", Job.new "a-2" "r"]

theorem key_laws_crowdedJobs :
    (∃ failures ≤ 5, Gitlab.keyRules.IsFirstFree "a-2"
      ["stages-job", "stages-job-2", "stages-job-3", "a", "a-2"] failures
      ((ofJobs Gitlab.keyRules crowdedJobs).key "a-2")) ∧
    (ofJobs Gitlab.keyRules crowdedJobs).key "stages job" ≠
      (ofJobs Gitlab.keyRules crowdedJobs).key "Stages" ∧
    (ofJobs Gitlab.keyRules crowdedJobs).key "Image" ∉ Gitlab.keywords ∧
    (ofJobs Gitlab.keyRules crowdedJobs).key "a" = "a" := by
  obtain ⟨hsearch, hdistinct, hlegal, hbase⟩ := key_laws (r := Gitlab.keyRules)
    (List.mem_cons_of_mem _ (List.mem_cons_self ..)) crowdedJobs
  refine ⟨?_, ?_, ((hlegal "Image").2.2 rfl).1, ?_⟩
  · exact hsearch (crowdedJobs.take 5) (Job.new "a-2" "r") [] rfl (by decide +kernel)
  · exact hdistinct (Job.new "stages job" "r") (by simp [crowdedJobs]) (Job.new "Stages" "r")
      (by simp [crowdedJobs]) (by decide +kernel)
  · exact hbase (crowdedJobs.take 3) _ (crowdedJobs.drop 4) rfl (by decide +kernel)

/-- Jobs that go by their keys keep them, and so do the names on which they depend: the table for
the renamed jobs gives back each key that the first table gave, and renaming the jobs once more
changes nothing. -/
theorem key_renamed_renamed {r : KeyRules} (hr : r ∈ KeyRules.inUse) (jobs : List Job) :
    (∀ name, (ofJobs r (jobs.map (Job.renamed (ofJobs r jobs)))).key ((ofJobs r jobs).key name) =
      (ofJobs r jobs).key name) ∧
    (jobs.map (Job.renamed (ofJobs r jobs))).map
        (Job.renamed (ofJobs r (jobs.map (Job.renamed (ofJobs r jobs))))) =
      jobs.map (Job.renamed (ofJobs r jobs)) := by
  have hkey : ∀ name, (ofJobs r (jobs.map (Job.renamed (ofJobs r jobs)))).key
      ((ofJobs r jobs).key name) = (ofJobs r jobs).key name := by
    refine key_key_of_base (base_key hr jobs) ?_
    rw [List.map_map]
    rfl
  refine ⟨hkey, ?_⟩
  rw [List.map_map]
  refine List.map_congr_left fun j _ => ?_
  have hneeds : (ofJobs r (jobs.map (Job.renamed (ofJobs r jobs)))).keys
      ((ofJobs r jobs).keys j.dependsOn) = (ofJobs r jobs).keys j.dependsOn := by
    rw [keys, keys, List.map_map]
    exact List.map_congr_left fun name _ => hkey name
  simp only [Function.comp_apply, Job.renamed, hkey, hneeds]

theorem key_renamed_renamed_crowdedJobs :
    Azure.keyRules ∈ KeyRules.inUse ∧
    (ofJobs Azure.keyRules (crowdedJobs.map (Job.renamed (ofJobs Azure.keyRules crowdedJobs)))).keys
      ["a_2", "a_2_2"] = ["a_2", "a_2_2"] := by
  have hr : Azure.keyRules ∈ KeyRules.inUse := by simp [KeyRules.inUse]
  obtain ⟨hkey, -⟩ := key_renamed_renamed hr crowdedJobs
  have hA : (ofJobs Azure.keyRules crowdedJobs).key "A" = "a_2" := by decide +kernel
  have hnumbered : (ofJobs Azure.keyRules crowdedJobs).key "a-2" = "a_2_2" := by decide +kernel
  refine ⟨hr, ?_⟩
  rw [keys, List.map_cons, List.map_cons, List.map_nil, ← hA, hkey, hA, ← hnumbered, hkey]

end KeyTable
end CiPipelines
