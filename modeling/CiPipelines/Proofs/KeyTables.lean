import CiPipelines.KeyTable
import CiPipelines.Proofs.OrdinaryText
import Mathlib.Data.List.Nodup

/-!
# Keys of a table

Keys are made of lower case letters, digits, dashes and underscores, and are no reserved words.
A table gives each of its names a key of its own: of a number of numbered forms, one more than the
keys that are taken, at least one is free.
-/

namespace CiPipelines

/-- A character of a key. -/
def isKeyChar (c : Char) : Bool :=
  c.isLower || c.isDigit || c == '-' || c == '_'

/-- A text that is a key. -/
structure IsKey (s : String) : Prop where
  ne_empty : s ≠ ""
  chars : ∀ c ∈ s.toList, isKeyChar c = true

theorem isKeyChar_iff {c : Char} : isKeyChar c = true ↔
    ((97 ≤ c.toNat ∧ c.toNat ≤ 122 ∨ 48 ≤ c.toNat ∧ c.toNat ≤ 57) ∨ c.toNat = 45) ∨
      c.toNat = 95 := by
  rw [isKeyChar, Bool.or_eq_true, Bool.or_eq_true, Bool.or_eq_true, Text.isLower_iff,
    Text.isDigit_iff, Text.beq_eq_toNat_beq, Text.beq_eq_toNat_beq, beq_iff_eq, beq_iff_eq]
  rfl

theorem isOrdinary_of_isKeyChar {c : Char} (h : isKeyChar c = true) :
    Text.isOrdinary c = true := by
  rw [isKeyChar_iff] at h
  simp [Text.isOrdinary]
  omega

namespace IsKey

theorem append {a b : String} (ha : IsKey a) (hb : ∀ c ∈ b.toList, isKeyChar c = true) :
    IsKey (a ++ b) := by
  refine ⟨fun h => ha.ne_empty (String.append_eq_empty_iff.1 h).1, fun c hc => ?_⟩
  rw [String.toList_append] at hc
  rcases List.mem_append.1 hc with hc | hc
  · exact ha.chars c hc
  · exact hb c hc

/-- Keys are ordinary text. -/
theorem ordinary {s : String} (h : IsKey s) : Text.Ordinary s := by
  have hlineFeed : '\n' ∉ s.toList := fun hmem => absurd (h.chars _ hmem) (by decide)
  refine ⟨fun c hc => isOrdinary_of_isKeyChar (h.chars c hc), fun heq => ?_, fun hsuffix => ?_⟩
  · exact hlineFeed (heq ▸ List.mem_singleton_self _)
  · exact hlineFeed (hsuffix.mem (List.mem_cons_self ..))

/-- No key is a merge key. -/
theorem ne_merge {s : String} (h : IsKey s) : s ≠ "<<" := by
  rintro rfl
  exact absurd (h.chars '<' (by decide)) (by decide)

/-- No key starts with a dot. -/
theorem head?_ne_dot {s : String} (h : IsKey s) : s.toList.head? ≠ some '.' := by
  intro hhead
  exact absurd (h.chars '.' (List.mem_of_mem_head? hhead)) (by decide)

end IsKey

namespace KeyRules

/-- A letter in lower case is a character of a key. -/
theorem isKeyChar_toLower {c : Char} (h : c.isAlphanum || c == '-' || c == '_') :
    isKeyChar c.toLower = true := by
  rw [Bool.or_eq_true, Bool.or_eq_true, Text.isAlphanum_iff, Text.beq_eq_toNat_beq,
    Text.beq_eq_toNat_beq, beq_iff_eq, beq_iff_eq] at h
  have hdash : '-'.toNat = 45 := rfl
  have hunderscore : '_'.toNat = 95 := rfl
  rw [isKeyChar_iff, Text.toNat_toLower]
  split
  · omega
  · omega

/-- Cleaned-up names are keys. -/
theorem isKey_cleanName (name : String) : IsKey (cleanName name) := by
  unfold cleanName
  split
  · exact ⟨by decide, List.all_eq_true.1 (by decide : "job".toList.all isKeyChar = true)⟩
  · rename_i hne
    refine ⟨fun h => hne ?_, fun c hc => ?_⟩
    · simpa using congrArg String.toList h
    · rw [String.toList_ofList] at hc
      obtain ⟨d, -, rfl⟩ := List.mem_map.1 hc
      split
      · rename_i hd
        exact isKeyChar_toLower hd
      · decide

theorem isSpace_of_isKeyChar {c : Char} (h : isKeyChar c = true) : Text.isSpace c = false := by
  rw [isKeyChar_iff] at h
  simp [Text.isSpace]
  omega

theorem toLower_of_isKeyChar {c : Char} (h : isKeyChar c = true) :
    (c.isAlphanum || c == '-' || c == '_') = true ∧ c.toLower = c := by
  rw [isKeyChar_iff] at h
  have hdash : '-'.toNat = 45 := rfl
  have hunderscore : '_'.toNat = 95 := rfl
  refine ⟨?_, ?_⟩
  · rw [Bool.or_eq_true, Bool.or_eq_true, Text.isAlphanum_iff, Text.beq_eq_toNat_beq,
      Text.beq_eq_toNat_beq, beq_iff_eq, beq_iff_eq]
    omega
  · rw [← Char.toNat_inj, Text.toNat_toLower, if_neg (by omega)]

/-- A key is its own cleaned-up name. -/
theorem cleanName_of_isKey {s : String} (h : IsKey s) : cleanName s = s := by
  have hspace : ∀ c ∈ s.toList, Text.isSpace c = false := fun c hc =>
    isSpace_of_isKeyChar (h.chars c hc)
  have hdrop : ∀ text : List Char, (∀ c ∈ text, Text.isSpace c = false) →
      text.dropWhile Text.isSpace = text := by
    intro text htext
    cases text with
    | nil => rfl
    | cons c text => exact List.dropWhile_cons_of_neg (by simp [htext c (List.mem_cons_self ..)])
  have htrim : Text.trim s.toList = s.toList := by
    rw [Text.trim, Text.stripWhile, hdrop _ hspace, Text.dropEndWhile,
      hdrop _ fun c hc => hspace c (List.mem_reverse.1 hc), List.reverse_reverse]
  unfold cleanName
  rw [htrim]
  split
  · rename_i hnil
    exact absurd (String.toList_inj.1 hnil) h.ne_empty
  · have hmap : (s.toList.map fun c =>
        if c.isAlphanum || c == '-' || c == '_' then c.toLower else '-') = s.toList := by
      refine (List.map_congr_left fun c hc => ?_).trans (List.map_id _)
      obtain ⟨hkeep, hlower⟩ := toLower_of_isKeyChar (h.chars c hc)
      rw [if_pos hkeep, hlower]
      rfl
    rw [hmap, String.ofList_toList]

/-- A clean name that is not reserved is its own key. -/
theorem base_of_clean {r : KeyRules} {name : String} (hclean : r.clean name = name)
    (hfree : name ∉ r.reserved) : r.base name = name := by
  rw [base, hclean, if_neg]
  exact fun hmem => hfree (List.contains_iff_mem.1 hmem)

/-- Rules that make keys, and whose added words tell them from reserved ones. -/
structure Sound (r : KeyRules) : Prop where
  clean : ∀ name, IsKey (r.clean name)
  separator : isKeyChar r.separator = true
  reserved : ∀ w ∈ r.reserved, r.separator ∉ w.toList

theorem sound_standard : Sound .standard :=
  ⟨isKey_cleanName, by decide, fun _ hw => absurd hw List.not_mem_nil⟩

namespace Sound

variable {r : KeyRules} (h : r.Sound)

include h

/-- A key with something added to it is a key, and not reserved. -/
theorem separated {a b : String} (ha : IsKey a) (hb : ∀ c ∈ b.toList, isKeyChar c = true) :
    IsKey (a ++ String.singleton r.separator ++ b) ∧
      a ++ String.singleton r.separator ++ b ∉ r.reserved := by
  have hseparator : ∀ c ∈ (String.singleton r.separator).toList, isKeyChar c = true := by
    intro c hc
    rw [String.toList_singleton, List.mem_singleton] at hc
    rw [hc]
    exact h.separator
  refine ⟨(ha.append hseparator).append hb, fun hmem => h.reserved _ hmem ?_⟩
  simp [String.toList_append]

theorem base (name : String) : IsKey (r.base name) ∧ r.base name ∉ r.reserved := by
  unfold KeyRules.base
  dsimp only
  split
  · exact h.separated (h.clean name)
      (List.all_eq_true.1 (by decide : "job".toList.all isKeyChar = true))
  · rename_i hfree
    exact ⟨h.clean name, fun hmem => hfree (List.contains_iff_mem.2 hmem)⟩

theorem numbered {base : String} (hbase : IsKey base) (n : Nat) :
    IsKey (r.numbered base n) ∧ r.numbered base n ∉ r.reserved := by
  refine h.separated hbase fun c hc => ?_
  rw [Nat.toString_eq_repr, Nat.toList_repr] at hc
  have hdigit := Nat.isDigit_of_mem_toDigits (by decide) (by decide) hc
  simp [isKeyChar, hdigit]

theorem firstFree {base : String} (hbase : IsKey base) (taken : List String) (more n : Nat) :
    IsKey (r.firstFree base taken more n) ∧ r.firstFree base taken more n ∉ r.reserved := by
  induction more generalizing n with
  | zero => exact h.numbered hbase n
  | succ more ih =>
    unfold KeyRules.firstFree
    split
    · exact ih (n + 1)
    · exact h.numbered hbase n

/-- The key that a name gets is a key, and not reserved. -/
theorem freeKey (name : String) (taken : List String) :
    IsKey (r.freeKey (r.base name) taken) ∧ r.freeKey (r.base name) taken ∉ r.reserved := by
  unfold KeyRules.freeKey
  split
  · exact h.firstFree (h.base name).1 taken _ _
  · exact h.base name

end Sound

/-! ## Free keys -/

section

variable (r : KeyRules)

/-- Each number gives a form of its own. -/
theorem numbered_inj {base : String} {m n : Nat} (h : r.numbered base m = r.numbered base n) :
    m = n := by
  have hrepr := congrArg String.toList h
  simp only [numbered, String.toList_append, List.append_cancel_left_eq, Nat.toString_eq_repr,
    Nat.toList_repr] at hrepr
  have hvalue : ∀ n : Nat, Nat.ofDigitChars 10 (Nat.toDigits 10 n) 0 = n := fun n =>
    Nat.ofDigitChars_toDigits (by decide) (by decide)
  rw [← hvalue m, hrepr, hvalue n]

theorem numbered_ne (base : String) (n : Nat) : r.numbered base n ≠ base := by
  intro heq
  have hlength := congrArg String.length heq
  simp [numbered, String.length_append] at hlength
  omega

/-- The search ends at a free form, or every form that was tried is taken. -/
theorem firstFree_not_mem (base : String) (taken : List String) (more n : Nat) :
    r.firstFree base taken more n ∉ taken ∨
      (∀ i < more, r.numbered base (n + i) ∈ taken) ∧
        r.firstFree base taken more n = r.numbered base (n + more) := by
  induction more generalizing n with
  | zero => exact .inr ⟨fun i hi => absurd hi (Nat.not_lt_zero i), rfl⟩
  | succ more ih =>
    unfold firstFree
    split
    · rename_i htaken
      rcases ih (n + 1) with hfree | ⟨hall, hlast⟩
      · exact .inl hfree
      · refine .inr ⟨fun i hi => ?_, by rw [hlast, Nat.add_right_comm, Nat.add_assoc]⟩
        cases i with
        | zero => exact List.contains_iff_mem.1 htaken
        | succ i =>
          have hmem := hall i (Nat.lt_of_succ_lt_succ hi)
          rwa [Nat.add_right_comm, Nat.add_assoc] at hmem
    · rename_i hfree
      exact .inl fun hmem => hfree (List.contains_iff_mem.2 hmem)

/-- The key that is found is free. -/
theorem freeKey_not_mem (base : String) (taken : List String) :
    r.freeKey base taken ∉ taken := by
  unfold freeKey
  split
  · rename_i htaken
    rcases r.firstFree_not_mem base taken taken.length 2 with hfree | ⟨hall, -⟩
    · exact hfree
    · -- The base and its forms would be more keys than are taken.
      let forms := base :: (List.range taken.length).map fun i => r.numbered base (2 + i)
      have hnodup : forms.Nodup := by
        refine List.nodup_cons.2 ⟨fun hmem => ?_, ?_⟩
        · obtain ⟨i, -, hi⟩ := List.mem_map.1 hmem
          exact r.numbered_ne base (2 + i) hi
        · refine List.pairwise_map.2 (List.nodup_range.imp fun hne heq => hne ?_)
          exact Nat.add_left_cancel (r.numbered_inj heq)
      have hsubset : forms ⊆ taken := by
        intro key hkey
        rcases List.mem_cons.1 hkey with rfl | hkey
        · exact List.contains_iff_mem.1 htaken
        · obtain ⟨i, hi, rfl⟩ := List.mem_map.1 hkey
          exact hall i (List.mem_range.1 hi)
      have hlength := hnodup.length_le_of_subset hsubset
      rw [List.length_cons, List.length_map, List.length_range] at hlength
      exact absurd hlength (Nat.not_succ_le_self _)
  · rename_i hfree
    exact fun hmem => hfree (List.contains_iff_mem.2 hmem)

end

end KeyRules

/-! ## Tables -/

namespace KeyTable

/-- A table of keys that are not reserved, each name and each key once. -/
structure Sound (t : KeyTable) : Prop where
  rules : t.rules.Sound
  keys : ∀ entry ∈ t.entries, IsKey entry.2 ∧ entry.2 ∉ t.rules.reserved
  names_nodup : (t.entries.map (·.1)).Nodup
  keys_nodup : (t.entries.map (·.2)).Nodup

theorem lookup_eq_none {α : Type} {entries : List (String × α)} {name : String} :
    entries.lookup name = none ↔ name ∉ entries.map (·.1) := by
  rw [List.lookup_eq_none_iff, List.mem_map]
  constructor
  · rintro h ⟨entry, hentry, rfl⟩
    exact bne_iff_ne.1 (h entry hentry) rfl
  · exact fun h entry hentry => bne_iff_ne.2 fun heq => h ⟨entry, hentry, heq.symm⟩

/-- A name that has a key keeps it, and no other name gets it. -/
theorem Sound.add {t : KeyTable} (h : t.Sound) (name : String) : (t.add name).Sound := by
  unfold KeyTable.add
  split
  · exact h
  · rename_i hnew
    have hname : name ∉ t.entries.map (·.1) :=
      lookup_eq_none.1 (Option.not_isSome_iff_eq_none.1 hnew)
    refine ⟨h.rules, ?_, List.nodup_cons.2 ⟨hname, h.names_nodup⟩,
      List.nodup_cons.2 ⟨KeyRules.freeKey_not_mem _ _ _, h.keys_nodup⟩⟩
    intro entry hentry
    rcases List.mem_cons.1 hentry with rfl | hentry
    · exact h.rules.freeKey name t.taken
    · exact h.keys entry hentry

theorem add_rules (t : KeyTable) (name : String) : (t.add name).rules = t.rules := by
  unfold KeyTable.add
  split <;> rfl

/-- A name is in the table if it was there or was added. -/
theorem mem_names_add {t : KeyTable} {name other : String} :
    other ∈ (t.add name).entries.map (·.1) ↔ other = name ∨ other ∈ t.entries.map (·.1) := by
  unfold KeyTable.add
  split
  · rename_i hold
    have hname : name ∈ t.entries.map (·.1) := by
      cases hlookup : t.entries.lookup name with
      | none => simp [hlookup] at hold
      | some key =>
        refine Decidable.byContradiction fun hnot => ?_
        simp [lookup_eq_none.2 hnot] at hlookup
    refine ⟨.inr, fun h => ?_⟩
    rcases h with rfl | h
    · exact hname
    · exact h
  · simp

theorem sound_foldl_add {t : KeyTable} (h : t.Sound) (names : List String) :
    (names.foldl add t).Sound ∧ (names.foldl add t).rules = t.rules ∧
      (∀ name ∈ names, name ∈ (names.foldl add t).entries.map (·.1)) ∧
        ∀ name ∈ t.entries.map (·.1), name ∈ (names.foldl add t).entries.map (·.1) := by
  induction names generalizing t with
  | nil => exact ⟨h, rfl, fun name hname => absurd hname List.not_mem_nil, fun name hname => hname⟩
  | cons name names ih =>
    obtain ⟨hsound, hrules, hnew, hold⟩ := ih (h.add name)
    refine ⟨hsound, hrules.trans (t.add_rules name), fun other hother => ?_, fun other hother => ?_⟩
    · rcases List.mem_cons.1 hother with rfl | hother
      · exact hold _ (mem_names_add.2 (.inl rfl))
      · exact hnew other hother
    · exact hold other (mem_names_add.2 (.inr hother))

/-- The table of some names holds keys for them. -/
theorem sound_ofNames {r : KeyRules} (h : r.Sound) (names : List String) :
    (ofNames r names).Sound ∧ (ofNames r names).rules = r ∧
      ∀ name ∈ names, name ∈ (ofNames r names).entries.map (·.1) := by
  have hempty : Sound ⟨r, []⟩ :=
    ⟨h, fun entry hentry => absurd hentry List.not_mem_nil, List.nodup_nil, List.nodup_nil⟩
  obtain ⟨hsound, hrules, hnames, -⟩ := sound_foldl_add hempty names
  exact ⟨hsound, hrules, hnames⟩

theorem mem_of_lookup {α : Type} {entries : List (String × α)} {name : String} {key : α}
    (h : entries.lookup name = some key) : (name, key) ∈ entries := by
  obtain ⟨before, after, rfl, -⟩ := List.lookup_eq_some_iff.1 h
  exact List.mem_append_right _ (List.mem_cons_self ..)

/-- The key of any name is a key, and not reserved. -/
theorem Sound.key {t : KeyTable} (h : t.Sound) (name : String) :
    IsKey (t.key name) ∧ t.key name ∉ t.rules.reserved := by
  unfold KeyTable.key
  cases hlookup : t.entries.lookup name with
  | none => exact h.rules.base name
  | some key => exact h.keys _ (mem_of_lookup hlookup)

/-- A name of the table stands there with its key. -/
theorem key_mem_entries {t : KeyTable} {name : String} (h : name ∈ t.entries.map (·.1)) :
    (name, t.key name) ∈ t.entries := by
  cases hlookup : t.entries.lookup name with
  | none => exact absurd h (lookup_eq_none.1 hlookup)
  | some key =>
    rw [KeyTable.key, hlookup]
    exact mem_of_lookup hlookup

/-- Names of the table with one key are one name. -/
theorem Sound.key_inj {t : KeyTable} (h : t.Sound) {a b : String}
    (ha : a ∈ t.entries.map (·.1)) (hb : b ∈ t.entries.map (·.1)) (heq : t.key a = t.key b) :
    a = b :=
  congrArg Prod.fst
    (List.inj_on_of_nodup_map h.keys_nodup (key_mem_entries ha) (key_mem_entries hb) heq)

/-- The keys that are taken are those of the names of the table. -/
theorem Sound.mem_taken {t : KeyTable} (h : t.Sound) {key : String} :
    key ∈ t.taken ↔ ∃ name ∈ t.entries.map (·.1), t.key name = key := by
  refine List.mem_map.trans ⟨?_, ?_⟩
  · rintro ⟨entry, hentry, rfl⟩
    have hname := List.mem_map_of_mem (f := (·.1)) hentry
    have heq := List.inj_on_of_nodup_map h.names_nodup (key_mem_entries hname) hentry rfl
    exact ⟨entry.1, hname, congrArg Prod.snd heq⟩
  · rintro ⟨name, hname, rfl⟩
    exact ⟨_, key_mem_entries hname, rfl⟩

section

variable {r : KeyRules} (h : r.Sound) (jobs : List Job)

include h

/-- Keys of jobs, and of names that no job has, are keys and not reserved. -/
theorem key_ofJobs (name : String) :
    IsKey ((ofJobs r jobs).key name) ∧ (ofJobs r jobs).key name ∉ r.reserved := by
  obtain ⟨hsound, hrules, -⟩ := sound_ofNames h (jobs.map (·.name))
  have hkey := hsound.key name
  rw [hrules] at hkey
  exact hkey

/-- Jobs of different names have different keys. -/
theorem key_ofJobs_nodup (hnodup : (jobs.map (·.name)).Nodup) :
    (jobs.map fun j => (ofJobs r jobs).key j.name).Nodup := by
  obtain ⟨hsound, -, hnames⟩ := sound_ofNames h (jobs.map (·.name))
  have hkeys : ((jobs.map (·.name)).map (ofJobs r jobs).key).Nodup := by
    refine List.pairwise_map.2 (hnodup.imp_of_mem fun ha hb hne heq => hne ?_)
    exact hsound.key_inj (hnames _ ha) (hnames _ hb) heq
  rwa [List.map_map] at hkeys

end

/-! ### Names that are keys -/

/-- A name that is a key on its own is added as its own key. -/
theorem add_self {t : KeyTable} (hself : ∀ entry ∈ t.entries, entry.1 = entry.2) {name : String}
    (hname : t.rules.base name = name) : ∀ entry ∈ (t.add name).entries, entry.1 = entry.2 := by
  unfold add
  split
  · exact hself
  · rename_i hnew
    have hfree : name ∉ t.taken := by
      have htaken : t.taken = t.entries.map (·.1) :=
        List.map_congr_left fun entry hentry => (hself entry hentry).symm
      rw [htaken]
      exact lookup_eq_none.1 (Option.not_isSome_iff_eq_none.1 hnew)
    intro entry hentry
    rcases List.mem_cons.1 hentry with rfl | hentry
    · rw [hname, KeyRules.freeKey, if_neg fun hmem => hfree (List.contains_iff_mem.1 hmem)]
    · exact hself entry hentry

theorem foldl_add_self {r : KeyRules} {names : List String}
    (hnames : ∀ name ∈ names, r.base name = name) {t : KeyTable} (hrules : t.rules = r)
    (hself : ∀ entry ∈ t.entries, entry.1 = entry.2) :
    (names.foldl add t).rules = r ∧
      ∀ entry ∈ (names.foldl add t).entries, entry.1 = entry.2 := by
  induction names generalizing t with
  | nil => exact ⟨hrules, hself⟩
  | cons name names ih =>
    have hname : t.rules.base name = name := hrules ▸ hnames name (List.mem_cons_self ..)
    exact ih (fun other hother => hnames other (List.mem_cons_of_mem _ hother))
      ((add_rules t name).trans hrules) (add_self hself hname)

/-- In a table of names that are keys on their own, such names are their own keys. -/
theorem key_ofNames_self {r : KeyRules} {names : List String}
    (hnames : ∀ name ∈ names, r.base name = name) {name : String} (hname : r.base name = name) :
    (ofNames r names).key name = name := by
  obtain ⟨hrules, hself⟩ := @foldl_add_self r names hnames ⟨r, []⟩ rfl
    fun entry hentry => absurd hentry List.not_mem_nil
  rw [key]
  cases hlookup : (ofNames r names).entries.lookup name with
  | none =>
    rw [Option.getD_none]
    exact (congrArg (·.base name) hrules).trans hname
  | some key => exact (hself _ (mem_of_lookup hlookup)).symm

/-- A job alone, whose name is a key already, is written under its name. -/
theorem key_ofJobs_single {r : KeyRules} {j : Job} (hclean : r.clean j.name = j.name)
    (hfree : j.name ∉ r.reserved) : (ofJobs r [j]).key j.name = j.name := by
  have hbase := KeyRules.base_of_clean hclean hfree
  exact key_ofNames_self (fun name hname => (List.mem_singleton.1 hname).symm ▸ hbase) hbase

/-- Jobs that are named by keys which are their own bases have these keys in a table of their own,
and so have the names that no job has. -/
theorem key_key_of_base {r : KeyRules} {jobs written : List Job}
    (hbase : ∀ name, r.base ((ofJobs r jobs).key name) = (ofJobs r jobs).key name)
    (hnames : written.map (·.name) = jobs.map fun j => (ofJobs r jobs).key j.name)
    (name : String) :
    (ofJobs r written).key ((ofJobs r jobs).key name) = (ofJobs r jobs).key name := by
  refine key_ofNames_self (fun other hother => ?_) (hbase name)
  rw [hnames] at hother
  obtain ⟨j, -, rfl⟩ := List.mem_map.1 hother
  exact hbase j.name

/-- Jobs that are named by the keys of a table have these keys in a table of their own, and so
have the names that no job has. -/
theorem key_key {r : KeyRules} (h : r.Sound) (hclean : ∀ key, IsKey key → r.clean key = key)
    {jobs written : List Job}
    (hnames : written.map (·.name) = jobs.map fun j => (ofJobs r jobs).key j.name)
    (name : String) :
    (ofJobs r written).key ((ofJobs r jobs).key name) = (ofJobs r jobs).key name := by
  refine key_key_of_base (fun name => ?_) hnames name
  obtain ⟨hkey, hfree⟩ := key_ofJobs h jobs name
  exact KeyRules.base_of_clean (hclean _ hkey) hfree

theorem keys_keys {r : KeyRules} (h : r.Sound) (hclean : ∀ key, IsKey key → r.clean key = key)
    {jobs written : List Job}
    (hnames : written.map (·.name) = jobs.map fun j => (ofJobs r jobs).key j.name)
    (names : List String) :
    (ofJobs r written).keys ((ofJobs r jobs).keys names) = (ofJobs r jobs).keys names := by
  rw [keys, keys, List.map_map]
  exact List.map_congr_left fun name _ => key_key h hclean hnames name

end KeyTable

/-- The job, and the jobs it depends on, under their keys. -/
def Job.renamed (keys : KeyTable) (j : Job) : Job :=
  { j with name := keys.key j.name, dependsOn := keys.keys j.dependsOn }

/-- The pipeline with each job, also where others depend on it, under its key. -/
def Pipeline.renamed (p : Pipeline) (keys : KeyTable) : Pipeline :=
  { p with jobs := p.jobs.map (Job.renamed keys) }

theorem isKey_letters {n : Nat} (h : 0 < n) : IsKey (String.ofList (List.replicate n 'a')) := by
  refine ⟨fun hempty => ?_, fun c hc => ?_⟩
  · have hlength := congrArg String.length hempty
    rw [String.length_ofList, List.length_replicate] at hlength
    exact Nat.ne_of_gt h hlength
  · rw [String.toList_ofList] at hc
    rw [List.eq_of_mem_replicate hc]
    decide

/-- A name of 1025 letters, which a YAML reader does not take as a key. -/
@[irreducible] def longName : String := String.ofList (List.replicate 1025 'a')

theorem length_longName : longName.toList.length = 1025 := by
  unfold longName
  rw [String.toList_ofList, List.length_replicate]

theorem isKey_longName : IsKey longName := by
  unfold longName
  exact isKey_letters (by decide)

end CiPipelines
