import CiPipelines.Proofs.OutlineParts
import Mathlib.Data.Nat.Digits.Defs

/-!
# How long keys are

The key of a job is no longer than its name, but for an added word and a number.  As no pipeline
has so many jobs that their numbers have many digits, names of up to 500 characters have keys that
are short enough to be read as keys.
-/

namespace CiPipelines

namespace KeyRules

theorem length_stripWhile_le (p : Char → Bool) (text : List Char) :
    (Text.stripWhile p text).length ≤ text.length := by
  exact Nat.le_trans (List.rdropWhile_prefix ..).length_le (List.dropWhile_sublist p).length_le

/-- A cleaned-up name is no longer than the name, or it is the word for a blank name. -/
theorem length_cleanName_le (name : String) : (cleanName name).length ≤ max 3 name.length := by
  unfold cleanName
  split
  · exact Nat.le_max_left 3 _
  · rw [String.length_ofList, List.length_map, ← String.length_toList]
    exact Nat.le_trans (length_stripWhile_le Text.isSpace name.toList) (Nat.le_max_right ..)

section

variable {r : KeyRules}

/-- The word that tells a key from a reserved one adds four characters. -/
theorem length_base_le (hclean : ∀ name, (r.clean name).length ≤ max 3 name.length)
    (name : String) : (r.base name).length ≤ max 3 name.length + 4 := by
  unfold base
  dsimp only
  split
  · rw [String.length_append, String.length_append, String.length_singleton]
    exact Nat.add_le_add_right (hclean name) 4
  · exact Nat.le_trans (hclean name) (Nat.le_add_right _ 4)

theorem length_numbered_le (base : String) {n digits : Nat} (hdigits : 0 < digits)
    (hn : n < 10 ^ digits) : (r.numbered base n).length ≤ base.length + 1 + digits := by
  rw [numbered, String.length_append, String.length_append, String.length_singleton]
  exact Nat.add_le_add_left (Nat.repr_length n digits hdigits hn) _

/-- The search for a free form ends at one of the numbers that it may try. -/
theorem exists_firstFree_eq (base : String) (taken : List String) (more n : Nat) :
    ∃ m ≤ n + more, r.firstFree base taken more n = r.numbered base m := by
  induction more generalizing n with
  | zero => exact ⟨n, Nat.le_refl n, rfl⟩
  | succ more ih =>
    unfold firstFree
    split
    · obtain ⟨m, hm, heq⟩ := ih (n + 1)
      exact ⟨m, by omega, heq⟩
    · exact ⟨n, Nat.le_add_right n _, rfl⟩

/-- A key that is made from a base: the base itself, or with a number up to `bound`. -/
def MadeFrom (r : KeyRules) (bound : Nat) (base key : String) : Prop :=
  key = base ∨ ∃ n ≤ bound, key = r.numbered base n

theorem madeFrom_freeKey (base : String) {taken : List String} {bound : Nat}
    (hbound : taken.length + 2 ≤ bound) : r.MadeFrom bound base (r.freeKey base taken) := by
  unfold freeKey
  split
  · obtain ⟨n, hn, heq⟩ := @exists_firstFree_eq r base taken taken.length 2
    exact .inr ⟨n, by omega, heq⟩
  · exact .inl rfl

end

end KeyRules

namespace KeyTable

variable {r : KeyRules}

/-- A table of few entries makes the next key with a small number. -/
theorem madeFrom_add {t : KeyTable} {bound : Nat} (hrules : t.rules = r)
    (hbound : t.entries.length + 2 ≤ bound)
    (hmade : ∀ entry ∈ t.entries, r.MadeFrom bound (r.base entry.1) entry.2) (name : String) :
    (t.add name).entries.length ≤ t.entries.length + 1 ∧
      ∀ entry ∈ (t.add name).entries, r.MadeFrom bound (r.base entry.1) entry.2 := by
  unfold add
  split
  · exact ⟨Nat.le_succ _, hmade⟩
  · refine ⟨Nat.le_refl _, fun entry hentry => ?_⟩
    rcases List.mem_cons.1 hentry with rfl | hentry
    · rw [hrules]
      refine KeyRules.madeFrom_freeKey _ ?_
      rw [taken, List.length_map]
      exact hbound
    · exact hmade entry hentry

/-- The numbers in a table are bounded by how many names it was made for. -/
theorem madeFrom_foldl_add {names : List String} {t : KeyTable} {bound : Nat}
    (hrules : t.rules = r) (hbound : t.entries.length + names.length + 2 ≤ bound)
    (hmade : ∀ entry ∈ t.entries, r.MadeFrom bound (r.base entry.1) entry.2) :
    ∀ entry ∈ (names.foldl add t).entries, r.MadeFrom bound (r.base entry.1) entry.2 := by
  induction names generalizing t with
  | nil => exact hmade
  | cons name names ih =>
    rw [List.length_cons] at hbound
    obtain ⟨hlength, hadded⟩ := madeFrom_add hrules (by omega) hmade name
    exact ih ((add_rules t name).trans hrules) (by omega) hadded

theorem madeFrom_key_ofNames (names : List String) (name : String) :
    r.MadeFrom (names.length + 2) (r.base name) ((ofNames r names).key name) := by
  have hmade := @madeFrom_foldl_add r names ⟨r, []⟩ (names.length + 2) rfl
    (by simp) fun entry hentry => absurd hentry List.not_mem_nil
  have hrules : (ofNames r names).rules = r :=
    List.foldlRecOn (motive := fun t => t.rules = r) _ _ rfl
      fun t ht name _ => (add_rules t name).trans ht
  rw [key]
  cases hlookup : (ofNames r names).entries.lookup name with
  | none => exact .inl (congrArg (·.base name) hrules)
  | some key => exact hmade _ (mem_of_lookup hlookup)

theorem madeFrom_key (jobs : List Job) (name : String) :
    r.MadeFrom (jobs.length + 2) (r.base name) ((ofJobs r jobs).key name) :=
  (List.length_map (Job.name) : (jobs.map (·.name)).length = jobs.length) ▸
    madeFrom_key_ofNames (jobs.map (·.name)) name

/-- A key is at most 25 characters longer than its name: four for a word, one for a separator and
twenty for a number, unless there are more jobs than fit into memory. -/
theorem length_key_ofNames_le (hclean : ∀ name, (r.clean name).length ≤ max 3 name.length)
    {names : List String} (hcount : names.length < 2 ^ 64) (name : String) :
    ((ofNames r names).key name).length ≤ max 3 name.length + 25 := by
  have hbase := KeyRules.length_base_le hclean name
  rcases madeFrom_key_ofNames names name with heq | ⟨n, hn, heq⟩
  · rw [heq]
    omega
  · have hdigits : n < 10 ^ 20 := by
      have hbound : (2 : Nat) ^ 64 + 2 < 10 ^ 20 := by decide
      omega
    have hlength := @KeyRules.length_numbered_le r (r.base name) n 20 (by decide) hdigits
    rw [heq]
    omega

/-- Names of up to 500 characters have keys of up to 1000. -/
theorem length_key_le (hclean : ∀ name, (r.clean name).length ≤ max 3 name.length)
    {jobs : List Job} (hjobs : jobs.length < 2 ^ 64) {name : String} (hname : name.length ≤ 500) :
    ((ofJobs r jobs).key name).length ≤ 1000 := by
  have hcount : (jobs.map (·.name)).length < 2 ^ 64 := by rwa [List.length_map]
  have hlength : ((ofJobs r jobs).key name).length ≤ max 3 name.length + 25 :=
    length_key_ofNames_le hclean hcount name
  have hmax : max 3 name.length ≤ 500 := Nat.max_le.2 ⟨by decide, hname⟩
  omega

end KeyTable

namespace Outline

theorem flatMap_eq_self {text : List Char} {f : Char → List Char} (h : ∀ c ∈ text, f c = [c]) :
    text.flatMap f = text := by
  induction text with
  | nil => rfl
  | cons c text ih =>
    rw [List.flatMap_cons, h c (List.mem_cons_self ..),
      ih fun d hd => h d (List.mem_cons_of_mem _ hd), List.singleton_append]

/-- The characters of a key are written as they are, at worst between quotes. -/
theorem keyFits_of_isKey {key : String} (hkey : IsKey key) (hlength : key.length ≤ 1022) :
    keyFits key = true := by
  have hinline := inline_of_ordinary hkey.ordinary.chars
  rw [← String.length_toList] at hlength
  -- Neither kind of quotes makes a character of a key longer.
  have hplain : ∀ c ∈ key.toList, c ≠ '\'' ∧ Json.escape c = [c] := by
    intro c hc
    have hchar := hkey.chars c hc
    refine ⟨?_, ?_⟩
    · rintro rfl
      exact absurd hchar (by decide)
    · unfold Json.escape
      split
      case h_8 =>
        rw [if_neg]
        intro hlow
        have hspace := KeyRules.isSpace_of_isKeyChar hchar
        have hordinary := isOrdinary_of_isKeyChar hchar
        simp only [Text.isOrdinary, Text.isSpace] at hspace hordinary
        grind
      all_goals exact absurd hchar (by decide)
  rw [keyFits, decide_eq_true_eq]
  generalize (inline key).toList = written at hinline ⊢
  generalize inlineStyle key = style at hinline
  cases hinline with
  | plain hplainText => omega
  | singleQuoted htext =>
    have hquotes : Yaml.doubleQuotes key.toList = key.toList :=
      flatMap_eq_self fun c hc => by simp [(hplain c hc).1]
    rw [hquotes, List.length_cons, List.length_append]
    exact Nat.add_le_add_right hlength 2
  | doubleQuoted htext =>
    have hescape : Json.escapeAll key.toList = key.toList :=
      flatMap_eq_self fun c hc => (hplain c hc).2
    rw [hescape, List.length_cons, List.length_append]
    exact Nat.add_le_add_right hlength 2

/-- Keys of jobs with names of up to 500 characters fit. -/
theorem keyFits_key {r : KeyRules} (h : r.Sound)
    (hclean : ∀ name, (r.clean name).length ≤ max 3 name.length) {jobs : List Job}
    (hjobs : jobs.length < 2 ^ 64) {name : String} (hname : name.length ≤ 500) :
    keyFits ((KeyTable.ofJobs r jobs).key name) = true :=
  keyFits_of_isKey (KeyTable.key_ofJobs h jobs name).1
    (Nat.le_trans (KeyTable.length_key_le hclean hjobs hname) (by decide))

end Outline
end CiPipelines
