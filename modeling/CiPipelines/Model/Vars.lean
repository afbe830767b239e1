/-!
# Variables

A table of variables keeps the order in which the names came.  Each name occurs once: setting it
again changes its value and leaves its place.
-/

namespace CiPipelines

/-- Variables in order, each name once. -/
structure Vars where
  entries : List (String × String)
  nodup : (entries.map Prod.fst).Nodup := by decide

namespace Vars

instance : DecidableEq Vars := fun a b =>
  decidable_of_iff (a.entries = b.entries) ⟨fun h => by cases a; cases b; simp_all, fun h => h ▸ rfl⟩

/-- Tables with the same entries are the same. -/
theorem ext_entries {a b : Vars} (h : a.entries = b.entries) : a = b := by
  cases a; cases b; simp_all

/-- No variables. -/
def empty : Vars := ⟨[], by simp⟩

instance : Inhabited Vars := ⟨empty⟩

/-- The names, in order. -/
def names (v : Vars) : List String := v.entries.map Prod.fst

/-- True when there are no variables. -/
def isEmpty (v : Vars) : Bool := v.entries.isEmpty

/-- How many variables there are. -/
def size (v : Vars) : Nat := v.entries.length

/-- The value of a variable. -/
def get? (v : Vars) (name : String) : Option String := v.entries.lookup name

/-- The entries with `name` set to `value`: in its place, or at the end if it is new. -/
def setEntry (name value : String) : List (String × String) → List (String × String)
  | [] => [(name, value)]
  | e :: rest => if e.1 = name then (name, value) :: rest else e :: setEntry name value rest

/-- Setting a variable keeps all names in place and adds its own name at the end if it is new. -/
theorem map_fst_setEntry (name value : String) (entries : List (String × String)) :
    (setEntry name value entries).map Prod.fst =
      if name ∈ entries.map Prod.fst then entries.map Prod.fst
      else entries.map Prod.fst ++ [name] := by
  induction entries with
  | nil => simp [setEntry]
  | cons e rest ih =>
    by_cases h : e.1 = name
    · simp [setEntry, h]
    · have hne : name ≠ e.1 := fun eq => h eq.symm
      simp only [setEntry, if_neg h, List.map_cons, ih, List.mem_cons, hne, false_or]
      split <;> simp

/-- The name that was set has the new value, all others have the value they had. -/
theorem lookup_setEntry (name value other : String) (entries : List (String × String)) :
    (setEntry name value entries).lookup other =
      if other = name then some value else entries.lookup other := by
  induction entries with
  | nil =>
    by_cases h : other = name
    · simp [setEntry, h]
    · have hb : (other == name) = false := by simpa using h
      simp [setEntry, List.lookup_cons, h, hb]
  | cons e rest ih =>
    obtain ⟨key, old⟩ := e
    by_cases hkey : key = name
    · subst hkey
      by_cases h : other = key
      · simp [setEntry, h]
      · have hb : (other == key) = false := by simpa using h
        simp [setEntry, List.lookup_cons, h, hb]
    · rw [setEntry, if_neg hkey, List.lookup_cons, List.lookup_cons, ih]
      by_cases h : other = key
      · subst h
        simp [hkey]
      · have hb : (other == key) = false := by simpa using h
        simp [hb]

/-- A new name goes to the end. -/
theorem setEntry_of_not_mem (name value : String) (entries : List (String × String))
    (h : name ∉ entries.map Prod.fst) :
    setEntry name value entries = entries ++ [(name, value)] := by
  induction entries with
  | nil => rfl
  | cons e rest ih =>
    simp only [List.map_cons, List.mem_cons, not_or] at h
    have hne : e.1 ≠ name := fun eq => h.1 eq.symm
    rw [setEntry, if_neg hne, ih h.2]
    rfl

/-- Sets a variable. -/
def insert (v : Vars) (name value : String) : Vars :=
  ⟨setEntry name value v.entries, by
    rw [map_fst_setEntry]
    split
    · exact v.nodup
    · rename_i h
      exact List.nodup_append.2 ⟨v.nodup, by simp, fun a ha b hb => by
        simp only [List.mem_singleton] at hb
        subst hb
        exact fun e => h (e ▸ ha)⟩⟩

/-- Sets several variables, one after the other. -/
def insertAll (v : Vars) (pairs : List (String × String)) : Vars :=
  pairs.foldl (fun acc p => acc.insert p.1 p.2) v

/-- The variables set by the pairs, one after the other. -/
def ofList (pairs : List (String × String)) : Vars := empty.insertAll pairs

@[simp] theorem entries_insert (v : Vars) (name value : String) :
    (v.insert name value).entries = setEntry name value v.entries := rfl

/-- The names after setting a variable. -/
theorem names_insert (v : Vars) (name value : String) :
    (v.insert name value).names = if name ∈ v.names then v.names else v.names ++ [name] :=
  map_fst_setEntry name value v.entries

/-- Looking up after setting a variable. -/
theorem get?_insert (v : Vars) (name value other : String) :
    (v.insert name value).get? other = if other = name then some value else v.get? other :=
  lookup_setEntry name value other v.entries

/-- Setting new names one after the other adds their entries at the end. -/
theorem entries_insertAll (v : Vars) (pairs : List (String × String))
    (h : ((v.entries ++ pairs).map Prod.fst).Nodup) :
    (v.insertAll pairs).entries = v.entries ++ pairs := by
  induction pairs generalizing v with
  | nil => simp [insertAll]
  | cons p rest ih =>
    have hnew : p.1 ∉ v.entries.map Prod.fst := by
      intro mem
      rw [List.map_append, List.map_cons, List.nodup_append] at h
      exact h.2.2 p.1 mem p.1 (List.mem_cons_self ..) rfl
    have hset : (v.insert p.1 p.2).entries = v.entries ++ [p] :=
      setEntry_of_not_mem p.1 p.2 v.entries hnew
    have hrest : (((v.insert p.1 p.2).entries ++ rest).map Prod.fst).Nodup := by
      rw [hset]
      simpa using h
    show ((v.insert p.1 p.2).insertAll rest).entries = v.entries ++ p :: rest
    rw [ih (v.insert p.1 p.2) hrest, hset, List.append_assoc]
    rfl

/-- Setting the variables of a table one after the other gives the table. -/
theorem ofList_entries (v : Vars) : ofList v.entries = v := by
  apply ext_entries
  exact entries_insertAll empty v.entries v.nodup

end Vars
end CiPipelines
