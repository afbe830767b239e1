import CiPipelines.Model.Pipeline

/-!
# Keys of jobs

A written pipeline names its jobs by keys.  A key is the cleaned-up job name, with the word `job`
added if the platform reserves it.  Of jobs that would share a key, the first one gets it and the
others are numbered from two.  All places of a written pipeline that name a job use one table.
-/

namespace CiPipelines

/-- How keys are made from job names. -/
structure KeyRules where
  clean : String → String
  /-- Keys that mean something else. -/
  reserved : List String
  /-- What stands in front of an added word or number. -/
  separator : Char

namespace KeyRules

/-- The name in lower case, with a dash for each character other than an ASCII letter or digit, a
dash and an underscore; `job` for a blank name. -/
def cleanName (name : String) : String :=
  match Text.trim name.toList with
  | [] => "job"
  | text => String.ofList <| text.map fun c =>
      if c.isAlphanum || c == '-' || c == '_' then c.toLower else '-'

/-- Nothing is reserved. -/
def standard : KeyRules := ⟨cleanName, [], '-'⟩

/-- The key of a name on its own. -/
def base (r : KeyRules) (name : String) : String :=
  let key := r.clean name
  if r.reserved.contains key then key ++ String.singleton r.separator ++ "job" else key

/-- The `n`th form of a key. -/
def numbered (r : KeyRules) (base : String) (n : Nat) : String :=
  base ++ String.singleton r.separator ++ toString n

/-- The first of the forms `n`, `n + 1`, … that is not taken, of as many as are allowed.  They are
counted by natural numbers: that a counter of 32 bits overflows, which takes more than `2 ^ 31` jobs
whose names have one base, is left out. -/
def firstFree (r : KeyRules) (base : String) (taken : List String) : Nat → Nat → String
  | 0, n => r.numbered base n
  | more + 1, n =>
    if taken.contains (r.numbered base n) then firstFree r base taken more (n + 1)
    else r.numbered base n

/-- The key for a base when some are taken.  As many numbers as taken keys are enough. -/
def freeKey (r : KeyRules) (base : String) (taken : List String) : String :=
  if taken.contains base then r.firstFree base taken taken.length 2 else base

end KeyRules

/-- The keys of the jobs of a pipeline. -/
structure KeyTable where
  rules : KeyRules
  /-- The job names with their keys, the last one first. -/
  entries : List (String × String)

namespace KeyTable

/-- The keys that are taken. -/
def taken (t : KeyTable) : List String := t.entries.map (·.2)

/-- The table with a key for one more name, unless it has one. -/
def add (t : KeyTable) (name : String) : KeyTable :=
  if (t.entries.lookup name).isSome then t
  else { t with entries := (name, t.rules.freeKey (t.rules.base name) t.taken) :: t.entries }

/-- The table for some names, in order. -/
def ofNames (rules : KeyRules) (names : List String) : KeyTable :=
  names.foldl add ⟨rules, []⟩

/-- The table for some jobs, in order. -/
def ofJobs (rules : KeyRules) (jobs : List Job) : KeyTable :=
  ofNames rules (jobs.map (·.name))

/-- The key of a job.  A name that no job has stands for itself, cleaned up. -/
def key (t : KeyTable) (name : String) : String :=
  (t.entries.lookup name).getD (t.rules.base name)

/-- The keys of some jobs. -/
def keys (t : KeyTable) (names : List String) : List String := names.map t.key

end KeyTable
end CiPipelines
