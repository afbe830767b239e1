import CiPipelines.Files.FileSystem
import CiPipelines.Gitlab.Writer
import Mathlib.Data.List.Basic

/-!
# Working directories in GitLab scripts

The items of a script run one after the other in one shell, which stays where an item has left it.
An item for a step with a directory goes there first, from the directory at hand, and runs the
command of the step behind that.  Whatever characters the directory has, the shell goes where the
step says, since a quoted text is one word to it.

So a command runs where the directories of all steps lead up to its own, each seen from the one
before.  As long as no directory leads up, that is the directory of its own step, seen from the
start, exactly if all commands before it have run in the start.
-/

namespace CiPipelines

/-! ## Words of a shell -/

namespace ShellWord

/-- Reads a word from the start of a text.  Single quotes keep all that they enclose, a backslash
keeps the character behind it, and any other special character ends the word.  The flag says whether
a quote is open. -/
def read? : Bool → List Char → Option (List Char × List Char)
  | true, [] => none
  | true, c :: rest =>
    if c = '\'' then read? false rest else (read? true rest).map (Prod.map (c :: ·) id)
  | false, [] => some ([], [])
  | false, '\\' :: c :: rest => (read? false rest).map (Prod.map (c :: ·) id)
  | false, c :: rest =>
    if c = '\'' then read? true rest
    else if isSpecial c then some ([], c :: rest)
    else (read? false rest).map (Prod.map (c :: ·) id)

/-- A word goes on with a character that is not special. -/
theorem read?_cons {c : Char} (h : isSpecial c = false) (rest : List Char) :
    read? false (c :: rest) = (read? false rest).map (Prod.map (c :: ·) id) := by
  have hquote : c ≠ '\'' := by
    rintro rfl
    revert h
    decide
  have hbackslash : c ≠ '\\' := by
    rintro rfl
    revert h
    decide
  rw [read?.eq_5 _ _ fun _ _ heq _ => hbackslash heq, if_neg hquote, if_neg (by simp [h])]

section

variable {rest word after : List Char} (h : read? false rest = some (word, after))

include h

theorem read?_append {text : List Char} (htext : text.any isSpecial = false) :
    read? false (text ++ rest) = some (text ++ word, after) := by
  induction text with
  | nil => exact h
  | cons c text ih =>
    rw [List.any_cons, Bool.or_eq_false_iff] at htext
    rw [List.cons_append, read?_cons htext.1, ih htext.2]
    rfl

/-- A text in single quotes is read as it is.  A quote in it closes them, stands behind a backslash
and opens them again. -/
theorem read?_enclosed (text : List Char) :
    read? true ((text.flatMap fun c => if c == '\'' then ['\'', '\\', '\'', '\''] else [c]) ++
      '\'' :: rest) = some (text ++ word, after) := by
  induction text with
  | nil => exact h
  | cons c text ih =>
    rw [List.flatMap_cons, List.append_assoc]
    by_cases hc : c = '\''
    · subst hc
      exact congrArg (Option.map (Prod.map ('\'' :: ·) id)) ih
    · rw [if_neg (by simpa using hc), List.singleton_append, read?, if_neg hc, ih]
      rfl

/-- A quoted text is read as that text, alone or in front of the rest of a word. -/
theorem read?_quote (s : String) :
    read? false ((quote s).toList ++ rest) = some (s.toList ++ word, after) := by
  unfold quote
  split
  · rename_i hempty
    rw [String.isEmpty_iff.1 hempty]
    exact h
  · split
    · rw [String.toList_append, String.toList_append, @String.toList_ofList (s.toList.flatMap _),
        List.append_assoc, List.append_assoc]
      exact read?_enclosed h s.toList
    · rename_i hplain
      exact read?_append h (Bool.eq_false_iff.2 hplain)

end

end ShellWord

/-! ## Places -/

namespace Location

/-- Where a name leads: two dots lead to the directory above. -/
def enter (l : Location) (name : String) : Location :=
  if name == ".." then l.dropLast else l ++ [name]

/-- Where a path leads, from the root if it starts with a slash. -/
def go (l : Location) (path : String) : Location :=
  (Path.names path).foldl enter (if path.toList.head? = some '/' then [] else l)

/-- Where a file system can be followed, it leads to the same place. -/
theorem foldl_enter_of_follow {fs : FileSystem} {names : List String} {l place : Location}
    (h : names.foldlM fs.enter l = .ok place) : names.foldl enter l = place := by
  induction names generalizing l with
  | nil => exact Except.ok.inj h
  | cons name names ih =>
    rw [List.foldlM_cons] at h
    cases hname : fs.enter l name with
    | error e =>
      rw [hname] at h
      cases h
    | ok next =>
      rw [hname] at h
      have hnext : next = l.enter name := by
        unfold FileSystem.enter at hname
        split at hname
        · cases hname
        · cases hname
        · exact (Except.ok.inj hname).symm
      rw [List.foldl_cons, ← hnext, ih h]

end Location

/-- A path that leads nowhere but down, from wherever one is. -/
structure Path.Descends (path : String) : Prop where
  relative : path.toList.head? ≠ some '/'
  downward : ".." ∉ Path.names path

instance (path : String) : Decidable (Path.Descends path) :=
  decidable_of_iff (path.toList.head? ≠ some '/' ∧ ".." ∉ Path.names path)
    ⟨fun ⟨hrelative, hdownward⟩ => ⟨hrelative, hdownward⟩, fun h => ⟨h.relative, h.downward⟩⟩

theorem Location.foldl_enter {names : List String} (h : ".." ∉ names) (l : Location) :
    names.foldl enter l = l ++ names := by
  induction names generalizing l with
  | nil => exact (List.append_nil l).symm
  | cons name names ih =>
    rw [List.mem_cons, not_or] at h
    rw [List.foldl_cons, ih h.2, enter, if_neg (by simpa using Ne.symm h.1), List.append_assoc,
      List.singleton_append]

theorem Path.Descends.go_eq {path : String} (h : Path.Descends path) (l : Location) :
    l.go path = l ++ Path.names path := by
  rw [Location.go, if_neg h.relative, Location.foldl_enter h.downward]

/-! ## A shell -/

namespace Shell

/-- The directory that an item goes to first, and the command behind that. -/
def move? (item : String) : Option (String × String) := do
  let text ← "cd ".toList.isPrefixOf? item.toList
  let (path, rest) ← ShellWord.read? false text
  let command ← " && ".toList.isPrefixOf? rest
  return (String.ofList path, String.ofList command)

/-- The directory in which an item runs its command, and the command.  No command leaves its
directory. -/
def execute (l : Location) (item : String) : Location × String :=
  match move? item with
  | some (path, command) => (l.go path, command)
  | none => (l, item)

/-- Where some items leave a shell. -/
def leave (l : Location) (items : List String) : Location :=
  items.foldl (fun l item => (execute l item).1) l

/-- The commands of some items, one after the other in one shell, each with its directory. -/
def run (l : Location) : List String → List (Location × String)
  | [] => []
  | item :: items => execute l item :: run (execute l item).1 items

theorem getElem?_run (l : Location) (items : List String) (n : Nat) :
    (run l items)[n]? = items[n]?.map (execute (leave l (items.take n))) := by
  induction items generalizing l n with
  | nil => rfl
  | cons item items ih =>
    cases n with
    | zero => rfl
    | succ n => exact ih (execute l item).1 n

/-- An item with a quoted directory goes there, whatever its characters are. -/
theorem move?_quote (path command : String) :
    move? ("cd " ++ ShellWord.quote path ++ " && " ++ command) = some (path, command) := by
  have hword : ShellWord.read? false (" && ".toList ++ command.toList) =
      some ([], " && ".toList ++ command.toList) := rfl
  have hread := ShellWord.read?_quote hword path
  have hstart : "cd ".toList.isPrefixOf?
      ("cd " ++ ShellWord.quote path ++ " && " ++ command).toList =
      some ((ShellWord.quote path).toList ++ (" && ".toList ++ command.toList)) := by
    rw [List.isPrefixOf?_eq_some_iff_append_eq]
    simp only [String.toList_append, List.append_assoc]
  have hrest : " && ".toList.isPrefixOf? (" && ".toList ++ command.toList) =
      some command.toList :=
    List.isPrefixOf?_eq_some_iff_append_eq.2 rfl
  simp only [move?, hstart, hread, hrest, Option.bind_eq_bind, Option.bind_some, List.append_nil,
    String.ofList_toList, Option.pure_def]

/-- An item that starts with another letter than `cd` goes nowhere. -/
theorem move?_append_of_head? {first : String} {c : Char} (hfirst : first.toList.head? = some c)
    (hc : c ≠ 'c') (rest : String) : move? (first ++ rest) = none := by
  obtain ⟨text, htext⟩ := List.head?_eq_some_iff.1 hfirst
  have hstart : "cd ".toList.isPrefixOf? (first ++ rest).toList = none := by
    rw [String.toList_append, htext]
    exact if_neg fun heq : ('c' == c) = true => hc (beq_iff_eq.1 heq).symm
  rw [move?, hstart]
  rfl

end Shell

/-! ## Scripts -/

namespace Gitlab

/-- The steps of a job that have an item in its script, in the order of the items. -/
def work (j : Job) : List Step := j.steps.filter fun s => (scriptLine? s).isSome

/-- The item of a step. -/
def item (s : Step) : String := (scriptLine? s).getD ""

/-- The directory that the item of a step goes to.  Actions have none. -/
def directory? (s : Step) : Option String := s.command?.bind fun _ => s.directory

/-- Where a step is to run if its directory is seen from a place. -/
def destination (l : Location) (s : Step) : Location := ((directory? s).map l.go).getD l

/-- No command of a job goes to another directory first. -/
def Steady (j : Job) : Prop := ∀ s ∈ work j, s.command?.bind Shell.move? = none

instance (j : Job) : Decidable (Steady j) :=
  inferInstanceAs (Decidable (∀ s ∈ work j, s.command?.bind Shell.move? = none))

/-- Each command of a job runs in the directory of its own step, seen from the start. -/
def RunsInPlace (start : Location) (j : Job) : Prop :=
  ∀ (n : Nat) s command, (work j)[n]? = some s → s.command? = some command →
    (Shell.run start (script j))[n]? = some (destination start s, command)

/-- Each command has an item, unless there is nothing to do. -/
theorem mem_work_of_command {j : Job} {s : Step} {command : String} (hs : s ∈ j.steps)
    (hcommand : s.command? = some command) (hvoid : s.isVoid = false) : s ∈ work j := by
  have haction : s.action = .run command := by
    unfold Step.command? at hcommand
    split at hcommand
    · rename_i own haction
      rw [haction, Option.some.inj hcommand]
    · cases hcommand
  refine List.mem_filter.2 ⟨hs, ?_⟩
  rw [scriptLine?, hvoid, haction]
  rfl

theorem filterMap_scriptLine? (steps : List Step) : steps.filterMap scriptLine? =
    (steps.filter fun s => (scriptLine? s).isSome).map item := by
  induction steps with
  | nil => rfl
  | cons s steps ih =>
    cases h : scriptLine? s with
    | none => rw [List.filterMap_cons_none h, List.filter_cons_of_neg (by simp [h]), ih]
    | some line =>
      rw [List.filterMap_cons_some h, List.filter_cons_of_pos (by simp [h]), List.map_cons, item, h,
        ih]
      rfl

/-- Each item of a script stands for one step, if there is any work at all. -/
theorem script_eq {j : Job} (h : work j ≠ []) : script j = (work j).map item := by
  have hne : (work j).map item ≠ [] := by simpa using h
  rw [script, filterMap_scriptLine?]
  split
  · rename_i hnil
    exact absurd hnil hne
  · rfl

/-- The commands that stand for an action go nowhere. -/
theorem move?_actionCommand? {id : String} {inputs : Vars} {line : String}
    (h : actionCommand? id inputs = some line) : Shell.move? line = none := by
  unfold actionCommand? at h
  split at h
  · cases h
  · split at h
    · obtain rfl := Option.some.inj h
      rw [String.append_assoc, String.append_assoc]
      exact Shell.move?_append_of_head? (c := 'n') (by decide) (by decide) _
    · split at h
      · obtain rfl := Option.some.inj h
        rw [String.append_assoc, String.append_assoc]
        exact Shell.move?_append_of_head? (c := 'p') (by decide) (by decide) _
      · split at h
        · obtain rfl := Option.some.inj h
          rfl
        · obtain rfl := Option.some.inj h
          rw [String.append_assoc]
          exact Shell.move?_append_of_head? (c := '#') (by decide) (by decide) _

/-- The item of a step goes from where the shell is to the directory of the step. -/
theorem execute_scriptLine? {s : Step} {line : String} (h : scriptLine? s = some line)
    (hsteady : s.command?.bind Shell.move? = none) (l : Location) :
    Shell.execute l line = (destination l s, s.command?.getD line) := by
  unfold scriptLine? at h
  split at h
  · cases h
  · split at h
    · rename_i command haction
      have hcommand : s.command? = some command := by rw [Step.command?, haction]
      rw [hcommand, Option.bind_some] at hsteady
      rw [Shell.execute, destination, directory?, hcommand]
      obtain rfl := Option.some.inj h
      cases hdirectory : s.directory with
      | none =>
        simp only [hsteady]
        rfl
      | some path =>
        simp only [Shell.move?_quote]
        rfl
    · rename_i id inputs haction
      -- What stands for an action leaves the shell where it is.
      have hcommand : s.command? = none := by rw [Step.command?, haction]
      rw [Shell.execute, destination, directory?, hcommand, move?_actionCommand? h]
      rfl

section

variable {j : Job} (hsteady : Steady j)

include hsteady

theorem execute_item {s : Step} (hs : s ∈ work j) (l : Location) :
    Shell.execute l (item s) = (destination l s, s.command?.getD (item s)) := by
  obtain ⟨line, hline⟩ := Option.isSome_iff_exists.1 (List.mem_filter.1 hs).2
  have hitem : scriptLine? s = some (item s) := by rw [item, hline, Option.getD_some]
  exact execute_scriptLine? hitem (hsteady s hs) l

/-- The items of some steps leave the shell where the directories of all of them lead, each seen
from the one before. -/
theorem leave_items {steps : List Step} (hsteps : ∀ s ∈ steps, s ∈ work j) (l : Location) :
    Shell.leave l (steps.map item) = steps.foldl destination l := by
  induction steps generalizing l with
  | nil => rfl
  | cons s steps ih =>
    have hs := execute_item hsteady (hsteps s (List.mem_cons_self ..)) l
    have hrest := ih fun t ht => hsteps t (List.mem_cons_of_mem _ ht)
    rw [List.foldl_cons, ← hrest, List.map_cons, Shell.leave, List.foldl_cons, hs]
    rfl

/-- A command runs where the directories of all steps up to its own lead, each seen from the one
before. -/
theorem run_script (start : Location) {n : Nat} {s : Step} {command : String}
    (hs : (work j)[n]? = some s) (hcommand : s.command? = some command) :
    (Shell.run start (script j))[n]? =
      some (((work j).take (n + 1)).foldl destination start, command) := by
  have hmem : s ∈ work j := List.mem_of_getElem? hs
  have hbefore : ∀ t ∈ (work j).take n, t ∈ work j := fun t ht => List.mem_of_mem_take ht
  rw [script_eq (List.ne_nil_of_mem hmem), Shell.getElem?_run, List.getElem?_map, hs,
    ← List.map_take, leave_items hsteady hbefore, List.take_add_one, hs, List.foldl_append]
  exact congrArg some ((execute_item hsteady hmem _).trans (by rw [hcommand]; rfl))

/-- The commands of a job run in their own directories exactly if those of all steps before them
make no difference. -/
theorem runsInPlace_iff_foldl (start : Location) : RunsInPlace start j ↔
    ∀ (n : Nat) s, (work j)[n]? = some s → s.command?.isSome →
      ((work j).take (n + 1)).foldl destination start = destination start s := by
  constructor
  · intro h n s hs hcommand
    obtain ⟨command, hcommand⟩ := Option.isSome_iff_exists.1 hcommand
    have heq := (run_script hsteady start hs hcommand).symm.trans (h n s command hs hcommand)
    exact congrArg Prod.fst (Option.some.inj heq)
  · intro h n s command hs hcommand
    rw [run_script hsteady start hs hcommand, h n s hs (by rw [hcommand]; rfl)]

end

/-- The names that lead down to the directory of a step. -/
def below (s : Step) : List String := ((directory? s).map Path.names).getD []

theorem destination_eq {s : Step} (h : ∀ path ∈ directory? s, Path.Descends path) (l : Location) :
    destination l s = l ++ below s := by
  unfold destination below
  cases hdirectory : directory? s with
  | none => exact (List.append_nil l).symm
  | some path => exact (h path hdirectory).go_eq l

theorem foldl_destination {steps : List Step}
    (h : ∀ s ∈ steps, ∀ path ∈ directory? s, Path.Descends path) (l : Location) :
    steps.foldl destination l = l ++ steps.flatMap below := by
  induction steps generalizing l with
  | nil => exact (List.append_nil l).symm
  | cons s steps ih =>
    rw [List.foldl_cons, ih fun t ht => h t (List.mem_cons_of_mem _ ht),
      destination_eq (h s (List.mem_cons_self ..)), List.flatMap_cons, List.append_assoc]

section

variable {j : Job} (hdirectories : ∀ s ∈ work j, ∀ path ∈ directory? s, Path.Descends path)

include hdirectories

/-- If no directory leads up, the steps before a step make no difference to it exactly if none of
them leads down. -/
theorem foldl_destination_eq_iff (start : Location) {n : Nat} {s : Step}
    (hs : (work j)[n]? = some s) :
    ((work j).take (n + 1)).foldl destination start = destination start s ↔
      ∀ t ∈ (work j).take n, below t = [] := by
  have htake : ∀ t ∈ (work j).take (n + 1), ∀ path ∈ directory? t, Path.Descends path :=
    fun t ht => hdirectories t (List.mem_of_mem_take ht)
  rw [foldl_destination htake, destination_eq (hdirectories s (List.mem_of_getElem? hs)),
    List.append_cancel_left_eq, List.take_add_one, hs, List.flatMap_append, Option.toList_some,
    List.flatMap_singleton, List.append_left_eq_self, List.flatMap_eq_nil_iff]

/-- If no directory leads up, the commands of a job run in their own directories exactly if no
command comes after a step that is to run below the start. -/
theorem runsInPlace_iff (hsteady : Steady j) (start : Location) :
    RunsInPlace start j ↔ (work j).Pairwise fun s t => t.command?.isSome → below s = [] := by
  rw [runsInPlace_iff_foldl hsteady, List.pairwise_iff_getElem]
  constructor
  · intro h m n hm hn hlt hcommand
    have hs := List.getElem?_eq_getElem hn
    have hbefore := (foldl_destination_eq_iff hdirectories start hs).1 (h n _ hs hcommand)
    exact hbefore _ (List.mem_take_iff_getElem.2 ⟨m, by omega, rfl⟩)
  · intro h n s hs hcommand
    refine (foldl_destination_eq_iff hdirectories start hs).2 fun t ht => ?_
    obtain ⟨m, hm, rfl⟩ := List.mem_take_iff_getElem.1 ht
    obtain ⟨hn, rfl⟩ := List.getElem?_eq_some_iff.1 hs
    exact h m n (by omega) hn (by omega) hcommand

end

/-- A job that goes down for its last command only. -/
def docsJob : Job :=
  { Job.new "build" "ubuntu-latest" with
    steps := [.run "make", (Step.run "make test").inDirectory ".", (Step.run "ls").inDirectory "web"] }

theorem runsInPlace_docsJob :
    (∀ s ∈ work docsJob, ∀ path ∈ directory? s, Path.Descends path) ∧ Steady docsJob ∧
      RunsInPlace ["app"] docsJob := by
  have hdirectories : ∀ s ∈ work docsJob, ∀ path ∈ directory? s, Path.Descends path := by
    decide +kernel
  have hsteady : Steady docsJob := by decide +kernel
  have hlast : (work docsJob).Pairwise fun s t => t.command?.isSome → below s = [] := by
    decide +kernel
  exact ⟨hdirectories, hsteady, (runsInPlace_iff hdirectories hsteady ["app"]).2 hlast⟩

/-- A job with one command in a directory and one without. -/
def webJob : Job :=
  { Job.new "build" "ubuntu-latest" with steps := [(Step.run "make").inDirectory "web", .run "ls"] }

/-- Its second command runs where the first one has gone. -/
theorem not_runsInPlace_webJob : ¬ RunsInPlace ["app"] webJob := by
  intro h
  have hsecond : (Shell.run ["app"] (script webJob))[1]? = some (["app"], "ls") :=
    h 1 (.run "ls") "ls" (by decide) rfl
  have hrun : Shell.run ["app"] (script webJob) =
      [(["app", "web"], "make"), (["app", "web"], "ls")] := by
    decide +kernel
  rw [hrun] at hsecond
  revert hsecond
  decide

end Gitlab
end CiPipelines
