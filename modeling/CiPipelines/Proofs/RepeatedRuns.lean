import CiPipelines.Proofs.ConversionRuns

/-!
# Runs that are repeated

A command line that converts a file is run again on the file system that its first run left.  As a
rule the second run finds the same settings and the same input, so it converts the same text and
writes what is there already.

The exception is a run that looks for its input at the usual places and writes to one of these that
comes before the one it read from (`TakesOver`).  The second run then reads what the first one
wrote.  Such a run can be repeated without change if and only if converting the written text gives
that text again, which it need not: comments are written but not read.
-/

namespace CiPipelines
namespace CommandLine

open FileSystem

variable {fs after : FileSystem} {texts : GeneratedTexts} {settings : Settings}
variable {source : Option Platform} {target platform : Platform}
variable {input output : Option String} {path text out : String}
variable {config : Option String} {environment : String → Option String} {args : List String}
variable {message : String}

/-! ## Success of each part -/

theorem loadSettings_eq_ok_iff {s : Settings} :
    onFiles (loadSettings access path) fs = (.ok s, fs) ↔
      ∃ text, fs.readText path = .ok text ∧ Settings.ofYaml? text = some s := by
  rw [loadSettings, (leavesFiles_readText access_faithful path _).bind_eq_ok_iff]
  simp only [onFiles_attempt_eq_ok_iff, access_readText_eq_ok_iff]
  refine exists_congr fun text => and_congr_right fun _ => ?_
  cases Settings.ofYaml? text <;> simp

/-- A file is converted if its text can be prepared and saved. -/
theorem convertFile_eq_ok_iff {report : Report} {input : String} :
    onFiles (convertFile access settings platform target input out) fs = (.ok report, after) ↔
      ∃ p text, onFiles (prepare access settings platform target input) fs = (.ok (p, text), fs) ∧
        onFiles (saveText access text out) fs = (.ok (), after) ∧
        report = ⟨platform, target, input, out, p.jobs.length, p.stepCount⟩ := by
  have hleaves := leavesFiles_prepare access_faithful settings platform target input
  constructor
  · intro h
    rcases hprepare : onFiles (prepare access settings platform target input) fs with
      ⟨e | ⟨p, text⟩, mid⟩
    · rw [convertFile_of_error hprepare] at h
      cases h
    · obtain rfl := hleaves.eq_of_run hprepare
      rcases hsave : onFiles (saveText access text out) mid with ⟨e | _, written⟩
      · rw [convertFile_of_saveText_error hprepare hsave] at h
        cases h
      · rw [convertFile_of_saveText hprepare hsave] at h
        cases h
        exact ⟨p, text, rfl, hsave, rfl⟩
  · rintro ⟨p, text, hprepare, hsave, rfl⟩
    exact convertFile_of_saveText hprepare hsave

/-- What is prepared from a file is the conversion of its text. -/
theorem prepare_iff_convert {input content : String} (hread : fs.readText input = .ok content) :
    (∃ p, onFiles (prepare access settings platform target input) fs = (.ok (p, text), fs)) ↔
      Conversion.convert settings platform target content = .ok text := by
  rw [← convertToStdout_eq_ok_iff_prepare access_faithful,
    convertToStdout_eq_ok_iff access_faithful]
  simp only [access_readText_eq_ok_iff, hread, Except.ok.injEq, exists_eq_left']

/-- A run that converts to a file prepares the text of its input and saves it. -/
theorem runCommand_convert_eq_ok_iff
    (hinput : inputOf fs.isFile source input = .ok (platform, path)) :
    onFiles (runCommand access texts settings (.convert source target input output false)) fs =
        (.ok message, after) ↔
      ∃ p text, onFiles (prepare access settings platform target path) fs = (.ok (p, text), fs) ∧
        onFiles (saveText access text (output.getD target.usualPath)) fs = (.ok (), after) ∧
        message = (Report.mk platform target path (output.getD target.usualPath) p.jobs.length
          p.stepCount).message ++ "\n" := by
  rw [runCommand_convert_toFile access_faithful hinput]
  constructor
  · intro h
    rcases hconvert : onFiles (convertFile access settings platform target path
      (output.getD target.usualPath)) fs with ⟨e | report, left⟩
    · rw [hconvert] at h
      cases h
    · rw [hconvert] at h
      simp only [Prod.mk.injEq, Except.ok.injEq] at h
      obtain ⟨rfl, rfl⟩ := h
      obtain ⟨p, text, hprepare, hsave, rfl⟩ := convertFile_eq_ok_iff.1 hconvert
      exact ⟨p, text, hprepare, hsave, rfl⟩
  · rintro ⟨p, text, hprepare, hsave, rfl⟩
    rw [convertFile_eq_ok_iff.2 ⟨p, text, hprepare, hsave, rfl⟩]

theorem runInvocation_of_settings {verbose : Bool} {command : Command}
    (hsettings : onFiles (findSettings access config) fs = (.ok settings, fs)) :
    onFiles (runInvocation access texts environment ⟨config, verbose, command⟩) fs =
      onFiles (runCommand access texts (settings.withEnvironment environment) command) fs := by
  rw [runInvocation, onFiles_bind_of_ok _ (by rw [onFiles_adapt, hsettings]; rfl)]

/-- Runs a command line on a file system. -/
def runOn (texts : GeneratedTexts) (environment : String → Option String) (args : List String)
    (fs : FileSystem) : Outcome × FileSystem :=
  (run access environment args texts).run fs

/-- A run succeeds if its invocation does. -/
theorem runOn_eq_success_iff {i : Invocation} (hargs : Request.ofArguments args = .run i) :
    runOn texts environment args fs = (.success message, after) ↔
      onFiles (runInvocation access texts environment i) fs = (.ok message, after) := by
  have hrun : runOn texts environment args fs =
      match onFiles (runInvocation access texts environment i) fs with
      | (.ok output, after) => (.success output, after)
      | (.error f, after) => (.failed f, after) := by
    rw [runOn, run, hargs]
    dsimp only
    rw [StateT.run_bind]
    rcases h : onFiles (runInvocation access texts environment i) fs with ⟨f | output, after⟩ <;>
    · rw [onFiles] at h
      rw [h]
      rfl
  rw [hrun]
  rcases onFiles (runInvocation access texts environment i) fs with ⟨f | output, left⟩
  · constructor
    · intro h
      have hcode : (1 : Nat) = 0 := congrArg (fun r => r.1.exitCode) h
      cases hcode
    · intro h
      cases h
  · constructor
    · intro h
      have houtput : output = message := congrArg (fun r => r.1.output) h
      have hleft : left = after := congrArg Prod.snd h
      rw [houtput, hleft]
    · intro h
      cases h
      rfl

/-! ## Saving again -/

/-- Parents that have been created are there still after the file was written. -/
theorem createParents_again {mid : FileSystem} {l : Location}
    (h : onFiles (createParents access out) fs = (.ok (), mid))
    (hwrites : mid.WritesAt after l text) :
    onFiles (createParents access out) after = (.ok (), after) := by
  cases hparent : Path.parent? out with
  | none =>
    rw [createParents, hparent]
    rfl
  | some parent =>
    simp only [createParents, hparent, onFiles_attempt_eq_ok_iff, access_createDirectories] at h ⊢
    have hthere := isDirectory_createDirectories (congrArg Prod.fst h)
    rw [h] at hthere
    exact createDirectories_of_isDirectory (hwrites.isDirectory hthere)

/-- Where a text was saved any text is saved without new directories. -/
theorem saveText_again (h : onFiles (saveText access text out) fs = (.ok (), after)) :
    ∃ l, after.find out = .ok (l, .file text) ∧ fs.WritesAt after l text ∧
      after.put l (.file text) = after ∧
      ∀ new, onFiles (saveText access new out) after = (.ok (), after.put l (.file new)) := by
  have hadds := addsDirectories_createParents access_faithful fs out
  rcases hmid : onFiles (createParents access out) fs with ⟨e | _, mid⟩
  · rw [saveText, onFiles_bind_of_error _ hmid] at h
    cases h
  · rw [saveText, onFiles_bind_of_ok _ hmid, onFiles_attempt_eq_ok_iff, access_writeText] at h
    rw [hmid] at hadds
    split at h
    · rename_i written hwrite
      cases h
      obtain ⟨l, hfind, hwrites, hput⟩ := find_of_writeText hwrite
      -- Putting an entry where the last one was put leaves one of them.
      refine ⟨l, hfind, .of_addsDirectories hadds hwrites, by rw [← hput, put_put], fun new => ?_⟩
      rw [saveText, onFiles_bind_of_ok _ (createParents_again hmid hwrites),
        onFiles_attempt_eq_ok_iff, access_writeText, writeText_of_find hfind]
    · cases h

/-! ## Finding everything again -/

/-- Settings are found again after a run that did not write the settings file. -/
theorem findSettings_again {l : Location} (hwrites : fs.WritesAt after l text)
    (hsettings : onFiles (findSettings access config) fs = (.ok settings, fs))
    (hplace : after.place? (config.getD settingsFile) ≠ some l) :
    onFiles (findSettings access config) after = (.ok settings, after) := by
  have hload : onFiles (loadSettings access (config.getD settingsFile)) fs = (.ok settings, fs) →
      onFiles (loadSettings access (config.getD settingsFile)) after = (.ok settings, after) := by
    intro h
    obtain ⟨text, htext, hyaml⟩ := loadSettings_eq_ok_iff.1 h
    exact loadSettings_eq_ok_iff.2 ⟨text, hwrites.readText hplace htext, hyaml⟩
  cases config with
  | some path => exact hload hsettings
  | none =>
    have hrun : ∀ fs, onFiles (findSettings access none) fs =
        onFiles (if fs.isFile settingsFile then loadSettings access settingsFile
          else pure {}) fs := fun fs => rfl
    -- The usual settings file lies at the root, so the way to it exists, whether it does or not.
    have hfollow : fs.follow (Path.names settingsFile) = .ok ["pipeconv.yaml"] := rfl
    have hfile : after.isFile settingsFile = fs.isFile settingsFile := by
      rw [Bool.eq_iff_iff, isFile_iff_readText, isFile_iff_readText]
      constructor
      · exact fun ⟨text, h⟩ => ⟨text, hwrites.readText_before hplace hfollow h⟩
      · exact fun ⟨text, h⟩ => ⟨text, hwrites.readText hplace h⟩
    rw [hrun] at hsettings ⊢
    rw [hfile]
    cases hthere : fs.isFile settingsFile with
    | true =>
      rw [hthere] at hsettings
      exact hload hsettings
    | false =>
      rw [hthere] at hsettings
      cases hsettings
      rfl

/-- A text is prepared again from an input that reads as before. -/
theorem prepare_again {p : Pipeline} {input : String}
    (hprepare : onFiles (prepare access settings platform target input) fs = (.ok (p, text), fs))
    (hread : ∀ content, fs.readText input = .ok content → after.readText input = .ok content) :
    onFiles (prepare access settings platform target input) after = (.ok (p, text), after) := by
  obtain ⟨hsource, htarget, content, hcontent, hp, hwrite⟩ :=
    (prepare_eq_ok_iff access_faithful).1 hprepare
  refine (prepare_eq_ok_iff access_faithful).2 ⟨hsource, htarget, content, ?_, hp, hwrite⟩
  exact access_readText_eq_ok_iff.2 (hread content (access_readText_eq_ok_iff.1 hcontent))

/-- The usual places of a platform that are looked at before a path. -/
def lookedAtBefore (platform : Platform) (path : String) : List String :=
  platform.usualPaths.takeWhile (· != path)

/-- The first path with a property comes after those looked at before, which lack it. -/
theorem find?_usualPaths {f : String → Bool} (h : platform.usualPaths.find? f = some path) :
    f path = true ∧ (∀ usual ∈ lookedAtBefore platform path, f usual = false) ∧
      ∃ rest, platform.usualPaths = lookedAtBefore platform path ++ path :: rest := by
  obtain ⟨hpath, before, rest, hpaths, hbefore⟩ := List.find?_eq_some_iff_append.1 h
  have htake : lookedAtBefore platform path = before := by
    rw [lookedAtBefore, hpaths, List.takeWhile_append_of_pos, List.takeWhile_cons_of_neg (by simp),
      List.append_nil]
    intro usual husual
    have hne : usual ≠ path := by
      rintro rfl
      simpa [hpath] using hbefore usual husual
    simpa using hne
  refine ⟨hpath, fun usual husual => ?_, rest, by rw [htake, hpaths]⟩
  simpa using hbefore usual (htake ▸ husual)

/-- Only one usual place comes before another. -/
theorem eq_of_mem_lookedAtBefore {usual : String} (hpath : path ∈ platform.usualPaths)
    (husual : usual ∈ lookedAtBefore platform path) :
    usual = ".github/workflows/ci.yml" ∧ path = ".github/workflows/main.yml" := by
  cases platform with
  | github =>
    rcases List.mem_cons.1 hpath with rfl | hmain
    · exact absurd husual (by simp [lookedAtBefore, Platform.usualPaths, Platform.usualPath])
    · cases List.mem_singleton.1 hmain
      exact ⟨List.mem_singleton.1 husual, rfl⟩
  | _ =>
    cases List.mem_singleton.1 hpath
    exact absurd husual (by simp [lookedAtBefore, Platform.usualPaths])

/-- Both lie in the same directory, so where one has a file the way to the other exists. -/
theorem follow_lookedAtBefore {usual : String} (hpath : path ∈ platform.usualPaths)
    (husual : usual ∈ lookedAtBefore platform path) (hfile : fs.isFile path = true) :
    ∃ l, fs.follow (Path.names usual) = .ok l := by
  obtain ⟨rfl, rfl⟩ := eq_of_mem_lookedAtBefore hpath husual
  obtain ⟨l, text, hfind⟩ := isFile_iff.1 hfile
  obtain ⟨-, hfollow, -⟩ := find_eq_ok_iff.1 hfind
  have hmain : Path.names ".github/workflows/main.yml" =
      [".github", "workflows"] ++ ["main.yml"] := by
    decide +kernel
  have hci : Path.names ".github/workflows/ci.yml" = [".github", "workflows"] ++ ["ci.yml"] := by
    decide +kernel
  rw [hmain, follow_concat] at hfollow
  rw [hci, follow_concat]
  cases hdirectory : fs.follow [".github", "workflows"] with
  | error e =>
    rw [hdirectory] at hfollow
    cases hfollow
  | ok d =>
    rw [hdirectory] at hfollow
    obtain ⟨hentry, -⟩ := enter_eq_ok_iff.1 hfollow
    exact ⟨_, enter_eq_ok_iff.2 ⟨hentry, rfl⟩⟩

theorem inputOf_none_eq_ok_iff {isFile : String → Bool} :
    inputOf isFile source none = .ok (platform, path) ↔
      source = some platform ∧ platform.usualPaths.find? isFile = some path := by
  cases source with
  | none => simp [inputOf, platformOf, bind, Except.bind]
  | some p =>
    simp only [inputOf, platformOf, bind, Except.bind, Option.some.injEq]
    constructor
    · intro h
      split at h
      · rename_i found hfind
        cases h
        exact ⟨rfl, hfind⟩
      · cases h
    · rintro ⟨rfl, hfind⟩
      simp only [hfind]

/-- Where the input of a run is looked for again, it is found, unless the run wrote to a place that
is looked at before: then what it wrote is found. -/
theorem inputOf_again {text : String} {l : Location} (hwrites : fs.WritesAt after l text)
    (hinput : inputOf fs.isFile source input = .ok (platform, path))
    (hpath : after.place? path ≠ some l) :
    inputOf after.isFile source input = .ok (platform, path) ∧
        (input = none → ∀ usual ∈ lookedAtBefore platform path, after.place? usual ≠ some l) ∨
      ∃ usual ∈ lookedAtBefore platform path, input = none ∧ after.place? usual = some l ∧
        inputOf after.isFile source input = .ok (platform, usual) := by
  cases input with
  | some given => exact .inl ⟨hinput, by simp⟩
  | none =>
    obtain ⟨rfl, hfind⟩ := inputOf_none_eq_ok_iff.1 hinput
    obtain ⟨hfile, hbefore, rest, hpaths⟩ := find?_usualPaths hfind
    have hstill : after.isFile path = true := by
      obtain ⟨content, hread⟩ := isFile_iff_readText.1 hfile
      exact isFile_iff_readText.2 ⟨content, hwrites.readText hpath hread⟩
    -- A place that has a file now and had none before is the one that was written to.
    have hwritten : ∀ usual ∈ lookedAtBefore platform path,
        after.isFile usual = true ↔ after.place? usual = some l := by
      intro usual husual
      constructor
      · intro hnow
        by_cases hplace : after.place? usual = some l
        · exact hplace
        · obtain ⟨content, hread⟩ := isFile_iff_readText.1 hnow
          obtain ⟨_, hfollow⟩ :=
            follow_lookedAtBefore (hpaths ▸ by simp) husual hfile
          have hold := hbefore usual husual
          rw [isFile_iff_readText.2 ⟨content, hwrites.readText_before hplace hfollow hread⟩] at hold
          cases hold
      · exact fun hplace => isFile_iff_readText.2 ⟨text, readText_of_place? hplace hwrites.now⟩
    cases hfirst : (lookedAtBefore platform path).find? after.isFile with
    | none =>
      refine .inl ⟨inputOf_none_eq_ok_iff.2 ⟨rfl, ?_⟩, fun _ usual husual hplace => ?_⟩
      · rw [hpaths, List.find?_append, hfirst, List.find?_cons_of_pos hstill]
        rfl
      · exact List.find?_eq_none.1 hfirst usual husual ((hwritten usual husual).2 hplace)
    | some usual =>
      have husual := List.mem_of_find?_eq_some hfirst
      refine .inr ⟨usual, husual, rfl, (hwritten usual husual).1 (List.find?_some hfirst), ?_⟩
      refine inputOf_none_eq_ok_iff.2 ⟨rfl, ?_⟩
      rw [hpaths, List.find?_append, hfirst]
      rfl

/-! ## The second run -/

/-- A run that succeeds and leaves every file unchanged. -/
def SucceedsUnchanged (texts : GeneratedTexts) (environment : String → Option String)
    (args : List String) (fs : FileSystem) : Prop :=
  ∃ message after, runOn texts environment args fs = (.success message, after) ∧
    ∀ l, after.file? l = fs.file? l

/-- A file has been written to a usual place that is looked at before the path of the input. -/
def TakesOver (after : FileSystem) (platform : Platform) (path out : String) : Prop :=
  ∃ usual ∈ lookedAtBefore platform path, after.SamePlace usual out

instance (after : FileSystem) (platform : Platform) (path out : String) :
    Decidable (TakesOver after platform path out) :=
  inferInstanceAs (Decidable (∃ usual ∈ _, _))

/-- A conversion leaves what an earlier one wrote just if it prepares the same text. -/
theorem runCommand_again_iff {l : Location}
    (hinput : inputOf fs.isFile source input = .ok (platform, path))
    (hfind : fs.find (output.getD target.usualPath) = .ok (l, .file text))
    (hput : fs.put l (.file text) = fs)
    (hagain : ∀ new, onFiles (saveText access new (output.getD target.usualPath)) fs =
      (.ok (), fs.put l (.file new))) :
    (∃ message after, onFiles (runCommand access texts settings
        (.convert source target input output false)) fs = (.ok message, after) ∧
      ∀ l, after.file? l = fs.file? l) ↔
      ∃ p, onFiles (prepare access settings platform target path) fs = (.ok (p, text), fs) := by
  constructor
  · rintro ⟨message, after, hrun, hsame⟩
    obtain ⟨p, new, hprepare, hsave, -⟩ := (runCommand_convert_eq_ok_iff hinput).1 hrun
    -- The new text stands where the old one stood, so both are the same.
    rw [hagain new] at hsave
    cases hsave
    obtain ⟨-, -, hentry, -⟩ := find_eq_ok_iff.1 hfind
    have hne : l ≠ [] := by
      rintro rfl
      cases hentry
    have hnew : fs.file? l = some new := by
      rw [← hsame l, file?_eq_some_iff, entry?_put_self fs hne]
    rw [file?_eq_some_iff.2 hentry] at hnew
    cases hnew
    exact ⟨p, hprepare⟩
  · rintro ⟨p, hprepare⟩
    have hsave := hagain text
    rw [hput] at hsave
    exact ⟨_, fs, (runCommand_convert_eq_ok_iff hinput).2 ⟨p, text, hprepare, hsave, rfl⟩,
      fun _ => rfl⟩

/-- A run that converted a file can be repeated without change, unless it wrote to a usual place of
its input that is looked at before the one it read; and then just if the text that it wrote is
converted to itself. -/
theorem succeedsUnchanged_iff {verbose toStdout : Bool}
    (hargs : Request.ofArguments args =
      .run ⟨config, verbose, .convert source target input output toStdout⟩)
    (hrun : runOn texts environment args fs = (.success message, after))
    (hsettings : onFiles (findSettings access config) fs = (.ok settings, fs))
    (hinput : onFiles (findInput access source input) fs = (.ok (platform, path), fs))
    (hread : toStdout = false → ¬ after.SamePlace path (output.getD target.usualPath))
    (hconfig : toStdout = false →
      ¬ after.SamePlace (config.getD settingsFile) (output.getD target.usualPath)) :
    SucceedsUnchanged texts environment args after ↔
      (toStdout = false → input = none →
        TakesOver after platform path (output.getD target.usualPath) →
          ∃ text, after.readText (output.getD target.usualPath) = .ok text ∧
            Conversion.convert (settings.withEnvironment environment) platform target text =
              .ok text) := by
  rw [findInput_run access_faithful] at hinput
  replace hinput : inputOf fs.isFile source input = .ok (platform, path) :=
    congrArg Prod.fst hinput
  have hfirst := (runOn_eq_success_iff hargs).1 hrun
  rw [runInvocation_of_settings hsettings] at hfirst
  cases toStdout with
  | true =>
    -- Nothing was written, so the second run is the first one again.
    rw [runCommand_convert_toStdout access_faithful hinput] at hfirst
    obtain rfl := (leavesFiles_convertToStdout access_faithful _ _ _ _).eq_of_run hfirst
    exact iff_of_true ⟨message, after, hrun, fun _ => rfl⟩ (by simp)
  | false =>
    obtain ⟨p, text, hprepare, hsave, rfl⟩ := (runCommand_convert_eq_ok_iff hinput).1 hfirst
    obtain ⟨l, hfind, hwrites, hput, hagain⟩ := saveText_again hsave
    have hplace : ∀ other, after.SamePlace other (output.getD target.usualPath) ↔
        after.place? other = some l := fun _ => samePlace_iff (place?_of_find hfind)
    simp only [hplace, forall_const] at hread hconfig
    have hsettings := findSettings_again hwrites hsettings hconfig
    simp only [SucceedsUnchanged, runOn_eq_success_iff hargs, runInvocation_of_settings hsettings,
      TakesOver, hplace]
    rcases inputOf_again hwrites hinput hread with
      ⟨hinput, hnone⟩ | ⟨usual, husual, hnone, hwritten, hinput⟩
    · -- The same input is found and converted to the same text.
      have hprepare := prepare_again hprepare fun _ => hwrites.readText hread
      refine iff_of_true ((runCommand_again_iff hinput hfind hput hagain).2 ⟨p, hprepare⟩) ?_
      rintro - hinput ⟨usual, husual, hwritten⟩
      exact absurd hwritten (hnone hinput usual husual)
    · -- What was written is found, read and converted.
      have htext := readText_of_place? hwritten hwrites.now
      rw [runCommand_again_iff hinput hfind hput hagain, prepare_iff_convert htext]
      constructor
      · exact fun hconvert _ _ _ => ⟨text, readText_eq_ok_iff.2 ⟨l, hfind⟩, hconvert⟩
      · intro h
        obtain ⟨found, hfound, hconvert⟩ := h trivial hnone ⟨usual, husual, hwritten⟩
        rw [readText_eq_ok_iff.2 ⟨l, hfind⟩] at hfound
        cases hfound
        exact hconvert

/-- A conversion within one platform, whose input is looked for. -/
def sameFormatArguments : List String := ["convert", "--from", "github", "--to", "github"]

/-- A workflow as it is written. -/
def plainText : String :=
  "name: CI\n\non:\n  push:\n\njobs:\n  a:\n    runs-on: x\n    steps:\n"
    ++ "      - uses: actions/checkout@v4\n"

/-- A repository with a workflow whose job has a runner. -/
def plainRepository : FileSystem := repository "jobs:\n  a:\n    runs-on: x\n"

/-- The repository with the written workflow, which is looked at before the other one. -/
def plainConverted : FileSystem :=
  plainRepository.put [".github", "workflows", "ci.yml"] (.file plainText)

/-- The second run reads what the first one wrote, and writes it again. -/
theorem succeedsUnchanged_plainConverted :
    Request.ofArguments sameFormatArguments =
        .run ⟨none, false, .convert (some .github) .github none none false⟩ ∧
      runOn {} (fun _ => none) sameFormatArguments plainRepository =
        (.success ("Converted .github/workflows/main.yml (GitHub Actions) -> "
          ++ ".github/workflows/ci.yml (GitHub Actions): 1 jobs, 0 steps\n"), plainConverted) ∧
      TakesOver plainConverted .github ".github/workflows/main.yml" ".github/workflows/ci.yml" ∧
      SucceedsUnchanged {} (fun _ => none) sameFormatArguments plainConverted := by
  have hargs : Request.ofArguments sameFormatArguments =
      .run ⟨none, false, .convert (some .github) .github none none false⟩ := by decide +kernel
  have hrun : runOn {} (fun _ => none) sameFormatArguments plainRepository =
      (.success ("Converted .github/workflows/main.yml (GitHub Actions) -> "
        ++ ".github/workflows/ci.yml (GitHub Actions): 1 jobs, 0 steps\n"), plainConverted) := by
    decide +kernel
  have hsettings : onFiles (findSettings access none) plainRepository =
      (.ok {}, plainRepository) := by
    decide +kernel
  have hinput : onFiles (findInput access (some .github) none) plainRepository =
      (.ok (.github, ".github/workflows/main.yml"), plainRepository) := by
    decide +kernel
  have hread : ¬ plainConverted.SamePlace ".github/workflows/main.yml"
      ".github/workflows/ci.yml" := by
    decide +kernel
  have hconfig : ¬ plainConverted.SamePlace settingsFile ".github/workflows/ci.yml" := by
    decide +kernel
  have htext : plainConverted.readText ".github/workflows/ci.yml" = .ok plainText := by
    decide +kernel
  have hconvert : Conversion.convert {} .github .github plainText = .ok plainText := by
    decide +kernel
  refine ⟨hargs, hrun, by decide +kernel, ?_⟩
  exact (succeedsUnchanged_iff hargs hrun hsettings hinput (fun _ => hread) fun _ => hconfig).2
    fun _ _ _ => ⟨plainText, htext, hconvert⟩

/-- The repository with the workflow whose job runs in a container, after that has been written for
the first time. -/
def containerConverted : FileSystem :=
  containerRepository.put [".github", "workflows", "ci.yml"] (.file
    ("name: CI\n\non:\n  push:\n\njobs:\n  a:\n    # converted from container image: node:20\n"
      ++ "    runs-on: ubuntu-latest\n    steps:\n      - uses: actions/checkout@v4\n"))

/-- The same after it has been written for the second time. -/
def containerConvertedAgain : FileSystem :=
  containerRepository.put [".github", "workflows", "ci.yml"] (.file
    ("name: CI\n\non:\n  push:\n\njobs:\n  a:\n"
      ++ "    runs-on: ubuntu-latest\n    steps:\n      - uses: actions/checkout@v4\n"))

/-- A run that reads a file, writes another one that is not the settings file either, and cannot be
repeated without change: the comment that the first run writes is not read by the second. -/
theorem not_succeedsUnchanged_container :
    onFiles (findInput access (some .github) none) containerRepository =
        (.ok (.github, ".github/workflows/main.yml"), containerRepository) ∧
      runOn {} (fun _ => none) sameFormatArguments containerRepository =
        (.success ("Converted .github/workflows/main.yml (GitHub Actions) -> "
          ++ ".github/workflows/ci.yml (GitHub Actions): 1 jobs, 0 steps\n"),
          containerConverted) ∧
      ¬ containerConverted.SamePlace ".github/workflows/main.yml" ".github/workflows/ci.yml" ∧
      ¬ containerConverted.SamePlace settingsFile ".github/workflows/ci.yml" ∧
      ¬ SucceedsUnchanged {} (fun _ => none) sameFormatArguments containerConverted := by
  refine ⟨by decide +kernel, by decide +kernel, by decide +kernel, by decide +kernel, ?_⟩
  rintro ⟨message, after, hrun, hsame⟩
  have hagain : (runOn {} (fun _ => none) sameFormatArguments containerConverted).2 =
      containerConvertedAgain := by
    decide +kernel
  rw [hrun] at hagain
  have hdiffers : containerConvertedAgain.file? [".github", "workflows", "ci.yml"] ≠
      containerConverted.file? [".github", "workflows", "ci.yml"] := by
    decide +kernel
  exact hdiffers (hagain ▸ hsame _)

end CommandLine
end CiPipelines
