import CiPipelines.CommandLine.Run
import CiPipelines.Proofs.FileChanges
import Mathlib.Control.Monad.Basic

/-!
# Runs of a conversion

A conversion to the standard output and one to a file do the same in different order.  Both leave
the files alone while they look for the input, read and convert it (`LeavesFiles`); the one that
writes a file then creates the directories that the file lies in and writes it (`saveText`).  So
the two agree: the file gets the text that would have been shown, no other file changes, and where
nothing could be shown no file is written.
-/

namespace CiPipelines

namespace Conversion

variable {settings : Settings} {source target : Platform} {text converted : String}

/-- A platform that a text was read for can be read. -/
theorem require_source_of_read {p : Pipeline} (h : read settings source text = .ok p) :
    require source .source = .ok () := by
  cases source with
  | azure | bitbucket => cases h
  | github | gitlab | circleci | jenkins => rfl

/-- A conversion succeeds if both platforms are supported and the text can be read. -/
theorem convert_eq_ok_iff :
    convert settings source target text = .ok converted ↔
      require source .source = .ok () ∧ require target .target = .ok () ∧
        ∃ p, read settings source text = .ok p ∧ write target p = .ok converted := by
  rw [convert]
  constructor
  · intro h
    cases htarget : require target .target with
    | error e => simp [htarget, bind, Except.bind] at h
    | ok _ =>
      cases hread : read settings source text with
      | error e => simp [htarget, hread, bind, Except.bind] at h
      | ok p =>
        -- The source is not asked for by itself: a text of another platform is never read.
        simp only [htarget, hread, bind, Except.bind] at h
        exact ⟨require_source_of_read hread, rfl, p, rfl, h⟩
  · rintro ⟨-, htarget, p, hread, hwrite⟩
    simp only [htarget, hread, bind, Except.bind, hwrite]

end Conversion

namespace CommandLine

open FileSystem

variable {ε δ α β : Type} {files : FileAccess (StateM FileSystem)} {fs mid after : FileSystem}

/-! ## Attempts on a file system -/

theorem mapError_eq_ok_iff {x : Except δ α} {f : δ → ε} {a : α} :
    x.mapError f = .ok a ↔ x = .ok a := by
  cases x <;> simp [Except.mapError]

/-- An attempt on a file system that is a value. -/
abbrev FileRun (ε α : Type) := Attempt (StateM FileSystem) ε α

/-- The result of an attempt on a file system, and the file system that it leaves. -/
def onFiles (x : FileRun ε α) (fs : FileSystem) : Except ε α × FileSystem := x.run.run fs

@[simp] theorem onFiles_pure (a : α) : onFiles (pure a : FileRun ε α) fs = (.ok a, fs) := rfl

@[simp] theorem onFiles_throw (e : ε) : onFiles (throw e : FileRun ε α) fs = (.error e, fs) := rfl

@[simp] theorem onFiles_attempt (x : StateM FileSystem (Except OsError α)) (f : OsError → ε) :
    onFiles (attempt x f) fs = ((x.run fs).1.mapError f, (x.run fs).2) := rfl

@[simp] theorem onFiles_settle (x : Except δ α) (f : δ → ε) :
    onFiles (settle x f : FileRun ε α) fs = (x.mapError f, fs) := rfl

@[simp] theorem onFiles_lift (x : StateM FileSystem α) :
    onFiles (ExceptT.lift x : FileRun ε α) fs = (.ok (x.run fs).1, (x.run fs).2) := rfl

@[simp] theorem onFiles_adapt (x : FileRun δ α) (f : δ → ε) :
    onFiles (x.adapt f) fs = ((onFiles x fs).1.mapError f, (onFiles x fs).2) := rfl

theorem onFiles_bind_of_ok {x : FileRun ε α} (f : α → FileRun ε β) {a : α}
    (h : onFiles x fs = (.ok a, mid)) : onFiles (x >>= f) fs = onFiles (f a) mid := by
  rw [onFiles] at h
  rw [onFiles, ExceptT.run_bind, StateT.run_bind, h]
  rfl

theorem onFiles_bind_of_error {x : FileRun ε α} (f : α → FileRun ε β) {e : ε}
    (h : onFiles x fs = (.error e, mid)) : onFiles (x >>= f) fs = (.error e, mid) := by
  rw [onFiles] at h
  rw [onFiles, ExceptT.run_bind, StateT.run_bind, h]
  rfl

theorem onFiles_settle_eq_ok_iff {x : Except δ α} {f : δ → ε} {a : α} :
    onFiles (settle x f : FileRun ε α) fs = (.ok a, fs) ↔ x = .ok a := by
  rw [onFiles_settle, Prod.mk.injEq, mapError_eq_ok_iff, and_iff_left rfl]

theorem onFiles_attempt_eq_ok_iff {x : StateM FileSystem (Except OsError α)} {f : OsError → ε}
    {a : α} : onFiles (attempt x f) fs = (.ok a, after) ↔ x.run fs = (.ok a, after) := by
  rw [onFiles_attempt, Prod.mk.injEq, mapError_eq_ok_iff, ← Prod.mk.injEq]
  rfl

/-! ## Looking does not touch -/

/-- An attempt that leaves every file system as it is. -/
def LeavesFiles (x : FileRun ε α) : Prop := ∀ fs, (onFiles x fs).2 = fs

namespace LeavesFiles

theorem pure (a : α) : LeavesFiles (Pure.pure a : FileRun ε α) := fun _ => rfl

theorem settle (x : Except δ α) (f : δ → ε) :
    LeavesFiles (CommandLine.settle x f : FileRun ε α) := fun _ => rfl

theorem eq_of_run {x : FileRun ε α} {result : Except ε α} (hx : LeavesFiles x)
    (h : onFiles x fs = (result, after)) : after = fs :=
  (congrArg Prod.snd h).symm.trans (hx fs)

theorem bind {x : FileRun ε α} {f : α → FileRun ε β} (hx : LeavesFiles x)
    (hf : ∀ a, LeavesFiles (f a)) : LeavesFiles (x >>= f) := by
  intro fs
  rcases h : onFiles x fs with ⟨e | a, mid⟩
  · rw [onFiles_bind_of_error f h]
    exact hx.eq_of_run h
  · rw [onFiles_bind_of_ok f h, hf a mid]
    exact hx.eq_of_run h

/-- Two attempts in a row of which the first leaves the files. -/
theorem bind_eq_ok_iff {x : FileRun ε α} {f : α → FileRun ε β} {b : β} (hx : LeavesFiles x) :
    onFiles (x >>= f) fs = (.ok b, after) ↔
      ∃ a, onFiles x fs = (.ok a, fs) ∧ onFiles (f a) fs = (.ok b, after) := by
  constructor
  · intro h
    rcases hfirst : onFiles x fs with ⟨e | a, mid⟩
    · rw [onFiles_bind_of_error f hfirst] at h
      cases h
    · obtain rfl := hx.eq_of_run hfirst
      rw [onFiles_bind_of_ok f hfirst] at h
      exact ⟨a, rfl, h⟩
  · rintro ⟨a, hfirst, hf⟩
    rw [onFiles_bind_of_ok f hfirst, hf]

end LeavesFiles

/-! ## Looking for the input -/

/-- The platform of the input: the one that is given, or else the one that its path tells. -/
def platformOf : Option Platform → Option String → Except Failure Platform
  | some p, _ => .ok p
  | none, some path =>
    match Platform.ofPath? path with
    | some p => .ok p
    | none => .error (.undetectedInput path)
  | none, none => .error .noSource

/-- The platform and path of the input where some paths lead to files. -/
def inputOf (isFile : String → Bool) (source : Option Platform) (input : Option String) :
    Except Failure (Platform × String) := do
  let platform ← platformOf source input
  match input with
  | some path => .ok (platform, path)
  | none =>
    match platform.usualPaths.find? isFile with
    | some path => .ok (platform, path)
    | none => .error (.nothingFound platform)

section Looking

variable (hfiles : files.Faithful)
include hfiles

theorem firstFile?_run (paths : List String) (fs : FileSystem) :
    (firstFile? files paths).run fs =
      (paths.find? fun path => ((files.isFile path).run fs).1, fs) := by
  induction paths with
  | nil => rfl
  | cons path rest ih =>
    -- The rest is looked at on what the first look leaves, which is the same file system.
    have hrun : (firstFile? files (path :: rest)).run fs =
        (if ((files.isFile path).run fs).1 then pure (some path)
          else firstFile? files rest : StateM _ _).run ((files.isFile path).run fs).2 := rfl
    rw [hrun, hfiles.isFile path fs, List.find?_cons]
    cases ((files.isFile path).run fs).1 with
    | true => rfl
    | false => exact ih

/-- The input is looked for without touching anything. -/
theorem findInput_run (source : Option Platform) (input : Option String) (fs : FileSystem) :
    onFiles (findInput files source input) fs =
      (inputOf (fun path => ((files.isFile path).run fs).1) source input, fs) := by
  cases input with
  | some path =>
    cases source with
    | some p => rfl
    | none =>
      rw [inputOf, platformOf, findInput.eq_def]
      dsimp only
      cases Platform.ofPath? path <;> rfl
  | none =>
    cases source with
    | none => rfl
    | some p =>
      -- Only here the files are looked at.
      have hfound : onFiles (ExceptT.lift (firstFile? files p.usualPaths) : FileRun Failure _) fs =
          (.ok (p.usualPaths.find? fun path => ((files.isFile path).run fs).1), fs) := by
        rw [onFiles_lift, firstFile?_run hfiles]
      have hrun : findInput files (some p) none = ExceptT.lift (firstFile? files p.usualPaths) >>=
          fun found => match found with
            | some path => pure (p, path)
            | none => throw (.nothingFound p) := rfl
      rw [hrun, onFiles_bind_of_ok _ hfound, inputOf, platformOf]
      simp only [bind, Except.bind]
      cases p.usualPaths.find? fun path => ((files.isFile path).run fs).1 <;> rfl

end Looking

/-! ## Reading and converting -/

/-- Reads a file and converts it, both platforms being settled first. -/
def prepare (files : FileAccess (StateM FileSystem)) (settings : Settings)
    (source target : Platform) (input : String) : FileRun FileFailure (Pipeline × String) := do
  settle (Conversion.require source .source) .conversion
  settle (Conversion.require target .target) .conversion
  let pipeline ← readPipeline files settings source input
  let text ← settle (Conversion.write target pipeline) .conversion
  return (pipeline, text)

section Preparing

variable (hfiles : files.Faithful)
include hfiles

theorem leavesFiles_readText (path : String) (f : OsError → ε) :
    LeavesFiles (attempt (files.readText path) f) :=
  fun fs => hfiles.readText path fs

theorem leavesFiles_readPipeline (settings : Settings) (p : Platform) (path : String) :
    LeavesFiles (readPipeline files settings p path) :=
  .bind (.settle _ _) fun _ => .bind (leavesFiles_readText hfiles path _) fun _ => .settle _ _

theorem leavesFiles_prepare (settings : Settings) (source target : Platform) (input : String) :
    LeavesFiles (prepare files settings source target input) :=
  .bind (.settle _ _) fun _ => .bind (.settle _ _) fun _ =>
    .bind (leavesFiles_readPipeline hfiles settings source input) fun _ =>
      .bind (.settle _ _) fun _ => .pure _

theorem leavesFiles_convertToStdout (settings : Settings) (source target : Platform)
    (input : String) : LeavesFiles (convertToStdout files settings source target input) :=
  .bind (leavesFiles_readText hfiles input _) fun _ => .settle _ _

variable {settings : Settings} {source target : Platform} {input converted : String}

theorem readPipeline_eq_ok_iff {p : Pipeline} :
    onFiles (readPipeline files settings source input) fs = (.ok p, fs) ↔
      Conversion.require source .source = .ok () ∧ ∃ text,
        (files.readText input).run fs = (.ok text, fs) ∧
          Conversion.read settings source text = .ok p := by
  rw [readPipeline, (LeavesFiles.settle _ _).bind_eq_ok_iff]
  simp only [(leavesFiles_readText hfiles input _).bind_eq_ok_iff, onFiles_settle_eq_ok_iff,
    onFiles_attempt_eq_ok_iff]
  exact ⟨fun ⟨_, hsource, h⟩ => ⟨hsource, h⟩, fun ⟨hsource, h⟩ => ⟨(), hsource, h⟩⟩

/-- What has been prepared is the pipeline of the text of the input, and its own text. -/
theorem prepare_eq_ok_iff {p : Pipeline} :
    onFiles (prepare files settings source target input) fs = (.ok (p, converted), fs) ↔
      Conversion.require source .source = .ok () ∧ Conversion.require target .target = .ok () ∧
        ∃ text, (files.readText input).run fs = (.ok text, fs) ∧
          Conversion.read settings source text = .ok p ∧
          Conversion.write target p = .ok converted := by
  have hpipeline := leavesFiles_readPipeline hfiles settings source input
  constructor
  · intro h
    obtain ⟨_, hsource, h⟩ := (LeavesFiles.settle _ _).bind_eq_ok_iff.1 h
    obtain ⟨_, htarget, h⟩ := (LeavesFiles.settle _ _).bind_eq_ok_iff.1 h
    obtain ⟨q, hq, h⟩ := hpipeline.bind_eq_ok_iff.1 h
    obtain ⟨_, hwrite, h⟩ := (LeavesFiles.settle _ _).bind_eq_ok_iff.1 h
    cases h
    obtain ⟨-, text, htext, hread⟩ := (readPipeline_eq_ok_iff hfiles).1 hq
    exact ⟨onFiles_settle_eq_ok_iff.1 hsource, onFiles_settle_eq_ok_iff.1 htarget, text, htext,
      hread, onFiles_settle_eq_ok_iff.1 hwrite⟩
  · rintro ⟨hsource, htarget, text, htext, hread, hwrite⟩
    have hq := (readPipeline_eq_ok_iff hfiles).2 ⟨hsource, text, htext, hread⟩
    rw [prepare, onFiles_bind_of_ok _ (onFiles_settle_eq_ok_iff.2 hsource),
      onFiles_bind_of_ok _ (onFiles_settle_eq_ok_iff.2 htarget), onFiles_bind_of_ok _ hq,
      onFiles_bind_of_ok _ (onFiles_settle_eq_ok_iff.2 hwrite), onFiles_pure]

theorem convertToStdout_eq_ok_iff :
    onFiles (convertToStdout files settings source target input) fs = (.ok converted, fs) ↔
      ∃ text, (files.readText input).run fs = (.ok text, fs) ∧
        Conversion.convert settings source target text = .ok converted := by
  rw [convertToStdout]
  simp only [(leavesFiles_readText hfiles input _).bind_eq_ok_iff, onFiles_settle_eq_ok_iff,
    onFiles_attempt_eq_ok_iff]

/-- A text is shown if and only if it is prepared for a file. -/
theorem convertToStdout_eq_ok_iff_prepare :
    onFiles (convertToStdout files settings source target input) fs = (.ok converted, fs) ↔
      ∃ p, onFiles (prepare files settings source target input) fs = (.ok (p, converted), fs) := by
  simp only [convertToStdout_eq_ok_iff hfiles, prepare_eq_ok_iff hfiles,
    Conversion.convert_eq_ok_iff]
  constructor
  · rintro ⟨text, htext, hsource, htarget, p, hread, hwrite⟩
    exact ⟨p, hsource, htarget, text, htext, hread, hwrite⟩
  · rintro ⟨p, hsource, htarget, text, htext, hread, hwrite⟩
    exact ⟨text, htext, hsource, htarget, p, hread, hwrite⟩

end Preparing

/-! ## Saving -/

/-- Creates the directories that a file lies in. -/
def createParents (files : FileAccess (StateM FileSystem)) (output : String) :
    FileRun FileFailure Unit :=
  match Path.parent? output with
  | some parent => attempt (files.createDirectories parent) (.access parent)
  | none => pure ()

/-- Writes a text to a file, with the directories it lies in. -/
def saveText (files : FileAccess (StateM FileSystem)) (text output : String) :
    FileRun FileFailure Unit := do
  createParents files output
  attempt (files.writeText output text) (.access output)

/-- A file is converted by preparing its text and saving it. -/
theorem convertFile_eq (files : FileAccess (StateM FileSystem)) (settings : Settings)
    (source target : Platform) (input output : String) :
    convertFile files settings source target input output = do
      let (pipeline, text) ← prepare files settings source target input
      saveText files text output
      return ⟨source, target, input, output, pipeline.jobs.length, pipeline.stepCount⟩ := by
  simp only [convertFile, prepare, saveText, createParents, bind_assoc, pure_bind]
  cases Path.parent? output <;> rfl

section Converting

variable {settings : Settings} {source target : Platform} {input output text : String}
variable {p : Pipeline}

theorem convertFile_of_error {e : FileFailure}
    (h : onFiles (prepare files settings source target input) fs = (.error e, mid)) :
    onFiles (convertFile files settings source target input output) fs = (.error e, mid) := by
  rw [convertFile_eq, onFiles_bind_of_error _ h]

theorem convertFile_of_saveText_error {e : FileFailure}
    (h : onFiles (prepare files settings source target input) fs = (.ok (p, text), mid))
    (hsave : onFiles (saveText files text output) mid = (.error e, after)) :
    onFiles (convertFile files settings source target input output) fs = (.error e, after) := by
  rw [convertFile_eq, onFiles_bind_of_ok _ h]
  exact onFiles_bind_of_error _ hsave

theorem convertFile_of_saveText
    (h : onFiles (prepare files settings source target input) fs = (.ok (p, text), mid))
    (hsave : onFiles (saveText files text output) mid = (.ok (), after)) :
    onFiles (convertFile files settings source target input output) fs =
      (.ok ⟨source, target, input, output, p.jobs.length, p.stepCount⟩, after) := by
  rw [convertFile_eq, onFiles_bind_of_ok _ h]
  exact onFiles_bind_of_ok _ hsave

end Converting

section Saving

variable (hfiles : files.Faithful) {text output : String}
include hfiles

theorem addsDirectories_createParents (fs : FileSystem) (output : String) :
    fs.AddsDirectories (onFiles (createParents files output) fs).2 := by
  rw [createParents]
  cases Path.parent? output with
  | some parent => exact hfiles.createDirectories parent fs
  | none => exact .refl fs

/-- A text that has been saved is where the path of its file leads. -/
theorem find_of_saveText (h : onFiles (saveText files text output) fs = (.ok (), after)) :
    ∃ l, after.find output = .ok (l, .file text) ∧ fs.WritesAt after l text := by
  have hparents := addsDirectories_createParents hfiles fs output
  rcases hmid : onFiles (createParents files output) fs with ⟨e | _, mid⟩
  · rw [saveText, onFiles_bind_of_error _ hmid] at h
    cases h
  · rw [saveText, onFiles_bind_of_ok _ hmid, onFiles_attempt_eq_ok_iff] at h
    rw [hmid] at hparents
    obtain ⟨l, hfind, hwas, hothers⟩ := hfiles.written h
    obtain ⟨-, -, hnow, -⟩ := find_eq_ok_iff.1 hfind
    exact ⟨l, hfind, .of_addsDirectories hparents
      ⟨hwas, hnow, fun other hother => .inl (hothers other hother)⟩⟩

/-- A text that could not be saved has changed nothing but for new directories. -/
theorem addsDirectories_saveText {e : FileFailure}
    (h : onFiles (saveText files text output) fs = (.error e, after)) :
    fs.AddsDirectories after := by
  have hparents := addsDirectories_createParents hfiles fs output
  rcases hmid : onFiles (createParents files output) fs with ⟨e | _, mid⟩
  · -- The directories that were created before one was refused stay.
    rw [saveText, onFiles_bind_of_error _ hmid] at h
    cases h
    rwa [hmid] at hparents
  · rw [saveText, onFiles_bind_of_ok _ hmid, onFiles_attempt] at h
    rw [hmid] at hparents
    rcases hrun : (files.writeText output text).run mid with ⟨e' | _, written⟩
    · -- A refused file leaves what the directories have made of the file system.
      rw [hrun] at h
      cases h
      rwa [hfiles.refused hrun]
    · rw [hrun] at h
      cases h

end Saving

/-! ## Both ways of a conversion -/

/-- How a conversion to the file `output` ends, `saved`, compared with one to the standard output,
`shown`, on the same file system. -/
structure ConvertsAlike (files : FileAccess (StateM FileSystem)) (fs : FileSystem)
    (output : String) (shown saved : Except Failure String × FileSystem) : Prop where
  /-- What shows a text touches no file. -/
  shown_leaves : shown.2 = fs
  /-- What fails touches no file, but there may be new directories. -/
  failed_leaves : ∀ e, saved.1 = .error e → fs.AddsDirectories saved.2
  /-- The file gets the text that is shown, and no other file differs. -/
  saves_shown : ∀ message, saved.1 = .ok message → ∃ text l,
    shown.1 = .ok text ∧ saved.2.find output = .ok (l, .file text) ∧
      fs.entry? l ≠ some .directory ∧ ∀ other, other ≠ l → saved.2.file? other = fs.file? other
  /-- Where nothing is shown nothing is saved. -/
  fails_too : ∀ e, shown.1 = .error e → ∃ e', saved.1 = .error e'
  /-- A text that is shown fails to be saved only if the directories of its file cannot be created
  or the file cannot be written. -/
  fails_saving : ∀ text e, shown.1 = .ok text → saved.1 = .error e → ∃ input reason,
    e = .cannotConvert input reason ∧
      onFiles (saveText files text output) fs = (.error reason, saved.2)

namespace ConvertsAlike

variable {text output message : String} {shown saved : Except Failure String × FileSystem}

/-- Both fail before anything is written. -/
theorem of_failures {e e' : Failure} :
    ConvertsAlike files fs output (.error e, fs) (.error e', fs) where
  shown_leaves := rfl
  failed_leaves _ _ := .refl fs
  saves_shown _ h := by cases h
  fails_too _ _ := ⟨e', rfl⟩
  fails_saving _ _ h := by cases h

/-- The text is shown, but cannot be saved. -/
theorem of_refusal (hfiles : files.Faithful) {input : String} {reason : FileFailure}
    (hsave : onFiles (saveText files text output) fs = (.error reason, after)) :
    ConvertsAlike files fs output (.ok text, fs) (.error (.cannotConvert input reason), after) where
  shown_leaves := rfl
  failed_leaves _ _ := addsDirectories_saveText hfiles hsave
  saves_shown _ h := by cases h
  fails_too _ h := by cases h
  fails_saving shown e hshown he := by
    cases hshown
    cases he
    exact ⟨input, reason, rfl, hsave⟩

/-- The text is shown, and saved. -/
theorem of_success (hfiles : files.Faithful)
    (hsave : onFiles (saveText files text output) fs = (.ok (), after)) :
    ConvertsAlike files fs output (.ok text, fs) (.ok message, after) where
  shown_leaves := rfl
  failed_leaves _ h := by cases h
  saves_shown _ _ := by
    obtain ⟨l, hfind, hwrites⟩ := find_of_saveText hfiles hsave
    exact ⟨text, l, rfl, hfind, hwrites.was, fun _ => hwrites.file?⟩
  fails_too _ h := by cases h
  fails_saving _ _ _ h := by cases h

end ConvertsAlike

section Modes

variable (hfiles : files.Faithful) {texts : GeneratedTexts} {settings : Settings}
variable {source : Option Platform} {target platform : Platform}
variable {input output : Option String} {path : String}
include hfiles

/-- Without an input nothing else is done. -/
theorem runCommand_convert_of_error {e : Failure} (toStdout : Bool)
    (h : inputOf (fun path => ((files.isFile path).run fs).1) source input = .error e) :
    onFiles (runCommand files texts settings (.convert source target input output toStdout)) fs =
      (.error e, fs) := by
  rw [runCommand]
  exact onFiles_bind_of_error _ (by rw [findInput_run hfiles, h])

theorem runCommand_convert_toStdout
    (h : inputOf (fun path => ((files.isFile path).run fs).1) source input = .ok (platform, path)) :
    onFiles (runCommand files texts settings (.convert source target input output true)) fs =
      onFiles (convertToStdout files settings platform target path) fs := by
  rw [runCommand, onFiles_bind_of_ok _ (by rw [findInput_run hfiles, h])]
  rfl

theorem runCommand_convert_toFile
    (h : inputOf (fun path => ((files.isFile path).run fs).1) source input = .ok (platform, path)) :
    onFiles (runCommand files texts settings (.convert source target input output false)) fs =
      match onFiles (convertFile files settings platform target path
        (output.getD target.usualPath)) fs with
      | (.ok report, after) => (.ok (report.message ++ "\n"), after)
      | (.error e, after) => (.error (.cannotConvert path e), after) := by
  rw [runCommand, onFiles_bind_of_ok _ (by rw [findInput_run hfiles, h])]
  rcases hrun : onFiles (convertFile files settings platform target path
    (output.getD target.usualPath)) fs with ⟨e | report, after⟩
  · exact onFiles_bind_of_error _ (by rw [onFiles_adapt, hrun]; rfl)
  · exact onFiles_bind_of_ok _ (by rw [onFiles_adapt, hrun]; rfl)

/-- A conversion to a file does what the one to the standard output shows. -/
theorem runCommand_convert_alike (texts : GeneratedTexts) (settings : Settings)
    (source : Option Platform) (target : Platform) (input output : Option String)
    (fs : FileSystem) :
    ConvertsAlike files fs (output.getD target.usualPath)
      (onFiles (runCommand files texts settings (.convert source target input none true)) fs)
      (onFiles (runCommand files texts settings (.convert source target input output false))
        fs) := by
  cases hinput : inputOf (fun path => ((files.isFile path).run fs).1) source input with
  | error e =>
    rw [runCommand_convert_of_error hfiles true hinput,
      runCommand_convert_of_error hfiles false hinput]
    exact .of_failures
  | ok found =>
    obtain ⟨platform, path⟩ := found
    rw [runCommand_convert_toStdout hfiles hinput, runCommand_convert_toFile hfiles hinput]
    have hleaves := leavesFiles_prepare hfiles settings platform target path
    rcases hprepared : onFiles (prepare files settings platform target path) fs with
      ⟨e | ⟨p, text⟩, mid⟩
    · -- Nothing can be saved, and nothing can be shown, since it could be saved otherwise.
      rw [hleaves.eq_of_run hprepared] at hprepared
      rw [convertFile_of_error hprepared]
      have hshown := leavesFiles_convertToStdout hfiles settings platform target path
      rcases hrun : onFiles (convertToStdout files settings platform target path) fs with
        ⟨e' | text, after⟩
      · rw [hshown.eq_of_run hrun]
        exact .of_failures
      · rw [hshown.eq_of_run hrun, convertToStdout_eq_ok_iff_prepare hfiles] at hrun
        obtain ⟨p, hp⟩ := hrun
        rw [hp] at hprepared
        cases hprepared
    · -- The text is shown; what can go wrong now is to save it.
      rw [hleaves.eq_of_run hprepared] at hprepared
      rw [(convertToStdout_eq_ok_iff_prepare hfiles).2 ⟨p, hprepared⟩]
      rcases hsave : onFiles (saveText files text (output.getD target.usualPath)) fs with
        ⟨reason | _, after⟩
      · rw [convertFile_of_saveText_error hprepared hsave]
        exact .of_refusal hfiles hsave
      · rw [convertFile_of_saveText hprepared hsave]
        exact .of_success hfiles hsave

end Modes

/-- A repository with one workflow, at the less usual place. -/
def repository (workflow : String) : FileSystem :=
  ⟨[([".github", "workflows", "main.yml"], .file workflow),
    ([".github", "workflows"], .directory), ([".github"], .directory)]⟩

/-- A repository with a workflow whose job runs in a container. -/
def containerRepository : FileSystem := repository "jobs:\n  a:\n    runs-on: node:20\n"

/-- A conversion of the workflow that goes well. -/
theorem runCommand_convert_alike_container :
    FileSystem.access.Faithful ∧
      (onFiles (runCommand FileSystem.access {} {}
        (.convert (some .github) .gitlab none (some "out/ci.yml") false)) containerRepository).1 =
        .ok ("Converted .github/workflows/main.yml (GitHub Actions) -> out/ci.yml (GitLab CI): "
          ++ "1 jobs, 0 steps\n") ∧
      ConvertsAlike FileSystem.access containerRepository "out/ci.yml"
        (onFiles (runCommand FileSystem.access {} {}
          (.convert (some .github) .gitlab none none true)) containerRepository)
        (onFiles (runCommand FileSystem.access {} {}
          (.convert (some .github) .gitlab none (some "out/ci.yml") false)) containerRepository) :=
  ⟨FileSystem.access_faithful, by decide +kernel,
    runCommand_convert_alike FileSystem.access_faithful {} {} (some .github) .gitlab none
      (some "out/ci.yml") containerRepository⟩

end CommandLine
end CiPipelines
