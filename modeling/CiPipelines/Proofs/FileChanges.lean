import CiPipelines.Files.FileSystem

/-!
# What changes on a file system

A file system answers two questions: what is at a place, and which place a path leads to.  Creating
directories changes the first answer only where nothing was, and writing a file only at the place
of that file.  Neither takes a directory away, so a path that led somewhere still leads there
(`follow_of_directories`), and doing either again changes nothing more.

`FileAccess.Faithful` says what of this is expected of any access to files, also of one that
refuses for reasons of its own: reading leaves everything as it is, creating directories adds
directories only, and writing replaces one file or does nothing.
-/

namespace CiPipelines
namespace FileSystem

variable {fs mid after : FileSystem} {l place : Location} {path text : String}

/-! ## Entries -/

theorem entry?_nil (fs : FileSystem) : fs.entry? [] = some .directory := rfl

theorem entry?_of_ne_nil (fs : FileSystem) (h : l ≠ []) : fs.entry? l = fs.entries.lookup l :=
  if_neg (by simpa using h)

theorem file?_eq_some_iff : fs.file? l = some text ↔ fs.entry? l = some (.file text) := by
  rw [file?]
  split <;> simp_all

/-- Leaving out the entry of one place leaves the others. -/
theorem lookup_filter_ne {entries : List (Location × FileEntry)} (h : l ≠ place) :
    (entries.filter fun old => old.1 != place).lookup l = entries.lookup l := by
  induction entries with
  | nil => rfl
  | cons old entries ih =>
    obtain ⟨at_, e⟩ := old
    by_cases hplace : at_ = place
    · -- The entry is left out, and it is not the one that is looked for.
      have hne : (l == at_) = false := by simpa [hplace] using h
      rw [List.filter_cons_of_neg (by simp [hplace]), ih, List.lookup_cons, hne]
    · rw [List.filter_cons_of_pos (by simp [hplace]), List.lookup_cons, List.lookup_cons, ih]

theorem entry?_put_self (fs : FileSystem) (h : l ≠ []) (e : FileEntry) :
    FileSystem.entry? (fs.put l e) l = some e := by
  rw [entry?_of_ne_nil _ h, put, List.lookup_cons_self]

theorem entry?_put_of_ne (fs : FileSystem) (e : FileEntry) (h : l ≠ place) :
    FileSystem.entry? (fs.put place e) l = fs.entry? l := by
  by_cases hnil : l = []
  · rw [hnil, entry?_nil, entry?_nil]
  · have hne : (l == place) = false := by simpa using h
    rw [entry?_of_ne_nil _ hnil, entry?_of_ne_nil _ hnil, put, List.lookup_cons, hne]
    exact lookup_filter_ne h

/-- The entry that is put last counts. -/
theorem put_put (fs : FileSystem) (l : Location) (old new : FileEntry) :
    (fs.put l old).put l new = fs.put l new := by
  simp [put, List.filter_filter]

/-! ## New directories -/

/-- A place is as it was, unless nothing was there and a directory is now. -/
def KeptAt (fs after : FileSystem) (l : Location) : Prop :=
  after.entry? l = fs.entry? l ∨ fs.entry? l = none ∧ after.entry? l = some .directory

namespace KeptAt

theorem trans (h : fs.KeptAt mid l) (h' : mid.KeptAt after l) : fs.KeptAt after l := by
  rcases h' with heq | ⟨hnone, hdirectory⟩
  · rw [KeptAt, heq]
    exact h
  · rcases h with heq | ⟨-, hmid⟩
    · exact .inr ⟨by rw [← heq, hnone], hdirectory⟩
    · rw [hnone] at hmid
      cases hmid

theorem directory (h : fs.KeptAt after l) (hl : fs.entry? l = some .directory) :
    after.entry? l = some .directory := by
  rcases h with heq | ⟨-, hdirectory⟩
  · rw [heq, hl]
  · exact hdirectory

/-- There is a file if and only if there was. -/
theorem entry?_eq_file_iff (h : fs.KeptAt after l) :
    after.entry? l = some (.file text) ↔ fs.entry? l = some (.file text) := by
  rcases h with heq | ⟨hnone, hdirectory⟩
  · rw [heq]
  · rw [hnone, hdirectory]
    simp

end KeptAt

/-- Nothing has changed but that there are directories where nothing was. -/
def AddsDirectories (fs after : FileSystem) : Prop := ∀ l, fs.KeptAt after l

namespace AddsDirectories

theorem refl (fs : FileSystem) : fs.AddsDirectories fs := fun _ => .inl rfl

theorem trans (h : fs.AddsDirectories mid) (h' : mid.AddsDirectories after) :
    fs.AddsDirectories after := fun l => (h l).trans (h' l)

end AddsDirectories

theorem addsDirectories_put (h : fs.entry? place = none) :
    fs.AddsDirectories (fs.put place .directory) := by
  have hne : place ≠ [] := by
    rintro rfl
    cases h
  intro l
  by_cases hl : l = place
  · subst hl
    exact .inr ⟨h, entry?_put_self fs hne _⟩
  · exact .inl (entry?_put_of_ne fs _ hl)

/-! ## Paths -/

theorem enter_eq_ok_iff {name : String} :
    fs.enter l name = .ok place ↔
      fs.entry? l = some .directory ∧
        (if name == ".." then l.dropLast else l ++ [name]) = place := by
  rw [enter]
  cases hentry : fs.entry? l with
  | none => simp only [reduceCtorEq, false_and]
  | some e =>
    cases e with
    | file text => simp only [reduceCtorEq, Option.some.injEq, false_and]
    | directory => simp only [Except.ok.injEq, true_and]

/-- Names lead where they led as long as no directory is gone. -/
theorem foldlM_enter_of_directories
    (h : ∀ l, fs.entry? l = some .directory → after.entry? l = some .directory) :
    ∀ {names : List String} {start : Location}, names.foldlM fs.enter start = .ok place →
      names.foldlM after.enter start = .ok place
  | [], _, hok => hok
  | name :: names, start, hok => by
    rw [List.foldlM_cons] at hok ⊢
    cases hnext : fs.enter start name with
    | error e =>
      rw [hnext] at hok
      cases hok
    | ok next =>
      obtain ⟨hstart, hplace⟩ := enter_eq_ok_iff.1 hnext
      rw [enter_eq_ok_iff.2 ⟨h _ hstart, hplace⟩]
      rw [hnext] at hok
      exact foldlM_enter_of_directories h hok

theorem follow_of_directories {names : List String}
    (h : ∀ l, fs.entry? l = some .directory → after.entry? l = some .directory)
    (hok : fs.follow names = .ok place) : after.follow names = .ok place :=
  foldlM_enter_of_directories h hok

/-- What a path leads to: the place that its names lead to, if something is there and a path that
asks for a directory does not lead to a file. -/
theorem find_eq_ok_iff {e : FileEntry} :
    fs.find path = .ok (place, e) ↔
      path.isEmpty = false ∧ fs.follow (Path.names path) = .ok place ∧
        fs.entry? place = some e ∧ (Path.asksForDirectory path = true → e = .directory) := by
  rw [find]
  constructor
  · intro h
    cases hempty : path.isEmpty with
    | true => simp [hempty] at h
    | false =>
      cases hfollow : fs.follow (Path.names path) with
      | error e => simp [hempty, hfollow, bind, Except.bind] at h
      | ok l =>
        simp only [hempty, hfollow, bind, Except.bind, Bool.false_eq_true, if_false] at h
        split at h
        · cases h
        · split at h
          · cases h
          · cases h
            exact ⟨rfl, rfl, by assumption, by simp_all⟩
        · cases h
          exact ⟨rfl, rfl, by assumption, fun _ => rfl⟩
  · rintro ⟨hempty, hfollow, hentry, hasks⟩
    simp only [hempty, hfollow, bind, Except.bind, hentry, Bool.false_eq_true, if_false]
    cases e with
    | directory => rfl
    | file text =>
      have hfile : Path.asksForDirectory path = false := by simpa using hasks
      simp only [hfile, Bool.false_eq_true, if_false]

theorem readText_eq_ok_iff :
    fs.readText path = .ok text ↔ ∃ l, fs.find path = .ok (l, .file text) := by
  rw [readText]
  cases fs.find path with
  | error e => simp [bind, Except.bind]
  | ok found =>
    obtain ⟨l, e⟩ := found
    cases e <;> simp [bind, Except.bind]

theorem isFile_iff : fs.isFile path = true ↔ ∃ l text, fs.find path = .ok (l, .file text) := by
  rw [isFile]
  split <;> simp_all

theorem isFile_iff_readText : fs.isFile path = true ↔ ∃ text, fs.readText path = .ok text := by
  rw [isFile_iff, exists_comm]
  simp only [readText_eq_ok_iff]

theorem isDirectory_iff : fs.isDirectory path = true ↔ ∃ l, fs.find path = .ok (l, .directory) := by
  rw [isDirectory]
  split <;> simp_all

/-- The place that a path leads to, if anything is there. -/
def place? (fs : FileSystem) (path : String) : Option Location :=
  (fs.find path).toOption.map (·.1)

theorem place?_of_find {e : FileEntry} (h : fs.find path = .ok (l, e)) :
    fs.place? path = some l := by
  rw [place?, h]
  rfl

theorem find_of_place? (h : fs.place? path = some l) : ∃ e, fs.find path = .ok (l, e) := by
  rw [place?] at h
  cases hfind : fs.find path with
  | error e =>
    rw [hfind] at h
    cases h
  | ok found =>
    rw [hfind] at h
    cases h
    exact ⟨found.2, rfl⟩

theorem readText_of_place? (h : fs.place? path = some l) (hl : fs.entry? l = some (.file text)) :
    fs.readText path = .ok text := by
  obtain ⟨e, hfind⟩ := find_of_place? h
  obtain ⟨-, -, hentry, -⟩ := find_eq_ok_iff.1 hfind
  rw [hl] at hentry
  cases hentry
  exact readText_eq_ok_iff.2 ⟨l, hfind⟩

/-- Two paths lead to the same file or directory. -/
def SamePlace (fs : FileSystem) (path other : String) : Prop :=
  fs.place? path ≠ none ∧ fs.place? path = fs.place? other

instance (fs : FileSystem) (path other : String) : Decidable (fs.SamePlace path other) :=
  inferInstanceAs (Decidable (_ ∧ _))

theorem samePlace_iff {other : String} (h : fs.place? other = some l) :
    fs.SamePlace path other ↔ fs.place? path = some l := by
  rw [SamePlace, h]
  constructor
  · exact And.right
  · intro hpath
    rw [hpath]
    exact ⟨by simp, rfl⟩

/-! ## One written place -/

/-- A file has been written at a place that was no directory, and but for new directories nothing
else has changed. -/
structure WritesAt (fs after : FileSystem) (place : Location) (text : String) : Prop where
  was : fs.entry? place ≠ some .directory
  now : after.entry? place = some (.file text)
  elsewhere : ∀ l, l ≠ place → fs.KeptAt after l

namespace WritesAt

variable {written : String}

theorem directory (h : fs.WritesAt after place written) (hl : fs.entry? l = some .directory) :
    after.entry? l = some .directory := by
  have hne : l ≠ place := by
    rintro rfl
    exact h.was hl
  exact (h.elsewhere l hne).directory hl

theorem follow {names : List String} (h : fs.WritesAt after place written)
    (hok : fs.follow names = .ok l) : after.follow names = .ok l :=
  follow_of_directories (fun _ => h.directory) hok

theorem file? (h : fs.WritesAt after place written) (hl : l ≠ place) :
    after.file? l = fs.file? l := by
  apply Option.ext
  intro text
  rw [file?_eq_some_iff, file?_eq_some_iff, (h.elsewhere l hl).entry?_eq_file_iff]

/-- Directories may be created before. -/
theorem of_addsDirectories (hadds : fs.AddsDirectories mid) (h : mid.WritesAt after place written) :
    fs.WritesAt after place written where
  was hdirectory := h.was ((hadds place).directory hdirectory)
  now := h.now
  elsewhere l hl := (hadds l).trans (h.elsewhere l hl)

/-- A path that led to a directory still does. -/
theorem isDirectory (h : fs.WritesAt after place written) (hpath : fs.isDirectory path = true) :
    after.isDirectory path = true := by
  obtain ⟨l, hfind⟩ := isDirectory_iff.1 hpath
  obtain ⟨hempty, hfollow, hentry, hasks⟩ := find_eq_ok_iff.1 hfind
  exact isDirectory_iff.2 ⟨l, find_eq_ok_iff.2
    ⟨hempty, h.follow hfollow, h.directory hentry, hasks⟩⟩

/-- A path that led to a file elsewhere still does. -/
theorem readText (h : fs.WritesAt after place written) (hpath : after.place? path ≠ some place)
    (hread : fs.readText path = .ok text) : after.readText path = .ok text := by
  obtain ⟨l, hfind⟩ := readText_eq_ok_iff.1 hread
  obtain ⟨hempty, hfollow, hentry, hasks⟩ := find_eq_ok_iff.1 hfind
  have hasks : Path.asksForDirectory path = false := by simpa using hasks
  have hfound : ∀ {found : String}, after.entry? l = some (.file found) →
      after.find path = .ok (l, .file found) :=
    fun hl => find_eq_ok_iff.2
      ⟨hempty, h.follow hfollow, hl, by simp [hasks]⟩
  -- A path that led to the written place would lead there now.
  have hne : l ≠ place := by
    rintro rfl
    exact hpath (place?_of_find (hfound h.now))
  exact readText_eq_ok_iff.2 ⟨l, hfound ((h.elsewhere l hne).entry?_eq_file_iff.2 hentry)⟩

/-- A path whose names led somewhere leads to no file elsewhere but the one it led to. -/
theorem readText_before (h : fs.WritesAt after place written)
    (hpath : after.place? path ≠ some place) (hfollow : fs.follow (Path.names path) = .ok l)
    (hread : after.readText path = .ok text) : fs.readText path = .ok text := by
  obtain ⟨found, hfind⟩ := readText_eq_ok_iff.1 hread
  obtain ⟨hempty, hthere, hentry, hasks⟩ := find_eq_ok_iff.1 hfind
  -- The names still lead where they led, and there the file must have been.
  rw [h.follow hfollow] at hthere
  cases hthere
  have hne : l ≠ place := by
    rintro rfl
    exact hpath (place?_of_find hfind)
  exact readText_eq_ok_iff.2
    ⟨l, find_eq_ok_iff.2 ⟨hempty, hfollow, (h.elsewhere l hne).entry?_eq_file_iff.1 hentry, hasks⟩⟩

end WritesAt

/-! ## Creating directories -/

theorem createDirectory_eq_ok_iff :
    fs.createDirectory path = .ok after ↔
      ∃ l, fs.follow (Path.names path) = .ok l ∧ fs.entry? l = none ∧
        fs.put l .directory = after := by
  rw [createDirectory]
  cases fs.follow (Path.names path) with
  | error e => simp [bind, Except.bind]
  | ok l => cases h : fs.entry? l <;> simp [bind, Except.bind, h]

theorem addsDirectories_createDirectory (h : fs.createDirectory path = .ok after) :
    fs.AddsDirectories after := by
  obtain ⟨l, -, hnone, rfl⟩ := createDirectory_eq_ok_iff.1 h
  exact addsDirectories_put hnone

theorem isDirectory_createDirectory (h : fs.createDirectory path = .ok after) :
    after.isDirectory path = true := by
  obtain ⟨l, hfollow, hnone, rfl⟩ := createDirectory_eq_ok_iff.1 h
  have hadds := addsDirectories_put hnone
  have hne : l ≠ [] := by
    rintro rfl
    cases hnone
  have hempty : path.isEmpty = false := by
    cases hpath : path.isEmpty with
    | false => rfl
    | true =>
      rw [String.isEmpty_iff.1 hpath, show Path.names "" = [] by decide +kernel] at hfollow
      cases hfollow
      exact absurd rfl hne
  refine isDirectory_iff.2
    ⟨l, find_eq_ok_iff.2 ⟨hempty, ?_, entry?_put_self fs hne _, fun _ => rfl⟩⟩
  exact follow_of_directories (fun l => (hadds l).directory) hfollow

/-- Directories are added also by an attempt that fails half-way. -/
theorem addsDirectories_createDirectoriesFrom (fs : FileSystem) (depth : Nat) (path : String) :
    fs.AddsDirectories (fs.createDirectoriesFrom depth path).2 := by
  induction depth generalizing fs path with
  | zero => exact .refl fs
  | succ depth ih =>
    rw [createDirectoriesFrom]
    split
    · exact addsDirectories_createDirectory (by assumption)
    · -- The directory it lies in is missing, and has been tried first.
      split
      · exact .refl fs
      · rename_i parent _
        have hparent := ih fs parent
        split
        · rename_i hrun
          rwa [hrun] at hparent
        · rename_i mid hrun
          rw [hrun] at hparent
          split
          · exact hparent.trans (addsDirectories_createDirectory (by assumption))
          · split <;> exact hparent
    · split <;> exact .refl fs

/-- After directories were created there is one at the path. -/
theorem isDirectory_createDirectoriesFrom {depth : Nat}
    (h : (fs.createDirectoriesFrom depth path).1 = .ok ()) :
    (fs.createDirectoriesFrom depth path).2.isDirectory path = true := by
  cases depth with
  | zero => cases h
  | succ depth =>
    revert h
    rw [createDirectoriesFrom]
    split
    · intro _
      exact isDirectory_createDirectory (by assumption)
    · -- What becomes of the directory it lies in does not matter: it is the path that is tried last.
      split
      · intro h
        cases h
      · split
        · intro h
          cases h
        · split
          · intro _
            exact isDirectory_createDirectory (by assumption)
          · split
            · intro _
              assumption
            · intro h
              cases h
    · split
      · intro _
        assumption
      · intro h
        cases h

theorem addsDirectories_createDirectories (fs : FileSystem) (path : String) :
    fs.AddsDirectories (fs.createDirectories path).2 :=
  addsDirectories_createDirectoriesFrom fs _ path

theorem isDirectory_createDirectories (h : (fs.createDirectories path).1 = .ok ()) :
    (fs.createDirectories path).2.isDirectory path = true :=
  isDirectory_createDirectoriesFrom h

/-- Where a directory is, none is created. -/
theorem createDirectories_of_isDirectory (h : fs.isDirectory path = true) :
    fs.createDirectories path = (.ok (), fs) := by
  obtain ⟨l, hfind⟩ := isDirectory_iff.1 h
  obtain ⟨-, hfollow, hentry, -⟩ := find_eq_ok_iff.1 hfind
  have hexists : fs.createDirectory path = .error .exists := by
    simp only [createDirectory, hfollow, bind, Except.bind, hentry]
  rw [createDirectories, createDirectoriesFrom, hexists]
  simp only [h, if_true]

/-! ## Writing -/

theorem follow_concat (fs : FileSystem) (names : List String) (name : String) :
    fs.follow (names ++ [name]) = fs.follow names >>= fun l => fs.enter l name := by
  simp only [follow, List.foldlM_append, List.foldlM_cons, List.foldlM_nil, bind_pure]

/-- A file is written where all names of its path lead to, as if they were followed at once. -/
theorem writeText_eq (fs : FileSystem) (path text : String) (hempty : path.isEmpty = false) :
    fs.writeText path text = fs.follow (Path.names path) >>= fun l =>
      match fs.entry? l with
      | some .directory => .error .isDirectory
      | some (.file _) | none =>
        if Path.asksForDirectory path then .error .isDirectory
        else .ok (fs.put l (.file text)) := by
  rw [writeText, if_neg (by simp [hempty])]
  cases hlast : (Path.names path).getLast? with
  | none =>
    rw [List.getLast?_eq_none_iff.1 hlast]
    rfl
  | some name =>
    obtain ⟨parents, hnames⟩ := List.getLast?_eq_some_iff.1 hlast
    simp only [hnames, List.dropLast_concat, List.getLast?_concat, follow_concat]
    exact (bind_assoc _ _ _).symm

/-- A file is written at the place that the names of its path lead to, unless there is a directory
or the path asks for one. -/
theorem writeText_eq_ok_iff :
    fs.writeText path text = .ok after ↔
      path.isEmpty = false ∧ Path.asksForDirectory path = false ∧
        ∃ l, fs.follow (Path.names path) = .ok l ∧ fs.entry? l ≠ some .directory ∧
          fs.put l (.file text) = after := by
  cases hempty : path.isEmpty with
  | true => simp [writeText, hempty]
  | false =>
    rw [writeText_eq fs path text hempty]
    cases fs.follow (Path.names path) with
    | error e => simp [bind, Except.bind]
    | ok l =>
      simp only [bind, Except.bind, true_and, Except.ok.injEq, exists_eq_left']
      split
      · simp_all
      all_goals cases Path.asksForDirectory path <;> simp_all

/-- What is written is where its path leads. -/
theorem find_of_writeText (h : fs.writeText path text = .ok after) :
    ∃ l, after.find path = .ok (l, .file text) ∧ fs.WritesAt after l text ∧
      fs.put l (.file text) = after := by
  obtain ⟨hempty, hasks, l, hfollow, hentry, rfl⟩ := writeText_eq_ok_iff.1 h
  have hne : l ≠ [] := by
    rintro rfl
    exact hentry rfl
  have hwrites : fs.WritesAt (fs.put l (.file text)) l text :=
    ⟨hentry, entry?_put_self fs hne _, fun other hother => .inl (entry?_put_of_ne fs _ hother)⟩
  refine ⟨l, find_eq_ok_iff.2 ⟨hempty, ?_, hwrites.now, by simp [hasks]⟩, hwrites, rfl⟩
  -- The names lead to the same place, since the place itself was no directory.
  exact hwrites.follow hfollow

/-- A file that is there is replaced. -/
theorem writeText_of_find {old : String} (h : fs.find path = .ok (l, .file old)) (text : String) :
    fs.writeText path text = .ok (fs.put l (.file text)) := by
  obtain ⟨hempty, hfollow, hentry, hasks⟩ := find_eq_ok_iff.1 h
  refine writeText_eq_ok_iff.2 ⟨hempty, by simpa using hasks, l, hfollow, ?_, rfl⟩
  rw [hentry]
  simp

/-! ## Access -/

theorem access_readText_eq_ok_iff :
    (access.readText path).run fs = (.ok text, fs) ↔ fs.readText path = .ok text :=
  ⟨fun h => congrArg Prod.fst h, fun h => congrArg (·, fs) h⟩

theorem access_createDirectories (fs : FileSystem) (path : String) :
    (access.createDirectories path).run fs = fs.createDirectories path := rfl

theorem access_writeText (fs : FileSystem) (path text : String) :
    (access.writeText path text).run fs =
      match fs.writeText path text with
      | .ok written => ((.ok (), written) : Except OsError Unit × FileSystem)
      | .error e => (.error e, fs) := rfl

end FileSystem

/-- What is expected of access to files.  The system may refuse anything, but a file is written as a
whole or not at all. -/
structure FileAccess.Faithful (files : FileAccess (StateM FileSystem)) : Prop where
  readText : ∀ path fs, ((files.readText path).run fs).2 = fs
  isFile : ∀ path fs, ((files.isFile path).run fs).2 = fs
  createDirectories : ∀ path (fs : FileSystem),
    fs.AddsDirectories ((files.createDirectories path).run fs).2
  written : ∀ {path text} {fs after : FileSystem},
    (files.writeText path text).run fs = (.ok (), after) →
      ∃ l, after.find path = .ok (l, .file text) ∧
        fs.entry? l ≠ some .directory ∧ ∀ other, other ≠ l → after.entry? other = fs.entry? other
  refused : ∀ {path text fs after e}, (files.writeText path text).run fs = (.error e, after) →
    after = fs

/-- File systems that are values are accessed in this way. -/
theorem FileSystem.access_faithful : FileSystem.access.Faithful where
  readText _ _ := rfl
  isFile _ _ := rfl
  createDirectories path fs := addsDirectories_createDirectories fs path
  written {path text fs after} h := by
    rw [access_writeText] at h
    split at h
    · cases h
      obtain ⟨l, hfind, hwrites, hput⟩ := find_of_writeText (by assumption)
      exact ⟨l, hfind, hwrites.was, fun other hother => hput ▸ entry?_put_of_ne fs _ hother⟩
    · cases h
  refused {path text fs after e} h := by
    rw [access_writeText] at h
    split at h
    · cases h
    · cases h
      rfl

end CiPipelines
