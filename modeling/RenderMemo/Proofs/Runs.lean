import RenderMemo.Command.Run
import RenderMemo.Proofs.Files

open List

namespace RenderMemo

namespace Toolchain

variable {t : Toolchain} {c : Config} {filename source : String}

theorem transform_of_parse {program : Program} (h : t.parse filename source = .ok program) :
    t.transform filename source c = .ok {
      code := if (program.memoize c).report.isUnchanged then source
        else t.print filename source (program.memoize c).program
      report := (program.memoize c).report
      log := (program.memoize c).log.map fun e =>
        ⟨e.level, e.render (SourceText.ofFile filename source).describe⟩ } := by
  rw [transform, read, h]
  rfl

theorem transform_of_not_parse {reason : String} (h : t.parse filename source = .error reason) :
    t.transform filename source c = .error ⟨filename, reason⟩ := by
  rw [transform, read, h]
  rfl

theorem exists_transform_iff :
    (∃ done, t.transform filename source c = .ok done) ↔ ∃ program, t.parse filename source = .ok program := by
  cases h : t.parse filename source
  case error => simp [transform_of_not_parse h]
  case ok    => simp [transform_of_parse h]

-- Tools for comments, which make programs without items. A function that breaks off is refused.
def ofComments : Toolchain where
  parse _ source :=
    if source = "function (" then .error "Expected ident" else .ok { kind := .script, body := [] }
  print _ source _ := source

end Toolchain

namespace Command

variable {t : Toolchain} {o : Options} {c : Config} {fs start now : FileSystem} {path : String}

-- What comes of a source file that is not just listed, before it is put anywhere. Of the file system,
-- this sees the contents of the file alone.
def attempt (t : Toolchain) (c : Config) (path : String) (contents : Except FileFault String) :
    Except Failure Transformed :=
  match contents with
  | .error fault => .error [.readingSource path, .file fault]
  | .ok source =>
    match t.transform path source c with
    | .error e => .error [.transforming path, .parsing e]
    | .ok done => .ok done

theorem attempt_eq_ok_iff {contents : Except FileFault String} {done : Transformed} :
    attempt t c path contents = .ok done ↔
      ∃ source, contents = .ok source ∧ t.transform path source c = .ok done := by
  cases contents
  case error => simp [attempt]
  case ok source => cases h : t.transform path source c <;> simp [attempt, h]

-- It fails unless the file is read and parsed.
theorem exists_attempt_iff {contents : Except FileFault String} :
    (∃ done, attempt t c path contents = .ok done) ↔
      ∃ source program, contents = .ok source ∧ t.parse path source = .ok program := by
  simp only [attempt_eq_ok_iff]
  rw [exists_comm]
  refine exists_congr fun source => ?_
  rw [exists_and_left, exists_and_left, Toolchain.exists_transform_iff]

theorem processFile_of_list (h : o.list = true) : (processFile t o c fs path).files = fs := by
  rw [processFile]
  split
  case h_1 => rfl
  case h_2 =>
    rw [if_pos h]
    split <;> rfl

theorem processFile_of_error {failure : Failure} (hlist : o.list = false)
    (h : attempt t c path (fs.read path) = .error failure) :
    processFile t o c fs path = ⟨.failed failure, [], fs⟩ := by
  rw [processFile]
  cases hread : fs.read path
  case error => simp_all [attempt]
  case ok source => cases htransform : t.transform path source c <;> simp_all [attempt]

theorem processFile_of_ok {done : Transformed} (hlist : o.list = false)
    (h : attempt t c path (fs.read path) = .ok done) :
    processFile t o c fs path =
      ⟨(place o fs path done.code done.report).1, done.log, (place o fs path done.code done.report).2⟩ := by
  have ⟨source, hread, htransform⟩ := attempt_eq_ok_iff.mp h
  simp [processFile, hread, hlist, htransform]

-- All that may become of a transformed source.
inductive Placed (o : Options) (fs : FileSystem) (path code : String) (report : Report) :
    FileResult × FileSystem → Prop
  | printed (h : o.outDir = none) : Placed o fs path code report (.printed code report, fs)
  | nameless {outDir : String} (h : o.outDir = some outDir) (hname : Path.fileName? path = none) :
    Placed o fs path code report (.failed [.noFileName path], fs)
  | unwritten {outDir name : String} {fault : FileFault} (h : o.outDir = some outDir)
    (hname : Path.fileName? path = some name)
    (hwrite : fs.write (Path.join outDir name) code = .error fault) :
    Placed o fs path code report (.failed [.writing (Path.join outDir name), .file fault], fs)
  | written {outDir name : String} {after : FileSystem} (h : o.outDir = some outDir)
    (hname : Path.fileName? path = some name)
    (hwrite : fs.write (Path.join outDir name) code = .ok after) :
    Placed o fs path code report (.written (Path.join outDir name) report, after)

theorem place_placed (o : Options) (fs : FileSystem) (path code : String) (report : Report) :
    Placed o fs path code report (place o fs path code report) := by
  rw [place]
  split
  case h_1 h => exact .printed h
  case h_2 outDir h =>
    split
    case h_1 hname => exact .nameless h hname
    case h_2 name hname =>
      dsimp only
      split
      case h_1 hwrite => exact .written h hname hwrite
      case h_2 hwrite => exact .unwritten h hname hwrite

-- A source file is written at its turn: it is read and parsed, it has a name, and its code is put under
-- that name.
structure Writes (t : Toolchain) (o : Options) (c : Config) (now : FileSystem) (path outDir name : String)
    (done : Transformed) : Prop where
  transforms : o.list = false
  asked      : o.outDir = some outDir
  named      : Path.fileName? path = some name
  succeeds   : attempt t c path (now.read path) = .ok done
  write      : now.write (Path.join outDir name) done.code = .ok (processFile t o c now path).files
  result     : (processFile t o c now path).result = .written (Path.join outDir name) done.report

-- Nothing else changes the file system, and nothing else is a success where an output is to be written.
theorem processFile_cases (t : Toolchain) (o : Options) (c : Config) (now : FileSystem) (path : String) :
    ((processFile t o c now path).files = now ∧
      (o.list = false → o.outDir ≠ none → (processFile t o c now path).result.isFailed = true)) ∨
    ∃ outDir name done, Writes t o c now path outDir name done := by
  cases hlist : o.list
  case true => exact .inl ⟨processFile_of_list hlist, nofun⟩
  case false =>
    cases hdone : attempt t c path (now.read path)
    case error =>
      have hfile := processFile_of_error hlist hdone
      exact .inl ⟨by rw [hfile], fun _ _ => by rw [hfile]; rfl⟩
    case ok done =>
      have hfile := processFile_of_ok hlist hdone
      have hplaced := place_placed o now path done.code done.report
      generalize place o now path done.code done.report = placed at hfile hplaced
      cases hplaced
      case printed h => exact .inl ⟨by rw [hfile], fun _ hdir => absurd h hdir⟩
      case nameless  => exact .inl ⟨by rw [hfile], fun _ _ => by rw [hfile]; rfl⟩
      case unwritten => exact .inl ⟨by rw [hfile], fun _ _ => by rw [hfile]; rfl⟩
      case written outDir name after h hname hwrite =>
        refine .inr ⟨outDir, name, done, hlist, h, hname, hdone, ?_, ?_⟩
        case refine_1 =>
          rw [hfile]
          exact hwrite
        case refine_2 => rw [hfile]

theorem exists_writes {outDir : String} (hlist : o.list = false) (hdir : o.outDir = some outDir)
    (h : (processFile t o c now path).result.isFailed = false) :
    ∃ name done, Writes t o c now path outDir name done := by
  rcases processFile_cases t o c now path with ⟨_, hfailed⟩ | ⟨outDir', name, done, hwrites⟩
  · have hdir' : o.outDir ≠ none := fun hnone => nomatch hdir.symm.trans hnone
    cases h.symm.trans (hfailed hlist hdir')
  · cases hdir.symm.trans hwrites.asked
    exact ⟨name, done, hwrites⟩

theorem processFile_extends (t : Toolchain) (o : Options) (c : Config) (now : FileSystem) (path : String) :
    now.Extends (processFile t o c now path).files := by
  rcases processFile_cases t o c now path with ⟨h, _⟩ | ⟨_, _, _, h⟩
  · rw [h]
    exact .refl now
  · exact FileSystem.write_extends h.write

-- The output stands where the directory and the name lead, and all else stays as it is.
theorem Writes.exists_place {outDir name : String} {done : Transformed}
    (h : Writes t o c now path outDir name done) :
    ∃ place above, (processFile t o c now path).files.locate (Path.join outDir name) = .ok place ∧
      place = above ++ [name] ∧
      ∀ q, (processFile t o c now path).files.entry? q =
        if q = place then some (.file (some done.code)) else now.entry? q := by
  have ⟨place, hlocate, hentry, hfiles⟩ := FileSystem.write_eq_ok_iff.mp h.write
  have ⟨above, _, _, habove⟩ := (FileSystem.locate_join <| Path.isName_of_fileName? h.named).mp hlocate
  refine ⟨place, above, (processFile_extends t o c now path).locate hlocate, habove, fun q => ?_⟩
  rw [hfiles]
  exact FileSystem.entry?_put (FileSystem.ne_root hentry) q

theorem Writes.of_write {outDir name : String} {done : Transformed} {files : FileSystem}
    (hlist : o.list = false) (hdir : o.outDir = some outDir) (hname : Path.fileName? path = some name)
    (hdone : attempt t c path (now.read path) = .ok done)
    (hwrite : now.write (Path.join outDir name) done.code = .ok files) :
    Writes t o c now path outDir name done ∧ (processFile t o c now path).files = files := by
  have hplace : place o now path done.code done.report =
      (.written (Path.join outDir name) done.report, files) := by
    simp [place, hdir, hname, hwrite]
  have hfile := processFile_of_ok hlist hdone
  rw [hplace] at hfile
  refine ⟨⟨hlist, hdir, hname, hdone, ?_, ?_⟩, ?_⟩
  case refine_1 =>
    rw [hfile]
    exact hwrite
  case refine_2 => rw [hfile]
  case refine_3 => rw [hfile]

-- A file under a name is only touched by source files of that name.
theorem processFile_entry?_of_ne {name : String} (above : List String) (h : Path.fileName? path ≠ some name) :
    (processFile t o c now path).files.entry? (above ++ [name]) = now.entry? (above ++ [name]) := by
  rcases processFile_cases t o c now path with ⟨hsame, _⟩ | ⟨_, name', _, hwrites⟩
  · rw [hsame]
  · have ⟨_, above', _, hplace, hentry⟩ := hwrites.exists_place
    refine (hentry _).trans <| if_neg fun heq => h ?_
    have hname : name = name' := by simpa using (append_inj' (heq.trans hplace) rfl).2
    exact hname ▸ hwrites.named

-- The file system behind some source files.
def filesAfter (t : Toolchain) (o : Options) (c : Config) (fs : FileSystem) (paths : List String) : FileSystem :=
  paths.foldl (fun fs path => (processFile t o c fs path).files) fs

theorem filesAfter_append {paths₁ paths₂ : List String} :
    filesAfter t o c fs (paths₁ ++ paths₂) = filesAfter t o c (filesAfter t o c fs paths₁) paths₂ :=
  foldl_append

theorem filesAfter_extends (paths : List String) : fs.Extends (filesAfter t o c fs paths) := by
  induction paths generalizing fs
  case nil              => exact .refl fs
  case cons path _ hi => exact (processFile_extends t o c fs path).trans hi

theorem filesAfter_entry?_of_ne {name : String} {paths : List String} (above : List String)
    (h : ∀ path ∈ paths, Path.fileName? path ≠ some name) :
    FileSystem.entry? (filesAfter t o c fs paths) (above ++ [name]) = fs.entry? (above ++ [name]) := by
  induction paths generalizing fs
  case nil => rfl
  case cons path paths hi =>
    have ⟨hpath, hpaths⟩ := forall_mem_cons.mp h
    exact (hi hpaths).trans <| processFile_entry?_of_ne above hpath

-- An output stays as it was written, unless a later source file has the same name.
theorem Writes.read_filesAfter {outDir name : String} {done : Transformed} {later : List String}
    (h : Writes t o c now path outDir name done) (hlater : ∀ path ∈ later, Path.fileName? path ≠ some name) :
    (filesAfter t o c (processFile t o c now path).files later).read (Path.join outDir name) = .ok done.code := by
  have ⟨place, above, hlocate, habove, hentry⟩ := h.exists_place
  refine FileSystem.read_eq_ok_iff.mpr ⟨place, (filesAfter_extends later).locate hlocate, ?_⟩
  rw [habove, filesAfter_entry?_of_ne above hlater, ← habove, hentry, if_pos rfl]

-- The source files with the file systems in which they find themselves at their turns.
def turns (t : Toolchain) (o : Options) (c : Config) : FileSystem → List String → List (String × FileSystem)
  | _, [] => []
  | fs, path :: paths => (path, fs) :: turns t o c (processFile t o c fs path).files paths

theorem mem_turns_iff {paths : List String} :
    (path, now) ∈ turns t o c fs paths ↔
      ∃ before after, paths = before ++ path :: after ∧ now = filesAfter t o c fs before := by
  induction paths generalizing fs
  case nil => simp [turns]
  case cons first paths hi =>
    rw [turns, mem_cons, hi]
    constructor
    case mp =>
      rintro (h | ⟨before, after, rfl, rfl⟩)
      · cases h
        exact ⟨[], paths, rfl, rfl⟩
      · exact ⟨first :: before, after, rfl, rfl⟩
    case mpr =>
      rintro ⟨before, after, hpaths, rfl⟩
      cases before
      case nil =>
        cases hpaths
        exact .inl rfl
      case cons =>
        cases hpaths
        exact .inr ⟨_, after, rfl, rfl⟩

-- Without an output directory, every source file finds the file system as it was.
theorem processFile_of_unasked (h : o.outDir = none) : (processFile t o c now path).files = now := by
  rcases processFile_cases t o c now path with ⟨hsame, _⟩ | ⟨_, _, _, hwrites⟩
  · exact hsame
  · cases h.symm.trans hwrites.asked

theorem filesAfter_of_unasked (h : o.outDir = none) (paths : List String) : filesAfter t o c fs paths = fs := by
  induction paths
  case nil => rfl
  case cons path paths hi =>
    rw [filesAfter, foldl_cons, processFile_of_unasked h]
    exact hi

theorem turns_of_unasked (h : o.outDir = none) (paths : List String) :
    turns t o c fs paths = paths.map fun path => (path, fs) := by
  induction paths
  case nil             => rfl
  case cons path _ hi => rw [turns, processFile_of_unasked h, hi, map_cons]

theorem processFiles_eq (paths : List String) (fs : FileSystem) :
    processFiles t o c fs paths =
      ((turns t o c fs paths).map fun turn => (turn.1, (processFile t o c turn.2 turn.1).result),
        (turns t o c fs paths).flatMap fun turn => (processFile t o c turn.2 turn.1).log,
        filesAfter t o c fs paths) := by
  induction paths generalizing fs
  case nil => rfl
  case cons path paths hi =>
    simp only [processFiles, hi]
    rfl

theorem runFiles_files : (runFiles t o c start).files = filesAfter t o c start o.files := by
  rw [runFiles, processFiles_eq]

theorem runFiles_failure_eq_none_iff :
    (runFiles t o c start).failure = none ↔
      ∀ turn ∈ turns t o c start o.files, (processFile t o c turn.2 turn.1).result.isFailed = false := by
  rw [runFiles, processFiles_eq]
  simp

-- A run that gets to its source files, with the options and the file system that they meet.
structure Begins (o : Options) (fs : FileSystem) (c : Config) (start : FileSystem) : Prop where
  transforms : o.printSchema = false
  config     : loadConfig o fs = .ok c
  prepared   :
    (o.outDir = none ∧ start = fs) ∨
      ∃ outDir, o.outDir = some outDir ∧ fs.makeDirectories outDir = ⟨start, none⟩

theorem Begins.start_of_unasked (h : Begins o fs c start) (hdir : o.outDir = none) : start = fs := by
  rcases h.prepared with ⟨_, hstart⟩ | ⟨_, hdir', _⟩
  · exact hstart
  · cases hdir.symm.trans hdir'

-- All that a run may come to.
inductive Runs (t : Toolchain) (o : Options) (fs : FileSystem) : RunOutcome → Prop
  | schema (h : o.printSchema = true) : Runs t o fs ⟨none, Settings.schemaText ++ "\n", [], fs⟩
  | refused {failure : Failure} (hschema : o.printSchema = false) (h : loadConfig o fs = .error failure) :
    Runs t o fs ⟨some failure, "", [], fs⟩
  | blocked {c : Config} {outDir : String} {after : FileSystem} {fault : FileFault}
    (hschema : o.printSchema = false) (hconfig : loadConfig o fs = .ok c) (hdir : o.outDir = some outDir)
    (h : fs.makeDirectories outDir = ⟨after, some fault⟩) :
    Runs t o fs ⟨some [.makingOutDir outDir, .file fault], "", [], after⟩
  | began {c : Config} {start : FileSystem} (h : Begins o fs c start) : Runs t o fs (runFiles t o c start)

theorem run_runs (t : Toolchain) (o : Options) (fs : FileSystem) : Runs t o fs (run t o fs) := by
  rw [run]
  split
  case isTrue h => exact .schema h
  case isFalse h =>
    have hschema := Bool.eq_false_iff.mpr h
    split
    case h_1 hconfig => exact .refused hschema hconfig
    case h_2 c hconfig =>
      split
      case h_1 hdir => exact .began ⟨hschema, hconfig, .inl ⟨hdir, rfl⟩⟩
      case h_2 outDir hdir =>
        split
        case h_1 hmake => exact .blocked hschema hconfig hdir hmake
        case h_2 hmake => exact .began ⟨hschema, hconfig, .inr ⟨outDir, hdir, hmake⟩⟩

theorem Begins.run_eq (h : Begins o fs c start) : run t o fs = runFiles t o c start := by
  rw [run, h.transforms, h.config]
  rcases h.prepared with ⟨hdir, rfl⟩ | ⟨outDir, hdir, hmake⟩
  · simp [hdir]
  · simp [hdir, hmake]

-- The directories that a run may have to make.
def Options.directories (o : Options) : List String :=
  o.outDir.toList.flatMap fun outDir => outDir :: Path.ancestors outDir

theorem makes_directories {outDir : String} (h : o.outDir = some outDir) :
    fs.Makes (fs.makeDirectories outDir).files o.directories :=
  (fs.makeDirectories_makes outDir).mono <| by simp [Options.directories, h]

theorem Begins.makes (h : Begins o fs c start) : fs.Makes start o.directories := by
  rcases h.prepared with ⟨_, rfl⟩ | ⟨outDir, hdir, hmake⟩
  · exact .refl start _
  · have hmakes : fs.Makes _ _ := makes_directories hdir
    rw [hmake] at hmakes
    exact hmakes

-- A run makes directories, and then it may get to its source files.
theorem exists_start (t : Toolchain) (o : Options) (fs : FileSystem) :
    ∃ start, fs.Makes start o.directories ∧
      ((run t o fs).files = start ∨
        ∃ c, Begins o fs c start ∧ (run t o fs).files = filesAfter t o c start o.files) := by
  have hruns := run_runs t o fs
  generalize run t o fs = done at hruns
  cases hruns
  case schema        => exact ⟨fs, .refl fs _, .inl rfl⟩
  case refused       => exact ⟨fs, .refl fs _, .inl rfl⟩
  case began c start h => exact ⟨start, h.makes, .inr ⟨c, h, runFiles_files⟩⟩
  case blocked after _ _ _ hdir hmake =>
    have hmakes : fs.Makes _ _ := makes_directories hdir
    rw [hmake] at hmakes
    exact ⟨after, hmakes, .inl rfl⟩

end Command

end RenderMemo
