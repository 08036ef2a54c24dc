import RenderMemo.Proofs.Runs

open List

namespace RenderMemo.Command

variable {t : Toolchain} {o : Options} {c : Config} {fs start : FileSystem}

-- Why the options of a run cannot be put together.
inductive Refusal (o : Options) (fs : FileSystem) : Failure → Prop
  | unreadable {path : String} {fault : FileFault} (h : o.config = some path)
    (hread : fs.read path = .error fault) : Refusal o fs [.readingConfig path, .file fault]
  | malformed {path text : String} {fault : Json.Fault} (h : o.config = some path)
    (hread : fs.read path = .ok text) (htext : Settings.ofText? text = .error fault) :
    Refusal o fs [.parsingConfig path, .json fault]
  | invalid {settings : Settings} {e : ConfigError} (h : fileSettings o fs = .ok settings)
    (hvalidate : (o.override settings).validate = .error e) : Refusal o fs [.invalidConfig, .config e]

theorem fileSettings_cases (o : Options) (fs : FileSystem) :
    (∃ settings, fileSettings o fs = .ok settings) ∨
      ∃ failure, fileSettings o fs = .error failure ∧ Refusal o fs failure := by
  cases hconfig : o.config
  case none => exact .inl ⟨{}, by simp [fileSettings, hconfig]⟩
  case some path =>
    cases hread : fs.read path
    case error fault => exact .inr ⟨_, by simp [fileSettings, hconfig, hread], .unreadable hconfig hread⟩
    case ok text =>
      cases htext : Settings.ofText? text
      case error fault =>
        exact .inr ⟨_, by simp [fileSettings, hconfig, hread, htext], .malformed hconfig hread htext⟩
      case ok settings => exact .inl ⟨settings, by simp [fileSettings, hconfig, hread, htext]⟩

theorem loadConfig_of_settings {settings : Settings} (h : fileSettings o fs = .ok settings) :
    loadConfig o fs = (o.override settings).validate.mapError fun e => [.invalidConfig, .config e] := by
  rw [loadConfig, h]
  cases hvalidate : (o.override settings).validate <;> simp only [bind, Except.bind, hvalidate] <;> rfl

theorem loadConfig_of_not_settings {failure : Failure} (h : fileSettings o fs = .error failure) :
    loadConfig o fs = .error failure := by
  rw [loadConfig, h]
  rfl

theorem loadConfig_eq_error_iff {failure : Failure} :
    loadConfig o fs = .error failure ↔ Refusal o fs failure := by
  constructor
  case mp =>
    intro h
    rcases fileSettings_cases o fs with ⟨settings, hsettings⟩ | ⟨_, hfailure, hrefusal⟩
    · rw [loadConfig_of_settings hsettings] at h
      cases hvalidate : (o.override settings).validate
      case ok =>
        rw [hvalidate] at h
        cases h
      case error e =>
        rw [hvalidate] at h
        cases h
        exact .invalid hsettings hvalidate
    · rw [loadConfig_of_not_settings hfailure] at h
      cases h
      exact hrefusal
  case mpr =>
    rintro (⟨h, hread⟩ | ⟨h, hread, htext⟩ | ⟨hsettings, hvalidate⟩)
    · exact loadConfig_of_not_settings <| by simp [fileSettings, h, hread]
    · exact loadConfig_of_not_settings <| by simp [fileSettings, h, hread, htext]
    · rw [loadConfig_of_settings hsettings, hvalidate]
      rfl

-- What source files change, they leave there as an output of one of them.
theorem filesAfter_changes {paths : List String} {place : List String}
    (h : FileSystem.entry? (filesAfter t o c fs paths) place ≠ fs.entry? place) :
    ∃ path now outDir name done, (path, now) ∈ turns t o c fs paths ∧ Writes t o c now path outDir name done ∧
      (filesAfter t o c fs paths).locate (Path.join outDir name) = .ok place ∧
      ∃ text, FileSystem.entry? (filesAfter t o c fs paths) place = some (.file (some text)) := by
  induction paths generalizing fs
  case nil => exact absurd rfl h
  case cons path paths hi =>
    have hrest : filesAfter t o c fs (path :: paths) =
        filesAfter t o c (processFile t o c fs path).files paths :=
      rfl
    rw [hrest] at h ⊢
    by_cases hlater :
      FileSystem.entry? (filesAfter t o c (processFile t o c fs path).files paths) place =
        (processFile t o c fs path).files.entry? place
    case neg =>
      have ⟨path, now, outDir, name, done, hturn, hwrites⟩ := hi hlater
      exact ⟨path, now, outDir, name, done, mem_cons_of_mem _ hturn, hwrites⟩
    case pos =>
      rw [hlater] at h ⊢
      rcases processFile_cases t o c fs path with ⟨hsame, _⟩ | ⟨outDir, name, done, hwrites⟩
      · exact absurd (by rw [hsame]) h
      · have ⟨q, _, hlocate, _, hentry⟩ := hwrites.exists_place
        have hq : place = q := by
          by_contra hne
          exact h <| (hentry place).trans (if_neg hne)
        subst hq
        refine ⟨path, fs, outDir, name, done, mem_cons_self, hwrites, ?_, done.code, ?_⟩
        · exact (filesAfter_extends paths).locate hlocate
        · exact (hentry place).trans (if_pos rfl)

-- A source file is read and parsed at its turn, not just to be listed.
def Succeeds (t : Toolchain) (o : Options) (fs : FileSystem) (path : String) : Prop :=
  o.list = false ∧ ∃ c start now source program, Begins o fs c start ∧ (path, now) ∈ turns t o c start o.files ∧
    now.read path = .ok source ∧ t.parse path source = .ok program

theorem Writes.succeeded {now : FileSystem} {path outDir name : String} {done : Transformed}
    (h : Writes t o c now path outDir name done) (hbegins : Begins o fs c start)
    (hturn : (path, now) ∈ turns t o c start o.files) : Succeeds t o fs path := by
  have ⟨source, program, hread, hparse⟩ := exists_attempt_iff.mp ⟨done, h.succeeds⟩
  exact ⟨h.transforms, c, start, now, source, program, hbegins, hturn, hread, hparse⟩

-- A directory that was not there, and that is the output directory or above it.
structure MadeDirectory (before after : FileSystem) (outDir : String) (place : List String) : Prop where
  missing : before.entry? place = none
  made    : after.entry? place = some .directory
  above   : ∃ path ∈ outDir :: Path.ancestors outDir, after.locate path = .ok place

-- A file in the output directory under the name of a source file that was read and parsed.
structure MadeOutput (t : Toolchain) (o : Options) (before after : FileSystem) (outDir : String)
    (place : List String) : Prop where
  isFile : ∃ text, after.entry? place = some (.file (some text))
  source : ∃ path ∈ o.files, Succeeds t o before path ∧
    ∃ name, Path.fileName? path = some name ∧ after.locate (Path.join outDir name) = .ok place

-- Everything that a run leaves on disk.
structure Framed (t : Toolchain) (o : Options) (fs : FileSystem) : Prop where
  -- These runs end before any source file: their outcomes hang on none, and on no tool.
  schema    : o.printSchema = true → run t o fs = ⟨none, Settings.schemaText ++ "\n", [], fs⟩
  refused   :
    o.printSchema = false → ∀ failure, Refusal o fs failure → run t o fs = ⟨some failure, "", [], fs⟩
  refusals  : ∀ failure, loadConfig o fs = .error failure ↔ Refusal o fs failure
  unasked   : o.outDir = none → (run t o fs).files = fs
  changes   :
    ∀ place, (run t o fs).files.entry? place ≠ fs.entry? place → ∃ outDir, o.outDir = some outDir ∧
      (MadeDirectory fs (run t o fs).files outDir place ∨ MadeOutput t o fs (run t o fs).files outDir place)
  -- A file of a name is only touched for the sake of a source file of that name.
  outputs   :
    ∀ outDir name place text, o.outDir = some outDir → Path.IsName name →
      (run t o fs).files.locate (Path.join outDir name) = .ok place →
      (run t o fs).files.entry? place = some (.file text) → fs.entry? place ≠ some (.file text) →
      ∃ path ∈ o.files, Path.fileName? path = some name ∧ Succeeds t o fs path
  -- No way is blocked, and no directory is lost.
  ways      : fs.Extends (run t o fs).files

theorem run_extends (t : Toolchain) (o : Options) (fs : FileSystem) : fs.Extends (run t o fs).files := by
  have ⟨start, hmakes, hfiles⟩ := exists_start t o fs
  rcases hfiles with hfiles | ⟨c, _, hfiles⟩
  · exact hfiles ▸ hmakes.ways
  · exact hfiles ▸ hmakes.ways.trans (filesAfter_extends o.files)

theorem run_changes {place : List String} (h : (run t o fs).files.entry? place ≠ fs.entry? place) :
    ∃ outDir, o.outDir = some outDir ∧ (MadeDirectory fs (run t o fs).files outDir place ∨
      MadeOutput t o fs (run t o fs).files outDir place) := by
  have ⟨start, hmakes, hfiles⟩ := exists_start t o fs
  by_cases hlater : (run t o fs).files.entry? place = start.entry? place
  case pos =>
    have hways : start.Extends (run t o fs).files := by
      rcases hfiles with hfiles | ⟨c, _, hfiles⟩
      · exact hfiles ▸ .refl start
      · exact hfiles ▸ filesAfter_extends o.files
    have ⟨hmissing, hmade, path, hpath, hlocate⟩ := hmakes.made place (hlater ▸ h)
    have ⟨outDir, hdir, hpath⟩ := mem_flatMap.mp hpath
    refine ⟨outDir, Option.mem_toList.mp hdir, .inl ⟨hmissing, hways.directory place hmade, ?_⟩⟩
    exact ⟨path, hpath, hways.locate hlocate⟩
  case neg =>
    rcases hfiles with hfiles | ⟨c, hbegins, hfiles⟩
    · exact absurd (by rw [hfiles]) hlater
    · rw [hfiles] at hlater ⊢
      have ⟨path, now, outDir, name, done, hturn, hwrites, hlocate, hisFile⟩ := filesAfter_changes hlater
      have ⟨before, after, hpaths, _⟩ := mem_turns_iff.mp hturn
      have hpath : path ∈ o.files := hpaths ▸ mem_append_right before mem_cons_self
      refine ⟨outDir, hwrites.asked, .inr ⟨hisFile, path, hpath, ?_⟩⟩
      exact ⟨hwrites.succeeded hbegins hturn, name, hwrites.named, hlocate⟩

theorem run_outputs {outDir name : String} {place : List String} {text : Option String}
    (hdir : o.outDir = some outDir) (hname : Path.IsName name)
    (hlocate : (run t o fs).files.locate (Path.join outDir name) = .ok place)
    (hfile : (run t o fs).files.entry? place = some (.file text))
    (h : fs.entry? place ≠ some (.file text)) :
    ∃ path ∈ o.files, Path.fileName? path = some name ∧ Succeeds t o fs path := by
  have ⟨outDir', hdir', hmade⟩ := run_changes (t := t) (o := o) fun heq => h (heq ▸ hfile)
  cases hdir.symm.trans hdir'
  rcases hmade with hmade | ⟨_, path, hpath, hsucceeds, name', hname', hlocate'⟩
  · cases hfile.symm.trans hmade.made
  · have ⟨above, _, _, hplace⟩ := (FileSystem.locate_join hname).mp hlocate
    have ⟨above', _, _, hplace'⟩ :=
      (FileSystem.locate_join <| Path.isName_of_fileName? hname').mp hlocate'
    have heq : name = name' := by simpa using (append_inj' (hplace.symm.trans hplace') rfl).2
    exact ⟨path, hpath, heq ▸ hname', hsucceeds⟩

theorem run_of_unasked (h : o.outDir = none) : (run t o fs).files = fs := by
  have hruns := run_runs t o fs
  generalize run t o fs = done at hruns
  cases hruns
  case schema  => rfl
  case refused => rfl
  case blocked hdir _ => cases h.symm.trans hdir
  case began c start hbegins =>
    rw [runFiles_files, filesAfter_of_unasked h, hbegins.start_of_unasked h]

-- A run changes nothing on disk but what it is asked to make.
theorem framed (t : Toolchain) (fs : FileSystem) :
    (∀ o, Framed t o fs) ∧
    ∀ args closing,
      (∃ o, Options.ofArgs args = .ok o ∧ (session t args closing fs).files = (run t o fs).files) ∨
      ∃ e, Options.ofArgs args = .error e ∧ (session t args closing fs).files = fs := by
  refine ⟨fun o => ?_, fun args closing => ?_⟩
  case refine_1 =>
    refine ⟨fun h => ?_, fun hschema failure h => ?_, fun _ => loadConfig_eq_error_iff, run_of_unasked,
      fun _ => run_changes, fun _ _ _ _ => run_outputs, run_extends t o fs⟩
    · rw [run, if_pos h]
    · simp [run, hschema, loadConfig_eq_error_iff.mpr h]
  case refine_2 =>
    cases hargs : Options.ofArgs args
    case ok o =>
      refine .inl ⟨o, rfl, ?_⟩
      rw [session, hargs]
      rfl
    case error e =>
      refine .inr ⟨e, rfl, ?_⟩
      rw [session, hargs]
      cases e <;> rfl

end RenderMemo.Command
