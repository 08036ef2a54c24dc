import RenderMemo.Proofs.Footprint
import RenderMemo.Proofs.Prelude

open List

namespace RenderMemo

-- A name that is more than blanks.
def IsNamed (name : String) : Prop := ∃ c ∈ name.toList, Text.isBlank c = false

theorem isAllBlank_eq_false_iff {name : String} : Text.isAllBlank name = false ↔ IsNamed name := by
  simp [Text.isAllBlank, IsNamed]

namespace Settings

variable {s : Settings} {d : Draft} {c : Config} {text : String}

-- The members that a text gives, if it is a configuration.
def Gives (text : String) (d : Draft) : Prop :=
  ∃ rest, read text.toList = .ok (d, rest) ∧ Json.dropSpace rest = []

theorem ofText?_eq_ok_iff : ofText? text = .ok s ↔ ∃ d, Gives text d ∧ d.settings = s := by
  rw [ofText?, bind_eq_ok_iff]
  simp only [Prod.exists, Json.atEnd, List.isEmpty_iff, Gives]
  constructor
  case mp =>
    rintro ⟨d, rest, hread, hend⟩
    split at hend
    case isTrue hspace =>
      cases hend
      exact ⟨d, ⟨rest, hread, hspace⟩, rfl⟩
    case isFalse => cases hend
  case mpr =>
    rintro ⟨d, ⟨rest, hread, hspace⟩, rfl⟩
    exact ⟨d, rest, hread, if_pos hspace⟩

theorem validate_eq_ok_iff : s.validate = .ok c ↔ c.settings = s :=
  ⟨settings_of_validate, fun h => h ▸ c.validate_settings⟩

theorem exists_validate_iff : (∃ c, s.validate = .ok c) ↔ 0 < s.cacheSize ∧ IsNamed s.memoizeModule := by
  rw [← isAllBlank_eq_false_iff]
  constructor
  case mp =>
    rintro ⟨c, h⟩
    obtain rfl := settings_of_validate h
    exact ⟨c.cacheSize_pos, c.module_named⟩
  case mpr => exact fun ⟨hsize, hname⟩ => ⟨⟨_, _, _, _, hsize, hname⟩, validate_eq_ok_iff.mpr rfl⟩

-- The size is looked at first.
theorem validate_of_size (h : s.cacheSize = 0) : s.validate = .error (.invalidCacheSize 0) := by
  simp [validate, h]

theorem validate_of_module (h : 0 < s.cacheSize) (hname : ¬IsNamed s.memoizeModule) :
    s.validate = .error .emptyMemoizeModule := by
  rw [← isAllBlank_eq_false_iff] at hname
  simp [validate, h, hname]

end Settings

namespace Command

variable {o : Options} {fs : FileSystem} {d : Settings.Draft} {c : Config}

-- The members that are given in the configuration file of a run. They are none if no file is named, and a
-- file that is named has to be a text that is a configuration.
inductive FileGives (o : Options) (fs : FileSystem) : Settings.Draft → Prop
  | unnamed (h : o.config = none) : FileGives o fs {}
  | named {path text : String} {place : List String} {d : Settings.Draft} (h : o.config = some path)
    (hlocate : fs.locate path = .ok place) (hentry : fs.entry? place = some (.file (some text)))
    (hgives : Settings.Gives text d) : FileGives o fs d

-- What is given on the command line goes before what is given in the file, and that before the default.

def mergedSize (o : Options) (d : Settings.Draft) : UInt64 := (o.cacheSize.or d.cacheSize).getD 500

def mergedModule (o : Options) (d : Settings.Draft) : String :=
  (o.memoizeModule.or d.memoizeModule).getD "lru-memoize"

def mergedStyle (o : Options) (d : Settings.Draft) : ImportStyle :=
  (o.importStyle.or d.importStyle).getD .require

structure Merges (o : Options) (d : Settings.Draft) (c : Config) : Prop where
  cacheSize      : c.cacheSize = mergedSize o d
  memoizeModule  : c.memoizeModule = mergedModule o d
  importStyle    : c.importStyle = mergedStyle o d
  dedupeCaptures : c.dedupeCaptures ↔ o.dedupeCaptures ∨ d.dedupeCaptures = some true

theorem override_settings (o : Options) (d : Settings.Draft) :
    o.override d.settings = ⟨mergedSize o d, mergedModule o d, mergedStyle o d,
      o.dedupeCaptures || d.dedupeCaptures.getD false⟩ := by
  simp [Options.override, Settings.Draft.settings, mergedSize, mergedModule, mergedStyle, Option.getD_or]

theorem merges_iff : Merges o d c ↔ c.settings = o.override d.settings := by
  have hflag : (o.dedupeCaptures || d.dedupeCaptures.getD false) = true ↔
      o.dedupeCaptures ∨ d.dedupeCaptures = some true := by
    cases d.dedupeCaptures <;> simp
  rw [override_settings, Config.settings, Settings.mk.injEq, Bool.eq_iff_iff, hflag]
  constructor
  case mp  => exact fun h => ⟨h.cacheSize, h.memoizeModule, h.importStyle, h.dedupeCaptures⟩
  case mpr => exact fun h => ⟨h.1, h.2.1, h.2.2.1, h.2.2.2⟩

theorem FileGives.fileSettings (h : FileGives o fs d) : fileSettings o fs = .ok d.settings := by
  cases h
  case unnamed h => simp [Command.fileSettings, h, Settings.Draft.settings]
  case named path text place h hlocate hentry hgives =>
    have hread : fs.read path = .ok text := FileSystem.read_eq_ok_iff.mpr ⟨place, hlocate, hentry⟩
    have htext := Settings.ofText?_eq_ok_iff.mpr ⟨d, hgives, rfl⟩
    simp [Command.fileSettings, h, hread, htext]

theorem exists_fileGives {s : Settings} (h : fileSettings o fs = .ok s) :
    ∃ d, FileGives o fs d ∧ d.settings = s := by
  cases hconfig : o.config
  case none =>
    rw [fileSettings, hconfig] at h
    exact ⟨{}, .unnamed hconfig, Except.ok.inj h⟩
  case some path =>
    cases hread : fs.read path
    case error fault => simp [fileSettings, hconfig, hread] at h
    case ok text =>
      cases htext : Settings.ofText? text
      case error fault => simp [fileSettings, hconfig, hread, htext] at h
      case ok settings =>
        obtain ⟨place, hlocate, hentry⟩ := FileSystem.read_eq_ok_iff.mp hread
        obtain ⟨d, hgives, hsettings⟩ := Settings.ofText?_eq_ok_iff.mp htext
        refine ⟨d, .named hconfig hlocate hentry hgives, hsettings.trans ?_⟩
        simpa [fileSettings, hconfig, hread, htext] using h

theorem FileGives.loadConfig_eq (h : FileGives o fs d) :
    loadConfig o fs = (o.override d.settings).validate.mapError fun e => [.invalidConfig, .config e] :=
  loadConfig_of_settings h.fileSettings

theorem FileGives.loadConfig_eq_ok_iff (h : FileGives o fs d) : loadConfig o fs = .ok c ↔ Merges o d c := by
  rw [h.loadConfig_eq, merges_iff, ← Settings.validate_eq_ok_iff]
  cases (o.override d.settings).validate <;> simp [Except.mapError]

theorem FileGives.exists_loadConfig (h : FileGives o fs d) (hsize : 0 < mergedSize o d)
    (hname : IsNamed (mergedModule o d)) : ∃ c, loadConfig o fs = .ok c := by
  have hvalid : 0 < (o.override d.settings).cacheSize ∧ IsNamed (o.override d.settings).memoizeModule := by
    rw [override_settings]
    exact ⟨hsize, hname⟩
  have ⟨c, hc⟩ := Settings.exists_validate_iff.mpr hvalid
  exact ⟨c, h.loadConfig_eq_ok_iff.mpr <| merges_iff.mpr <| Settings.validate_eq_ok_iff.mp hc⟩

theorem exists_merges (h : loadConfig o fs = .ok c) : ∃ d, FileGives o fs d ∧ Merges o d c := by
  rcases fileSettings_cases o fs with ⟨settings, hsettings⟩ | ⟨failure, hfailure, _⟩
  · have ⟨d, hgives, _⟩ := exists_fileGives hsettings
    exact ⟨d, hgives, hgives.loadConfig_eq_ok_iff.mp h⟩
  · rw [loadConfig_of_not_settings hfailure] at h
    cases h

-- How the options of a run are put together.
structure Loads (o : Options) (fs : FileSystem) : Prop where
  loaded         : ∀ c, loadConfig o fs = .ok c ↔ ∃ d, FileGives o fs d ∧ Merges o d c
  accepted       :
    (∃ c, loadConfig o fs = .ok c) ↔
      ∃ d, FileGives o fs d ∧ 0 < mergedSize o d ∧ IsNamed (mergedModule o d)
  -- What is replaced need not be valid,
  sizeReplaced   :
    ∀ d size, FileGives o fs d → o.cacheSize = some size → 0 < size → IsNamed (mergedModule o d) →
      ∃ c, loadConfig o fs = .ok c ∧ c.cacheSize = size
  moduleReplaced :
    ∀ d name, FileGives o fs d → o.memoizeModule = some name → 0 < mergedSize o d → IsNamed name →
      ∃ c, loadConfig o fs = .ok c ∧ c.memoizeModule = name
  -- but a file that is named is read in any case.
  unreadable     :
    ∀ path fault, o.config = some path → fs.read path = .error fault →
      loadConfig o fs = .error [.readingConfig path, .file fault]
  malformed      :
    ∀ path text fault, o.config = some path → fs.read path = .ok text → Settings.ofText? text = .error fault →
      loadConfig o fs = .error [.parsingConfig path, .json fault]
  -- What is in force has to be valid, wherever it comes from, and the size is looked at first.
  badSize        :
    ∀ d, FileGives o fs d → mergedSize o d = 0 →
      loadConfig o fs = .error [.invalidConfig, .config (.invalidCacheSize 0)]
  badModule      :
    ∀ d, FileGives o fs d → 0 < mergedSize o d → ¬IsNamed (mergedModule o d) →
      loadConfig o fs = .error [.invalidConfig, .config .emptyMemoizeModule]

theorem merges (o : Options) (fs : FileSystem) : Loads o fs where
  loaded c := ⟨exists_merges, fun ⟨_, hgives, hmerges⟩ => hgives.loadConfig_eq_ok_iff.mpr hmerges⟩
  accepted := by
    constructor
    case mp =>
      rintro ⟨c, h⟩
      have ⟨d, hgives, hmerges⟩ := exists_merges h
      have hname : IsNamed c.memoizeModule := isAllBlank_eq_false_iff.mp c.module_named
      exact ⟨d, hgives, hmerges.cacheSize ▸ c.cacheSize_pos, hmerges.memoizeModule ▸ hname⟩
    case mpr => exact fun ⟨d, hgives, hsize, hname⟩ => hgives.exists_loadConfig hsize hname
  sizeReplaced d size hgives hflag hsize hname := by
    have heq : mergedSize o d = size := by simp [mergedSize, hflag]
    have ⟨c, hc⟩ := hgives.exists_loadConfig (heq ▸ hsize) hname
    exact ⟨c, hc, (hgives.loadConfig_eq_ok_iff.mp hc).cacheSize.trans heq⟩
  moduleReplaced d name hgives hflag hsize hname := by
    have heq : mergedModule o d = name := by simp [mergedModule, hflag]
    have ⟨c, hc⟩ := hgives.exists_loadConfig hsize (heq ▸ hname)
    exact ⟨c, hc, (hgives.loadConfig_eq_ok_iff.mp hc).memoizeModule.trans heq⟩
  unreadable path fault hconfig hread := loadConfig_of_not_settings <| by simp [fileSettings, hconfig, hread]
  malformed path text fault hconfig hread htext :=
    loadConfig_of_not_settings <| by simp [fileSettings, hconfig, hread, htext]
  badSize d hgives hsize := by
    rw [hgives.loadConfig_eq, Settings.validate_of_size (by rw [override_settings, hsize])]
    rfl
  badModule d hgives hsize hname := by
    rw [hgives.loadConfig_eq, Settings.validate_of_module (by rwa [override_settings])
      (by rwa [override_settings])]
    rfl

end Command

end RenderMemo
