import RenderMemo.Proofs.Prelude
import RenderMemo.Proofs.Progress
import RenderMemo.Proofs.Runs

open List

namespace RenderMemo

variable {c : Config}

-- The messages of a transform are no errors.
theorem Program.level_ne_error {p : Program} : ∀ e ∈ (p.memoize c).log, e.level ≠ .error := by
  have hwarn : Level.warn ≠ .error := by decide
  have hdebug : Level.debug ≠ .error := by decide
  have hwarnings : ∀ e ∈ p.warnings c, e.level ≠ .error := by
    rw [warnings]
    split
    case isTrue  => exact forall_mem_singleton.mpr hwarn
    case isFalse => exact forall_mem_nil _
  rw [log_eq, forall_mem_append, forall_mem_append]
  exact ⟨⟨forall_mem_map.mpr fun _ _ => hdebug, hwarnings⟩, forall_mem_singleton.mpr hdebug⟩

theorem Toolchain.level_ne_error {t : Toolchain} {filename source : String} {done : Transformed}
    (h : t.transform filename source c = .ok done) : ∀ line ∈ done.log, line.level ≠ .error := by
  cases hparse : t.parse filename source
  case error =>
    rw [transform_of_not_parse hparse] at h
    cases h
  case ok p =>
    rw [transform_of_parse hparse] at h
    cases h
    exact forall_mem_map.mpr Program.level_ne_error

section

variable {level : Level}

theorem linesAt_append (log₁ log₂ : List LogLine) :
    linesAt level (log₁ ++ log₂) = linesAt level log₁ ++ linesAt level log₂ := by
  simp [linesAt]

theorem linesAt_flatMap {α : Type} (xs : List α) (f : α → List LogLine) :
    linesAt level (xs.flatMap f) = xs.flatMap fun x => linesAt level (f x) := by
  simp [linesAt, filter_flatMap, map_flatMap]

theorem linesAt_eq_nil {log : List LogLine} (h : ∀ line ∈ log, line.level ≠ level) : linesAt level log = [] := by
  rw [linesAt, map_eq_nil_iff, filter_eq_nil_iff]
  exact fun line hline => by simpa using h line hline

end

namespace Command

variable {t : Toolchain} {o : Options} {fs : FileSystem} {path : String}

def heading (several : Bool) (path : String) : String :=
  if several then "// " ++ path ++ "\n" else ""

-- What is printed for a source file with some contents, if it comes to something.
def emission? (t : Toolchain) (c : Config) (several : Bool) (path : String)
    (contents : Except FileFault String) : Option String :=
  (attempt t c path contents).toOption.map fun done =>
    heading several path ++ Text.dropBlankEnd done.code ++ "\n"

-- What is said about a source file with some contents, if it fails.
def complaint? (t : Toolchain) (c : Config) (path : String) (contents : Except FileFault String) :
    Option String :=
  match attempt t c path contents with
  | .ok _ => none
  | .error failure => some failure.message

-- A run that prints what its source files come to.
structure Prints (o : Options) (fs : FileSystem) (c : Config) : Prop where
  begins     : Begins o fs c fs
  transforms : o.list = false
  unasked    : o.outDir = none

theorem Prints.of_loadConfig (hschema : o.printSchema = false) (hlist : o.list = false) (hdir : o.outDir = none)
    (h : loadConfig o fs = .ok c) : Prints o fs c where
  begins     := ⟨hschema, h, .inl ⟨hdir, rfl⟩⟩
  transforms := hlist
  unasked    := hdir

-- The result of a source file that is printed, and the messages on the way to it.
structure PrintedAs (t : Toolchain) (c : Config) (several : Bool) (path : String)
    (contents : Except FileFault String) (done : FileOutcome) : Prop where
  output : done.result.output several path = (emission? t c several path contents).getD ""
  log    : linesAt .error done.log = []
  result : linesAt .error (done.result.log path) = (complaint? t c path contents).toList
  failed : done.result.isFailed = (complaint? t c path contents).isSome

theorem Prints.printedAs (h : Prints o fs c) (several : Bool) (path : String) :
    PrintedAs t c several path (fs.read path) (processFile t o c fs path) := by
  cases hdone : attempt t c path (fs.read path)
  case error failure =>
    rw [processFile_of_error h.transforms hdone]
    constructor
    case output => rw [emission?, hdone]; rfl
    case log    => rfl
    case result => rw [complaint?, hdone]; rfl
    case failed => rw [complaint?, hdone]; rfl
  case ok done =>
    have ⟨source, _, htransform⟩ := attempt_eq_ok_iff.mp hdone
    have hplace : place o fs path done.code done.report = (.printed done.code done.report, fs) := by
      rw [place, h.unasked]
    rw [processFile_of_ok h.transforms hdone, hplace]
    constructor
    case output => rw [emission?, hdone]; rfl
    case log    => exact linesAt_eq_nil <| Toolchain.level_ne_error htransform
    case result => rw [complaint?, hdone]; rfl
    case failed => rw [complaint?, hdone]; rfl

variable (t : Toolchain) (c : Config) (fs : FileSystem)

-- What the source files of a run that prints add to its output and to its errors. A file adds to one of
-- them, by its own contents.
def emissions (several : Bool) (paths : List String) : List String :=
  paths.filterMap fun path => emission? t c several path (fs.read path)

def complaints (paths : List String) : List String :=
  paths.filterMap fun path => complaint? t c path (fs.read path)

variable {t c fs}

theorem Prints.output_eq (h : Prints o fs c) :
    (run t o fs).output = String.join (emissions t c fs (2 ≤ o.files.length) o.files) := by
  rw [h.begins.run_eq, runFiles, processFiles_eq, turns_of_unasked h.unasked, emissions, ← join_map_getD]
  simp only [map_map, Function.comp_def, (h.printedAs _ _).output]
  rfl

theorem Prints.errors_eq (h : Prints o fs c) :
    linesAt .error (run t o fs).log = complaints t c fs o.files := by
  rw [h.begins.run_eq, runFiles, processFiles_eq, turns_of_unasked h.unasked, complaints,
    linesAt_append, linesAt_flatMap, linesAt_flatMap, filterMap_eq_flatMap_toList]
  simp only [flatMap_map, map_map, Function.comp_def, (h.printedAs false _).log,
    (h.printedAs false _).result]
  simp

theorem Prints.failure_eq (h : Prints o fs c) :
    (run t o fs).failure =
      if (complaints t c fs o.files).length = 0 then none
      else some [.notProcessed (complaints t c fs o.files).length o.files.length] := by
  rw [h.begins.run_eq, runFiles, processFiles_eq, turns_of_unasked h.unasked, complaints,
    length_filterMap_eq_countP]
  simp only [countP_map, Function.comp_def, (h.printedAs false _).failed]

-- A source file is read and parsed.
def Reads (t : Toolchain) (fs : FileSystem) (path : String) : Prop :=
  ∃ source program, fs.read path = .ok source ∧ t.parse path source = .ok program

theorem isSome_emission?_iff {several : Bool} :
    (emission? t c several path (fs.read path)).isSome ↔ Reads t fs path := by
  rw [Reads, ← exists_attempt_iff (c := c), emission?, Option.isSome_map]
  cases attempt t c path (fs.read path) <;> simp [Except.toOption]

theorem isSome_complaint?_iff :
    (complaint? t c path (fs.read path)).isSome ↔ ¬Reads t fs path := by
  rw [Reads, ← exists_attempt_iff (c := c), complaint?]
  cases attempt t c path (fs.read path) <;> simp

theorem Prints.failure_eq_none_iff (h : Prints o fs c) :
    (run t o fs).failure = none ↔ ∀ path ∈ o.files, Reads t fs path := by
  have hnone : (run t o fs).failure = none ↔ complaints t c fs o.files = [] := by
    rw [h.failure_eq]
    simp
  rw [hnone, complaints, filterMap_eq_nil_iff]
  refine forall₂_congr fun path _ => ?_
  rw [← Option.not_isSome_iff_eq_none, isSome_complaint?_iff, not_not]

theorem emissions_concat {several : Bool} (before after : List String) (path : String) :
    String.join (emissions t c fs several (before ++ path :: after)) =
      String.join (emissions t c fs several before) ++ (emission? t c several path (fs.read path)).getD "" ++
        String.join (emissions t c fs several after) := by
  simp only [emissions, ← join_map_getD, map_append, map_cons, String.join_append, String.join_cons,
    String.append_assoc]

theorem complaints_concat (before after : List String) (path : String) :
    complaints t c fs (before ++ path :: after) =
      complaints t c fs before ++ (complaint? t c path (fs.read path)).toList ++ complaints t c fs after := by
  simp only [complaints, filterMap_eq_flatMap_toList, flatMap_append, flatMap_cons, append_assoc]

theorem emissions_congr {fs' : FileSystem} {several : Bool} {paths : List String}
    (h : ∀ path ∈ paths, fs'.read path = fs.read path) :
    emissions t c fs' several paths = emissions t c fs several paths :=
  filterMap_congr fun path hpath => by rw [h path hpath]

theorem complaints_congr {fs' : FileSystem} {paths : List String}
    (h : ∀ path ∈ paths, fs'.read path = fs.read path) : complaints t c fs' paths = complaints t c fs paths :=
  filterMap_congr fun path hpath => by rw [h path hpath]

-- That the source files of a run do not get in each other's way.
structure Isolated (t : Toolchain) (c : Config) (o : Options) (fs : FileSystem) : Prop where
  -- The files that are read and parsed are printed in their order, with headings if several are named,
  output    : (run t o fs).output = String.join (emissions t c fs (2 ≤ o.files.length) o.files)
  emits     : ∀ several path, (emission? t c several path (fs.read path)).isSome ↔ Reads t fs path
  -- and the others are complained about in their order, once each.
  errors    : linesAt .error (run t o fs).log = complaints t c fs o.files
  complains : ∀ path, (complaint? t c path (fs.read path)).isSome ↔ ¬Reads t fs path
  succeeds  : (run t o fs).failure = none ↔ ∀ path ∈ o.files, Reads t fs path
  fails     :
    (¬∀ path ∈ o.files, Reads t fs path) →
      (run t o fs).failure = some [.notProcessed (complaints t c fs o.files).length o.files.length]
  files     : (run t o fs).files = fs
  -- Whatever becomes of one file, the other files add the same to the output and to the errors.
  others    :
    ∀ fs' before path after, o.files = before ++ path :: after → loadConfig o fs' = .ok c →
      (∀ other ∈ before ++ after, fs'.read other = fs.read other) →
      (run t o fs').output =
        String.join (emissions t c fs (2 ≤ o.files.length) before) ++
          (emission? t c (2 ≤ o.files.length) path (fs'.read path)).getD "" ++
          String.join (emissions t c fs (2 ≤ o.files.length) after) ∧
      linesAt .error (run t o fs').log =
        complaints t c fs before ++ (complaint? t c path (fs'.read path)).toList ++ complaints t c fs after

-- A run that prints treats every source file by itself.
theorem isolated (t : Toolchain) (hschema : o.printSchema = false) (hlist : o.list = false)
    (hdir : o.outDir = none) (hconfig : loadConfig o fs = .ok c) : Isolated t c o fs := by
  have hprints {fs : FileSystem} : loadConfig o fs = .ok c → Prints o fs c :=
    .of_loadConfig hschema hlist hdir
  have h := hprints hconfig
  refine ⟨h.output_eq, fun _ _ => isSome_emission?_iff, h.errors_eq, fun _ => isSome_complaint?_iff,
    h.failure_eq_none_iff, fun hfails => ?_, ?_, fun fs' before path after hfiles hconfig' hothers => ?_⟩
  case refine_1 =>
    have hne : (run t o fs).failure ≠ none := mt h.failure_eq_none_iff.mp hfails
    rw [h.failure_eq] at hne ⊢
    exact if_neg fun hnone => hne <| if_pos hnone
  case refine_2 => rw [h.begins.run_eq, runFiles_files, filesAfter_of_unasked hdir]
  case refine_3 =>
    have ⟨hbefore, hafter⟩ := forall_mem_append.mp hothers
    have h' := hprints hconfig'
    constructor
    case left =>
      rw [h'.output_eq, hfiles, emissions_concat, emissions_congr hbefore, emissions_congr hafter]
    case right =>
      rw [h'.errors_eq, hfiles, complaints_concat, complaints_congr hbefore, complaints_congr hafter]

-- A source file that can be printed, between one that cannot be read and one that cannot be parsed.
def mixedFiles : Options := { files := ["missing.js", "a.js", "broken.js"] }

def mixedFilesThere : FileSystem where
  current := []
  entries := [(["a.js"], .file (some "// a\n\n")), (["broken.js"], .file (some "function ("))]

theorem isolated_mixedFiles :
    mixedFiles.printSchema = false ∧ mixedFiles.list = false ∧ mixedFiles.outDir = none ∧
    loadConfig mixedFiles mixedFilesThere = .ok .default ∧
    Isolated .ofComments .default mixedFiles mixedFilesThere ∧
    (run .ofComments mixedFiles mixedFilesThere).output = "// a.js\n// a\n" ∧
    (run .ofComments mixedFiles mixedFilesThere).failure = some [.notProcessed 2 3] :=
  ⟨rfl, rfl, rfl, rfl, isolated .ofComments rfl rfl rfl rfl, rfl, rfl⟩

end Command

end RenderMemo
