import Mathlib.Data.List.Nodup
import RenderMemo.Proofs.Runs

open List

namespace RenderMemo.Command

variable {t : Toolchain} {o : Options} {c : Config} {fs start : FileSystem} {outDir : String}

-- The file to which a path leads in the end held a text when a run started.
structure Held (before after : FileSystem) (path source : String) : Prop where
  stood : ∃ place, after.locate path = .ok place ∧ before.entry? place = some (.file (some source))
  read  : ∀ text, before.read path = .ok text → text = source

theorem Held.of_stood {before after : FileSystem} {path source : String} {place : List String}
    (hways : before.Extends after) (hlocate : after.locate path = .ok place)
    (hentry : before.entry? place = some (.file (some source))) : Held before after path source where
  stood := ⟨place, hlocate, hentry⟩
  read  := fun text hread => by
    have ⟨_, hlocate', hentry'⟩ := FileSystem.read_eq_ok_iff.mp hread
    cases (hways.locate hlocate').symm.trans hlocate
    cases hentry'.symm.trans hentry
    rfl

-- The output of a source file holds what the text that it had when a run started comes to.
def Delivered (t : Toolchain) (c : Config) (before after : FileSystem) (outDir path : String) : Prop :=
  ∃ name source done, Path.fileName? path = some name ∧ Held before after path source ∧
    t.transform path source c = .ok done ∧ after.read (Path.join outDir name) = .ok done.code

-- What stands in the output directory after a run without failures.
structure Delivery (t : Toolchain) (o : Options) (c : Config) (before start after : FileSystem)
    (outDir : String) : Prop where
  -- Of all source files with one name, the last one stays.
  last      :
    ∀ path ∈ o.files, ∃ front keeper back name source done, o.files = front ++ keeper :: back ∧
      Path.fileName? path = some name ∧ Path.fileName? keeper = some name ∧
      (∀ later ∈ back, Path.fileName? later ≠ some name) ∧
      (filesAfter t o c start front).read keeper = .ok source ∧ t.transform keeper source c = .ok done ∧
      after.read (Path.join outDir name) = .ok done.code
  -- Only a file of the same name may have changed a source file before its turn.
  intact    :
    ∀ front path back, o.files = front ++ path :: back →
      (∀ earlier ∈ front, Path.fileName? earlier ≠ Path.fileName? path) →
      ∀ source, (filesAfter t o c start front).read path = .ok source → Held before after path source
  -- So a source file with a name of its own is delivered,
  delivered :
    ∀ front path back, o.files = front ++ path :: back →
      (∀ other ∈ front ++ back, Path.fileName? other ≠ Path.fileName? path) →
      Delivered t c before after outDir path
  -- and nothing is lost if all names are different.
  lossless  : (o.files.map Path.fileName?).Nodup → ∀ path ∈ o.files, Delivered t c before after outDir path

-- A run that writes the code of every source file.
structure Fulfils (t : Toolchain) (o : Options) (c : Config) (fs start : FileSystem) (outDir : String) : Prop where
  begins : Begins o fs c start
  writes :
    ∀ front path back, o.files = front ++ path :: back →
      ∃ name done, Writes t o c (filesAfter t o c start front) path outDir name done

theorem exists_fulfils (hschema : o.printSchema = false) (hlist : o.list = false) (hdir : o.outDir = some outDir)
    (h : (run t o fs).failure = none) : ∃ c start, Fulfils t o c fs start outDir := by
  have hruns := run_runs t o fs
  generalize run t o fs = done at hruns h
  cases hruns
  case schema hschema' => cases hschema.symm.trans hschema'
  case refused         => cases h
  case blocked         => cases h
  case began c start hbegins =>
    refine ⟨c, start, hbegins, fun front path back hfiles => exists_writes hlist hdir ?_⟩
    have hturn : (path, filesAfter t o c start front) ∈ turns t o c start o.files :=
      mem_turns_iff.mpr ⟨front, back, hfiles, rfl⟩
    exact runFiles_failure_eq_none_iff.mp h _ hturn

namespace Fulfils

variable {front back : List String} {path name source : String} {done : Transformed}

theorem files_eq (h : Fulfils t o c fs start outDir) (hfiles : o.files = front ++ path :: back) :
    (run t o fs).files =
      filesAfter t o c (processFile t o c (filesAfter t o c start front) path).files back := by
  rw [h.begins.run_eq, runFiles_files, hfiles, filesAfter_append]
  rfl

theorem extends_start (h : Fulfils t o c fs start outDir) : start.Extends (run t o fs).files := by
  rw [h.begins.run_eq, runFiles_files]
  exact filesAfter_extends o.files

-- What is written last under a name stays there.
theorem read_output (h : Fulfils t o c fs start outDir) (hfiles : o.files = front ++ path :: back)
    (hname : Path.fileName? path = some name) (hlast : ∀ later ∈ back, Path.fileName? later ≠ some name) :
    ∃ source done, (filesAfter t o c start front).read path = .ok source ∧
      t.transform path source c = .ok done ∧ (run t o fs).files.read (Path.join outDir name) = .ok done.code := by
  have ⟨name', done, hwrites⟩ := h.writes front path back hfiles
  cases hname.symm.trans hwrites.named
  have ⟨source, hread, htransform⟩ := attempt_eq_ok_iff.mp hwrites.succeeds
  exact ⟨source, done, hread, htransform, h.files_eq hfiles ▸ hwrites.read_filesAfter hlast⟩

-- What is read before anything is written under the name of a file, it held from the beginning.
theorem held (h : Fulfils t o c fs start outDir) (hfiles : o.files = front ++ path :: back)
    (hfirst : ∀ earlier ∈ front, Path.fileName? earlier ≠ Path.fileName? path)
    (hread : (filesAfter t o c start front).read path = .ok source) : Held fs (run t o fs).files path source := by
  have ⟨name, _, hwrites⟩ := h.writes front path back hfiles
  have ⟨place, hlocate, hentry⟩ := FileSystem.read_eq_ok_iff.mp hread
  have hisFile : FileSystem.entry? (filesAfter t o c start front) place ≠ some .directory :=
    fun hdirectory => nomatch hentry.symm.trans hdirectory
  have ⟨above, hplace⟩ := FileSystem.exists_of_locate hlocate hisFile hwrites.named
  have hstart : start.entry? place = some (.file (some source)) := by
    rw [← hentry, hplace, filesAfter_entry?_of_ne above <| hwrites.named ▸ hfirst]
  have hways : (filesAfter t o c start front).Extends (run t o fs).files := by
    rw [h.files_eq hfiles]
    exact (processFile_extends ..).trans <| filesAfter_extends back
  exact .of_stood (h.begins.makes.ways.trans h.extends_start) (hways.locate hlocate) <|
    h.begins.makes.entry?_of_file hstart

theorem delivered_of_name (h : Fulfils t o c fs start outDir) (hfiles : o.files = front ++ path :: back)
    (hother : ∀ other ∈ front ++ back, Path.fileName? other ≠ Path.fileName? path) :
    Delivered t c fs (run t o fs).files outDir path := by
  have ⟨hfront, hback⟩ := forall_mem_append.mp hother
  have ⟨name, _, hwrites⟩ := h.writes front path back hfiles
  have ⟨source, done, hread, htransform, houtput⟩ :=
    h.read_output hfiles hwrites.named <| hwrites.named ▸ hback
  exact ⟨name, source, done, hwrites.named, h.held hfiles hfront hread, htransform, houtput⟩

end Fulfils

-- Of all files with a name that a list has, there is a last one.
theorem exists_last {paths : List String} {path name : String} (hpath : path ∈ paths)
    (hname : Path.fileName? path = some name) :
    ∃ front keeper back, paths = front ++ keeper :: back ∧ Path.fileName? keeper = some name ∧
      ∀ later ∈ back, Path.fileName? later ≠ some name := by
  have hfound : (paths.reverse.find? (Path.fileName? · == some name)).isSome :=
    find?_isSome.mpr ⟨path, mem_reverse.mpr hpath, by simpa using hname⟩
  have ⟨keeper, hkeeper⟩ := Option.isSome_iff_exists.mp hfound
  have ⟨hkeeper, back, front, hpaths, hback⟩ := find?_eq_some_iff_append.mp hkeeper
  refine ⟨front.reverse, keeper, back.reverse, ?_, by simpa using hkeeper, fun later hlater => ?_⟩
  · rw [← reverse_reverse paths, hpaths]
    simp
  · simpa using hback later (mem_reverse.mp hlater)

-- A run without failures writes the code of every source file, and what is written under a name of its
-- own is not lost.
theorem delivered (hschema : o.printSchema = false) (hlist : o.list = false) (hdir : o.outDir = some outDir)
    (hok : (run t o fs).failure = none) :
    ∃ c start, Begins o fs c start ∧ Delivery t o c fs start (run t o fs).files outDir := by
  obtain ⟨c, start, h⟩ := exists_fulfils hschema hlist hdir hok
  refine ⟨c, start, h.begins, ?_, fun _ _ _ hfiles hfront _ => h.held hfiles hfront,
    fun _ _ _ hfiles => h.delivered_of_name hfiles, ?_⟩
  case refine_1 =>
    intro path hpath
    have ⟨_, _, hfiles⟩ := append_of_mem hpath
    have ⟨name, _, hwrites⟩ := h.writes _ _ _ hfiles
    have ⟨front, keeper, back, hfiles, hkeeper, hlast⟩ := exists_last hpath hwrites.named
    have ⟨source, done, hread, htransform, houtput⟩ := h.read_output hfiles hkeeper hlast
    exact ⟨front, keeper, back, name, source, done, hfiles, hwrites.named, hkeeper, hlast, hread, htransform,
      houtput⟩
  case refine_2 =>
    intro hnodup path hpath
    have ⟨front, back, hfiles⟩ := append_of_mem hpath
    refine h.delivered_of_name hfiles fun other hother => ?_
    rw [hfiles, map_append, map_cons, nodup_middle, nodup_cons, ← map_append] at hnodup
    exact fun heq => hnodup.1 <| heq ▸ mem_map_of_mem hother

-- Two source files of different names, one of which lies where its output is to be.
def differentNames : Options := { files := ["a/x.js", "out/y.js"], outDir := some "out" }

def differentNamesFiles : FileSystem where
  current := []
  entries := [(["a"], .directory), (["out"], .directory), (["a", "x.js"], .file (some "// x\n")),
    (["out", "y.js"], .file (some "// y\n"))]

theorem delivered_differentNames :
    differentNames.printSchema = false ∧ differentNames.list = false ∧ differentNames.outDir = some "out" ∧
    (run .ofComments differentNames differentNamesFiles).failure = none ∧
    ∃ c start, Begins differentNames differentNamesFiles c start ∧
      Delivery .ofComments differentNames c differentNamesFiles start
        (run .ofComments differentNames differentNamesFiles).files "out" :=
  ⟨rfl, rfl, rfl, rfl, delivered rfl rfl rfl rfl⟩

-- Two source files of one name.
def sameName : Options := { files := ["a/x.js", "b/x.js"], outDir := some "out" }

def sameNameFiles : FileSystem where
  current := []
  entries := [(["a"], .directory), (["b"], .directory), (["a", "x.js"], .file (some "// a\n")),
    (["b", "x.js"], .file (some "// b\n"))]

-- The output of the first one is lost, though the run reports no failure and both files as written.
theorem not_delivered_sameName :
    sameName.printSchema = false ∧ sameName.list = false ∧ sameName.files.Nodup ∧
    loadConfig sameName sameNameFiles = .ok .default ∧
    (run .ofComments sameName sameNameFiles).failure = none ∧
    linesAt .info (run .ofComments sameName sameNameFiles).log =
      ["a/x.js -> out/x.js: 0 of 0 render functions rewritten (0 bind calls, 0 hoisted closures)",
        "b/x.js -> out/x.js: 0 of 0 render functions rewritten (0 bind calls, 0 hoisted closures)"] ∧
    ¬Delivered .ofComments .default sameNameFiles (run .ofComments sameName sameNameFiles).files "out"
      "a/x.js" := by
  refine ⟨rfl, rfl, by decide, rfl, rfl, rfl, ?_⟩
  rintro ⟨name, source, done, hname, hheld, htransform, houtput⟩
  have hsource : "// a\n" = source := hheld.read _ rfl
  have hcode : done.code = "// a\n" := by
    subst hsource
    cases htransform
    rfl
  have hread : (run .ofComments sameName sameNameFiles).files.read (Path.join "out" name) = .ok "// b\n" := by
    cases hname
    rfl
  rw [hread, hcode] at houtput
  exact absurd (Except.ok.inj houtput) (by decide)

end RenderMemo.Command
