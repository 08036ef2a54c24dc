import Mathlib.Data.List.DropRight
import RenderMemo.Proofs.Isolation
import RenderMemo.Proofs.Layout

open List

namespace RenderMemo

namespace Text

variable {s : String}

theorem toList_dropBlankEnd (s : String) : (dropBlankEnd s).toList = s.toList.rdropWhile isBlank := by
  rw [dropBlankEnd, String.toList_ofList]
  rfl

-- Nothing but blanks is lost.
theorem exists_blanks (s : String) : ∃ blanks, s = dropBlankEnd s ++ blanks ∧ isAllBlank blanks := by
  refine ⟨String.ofList (s.toList.rtakeWhile isBlank), ?_, ?_⟩
  · apply String.toList_inj.mp
    rw [String.toList_append, toList_dropBlankEnd, String.toList_ofList, rdropWhile_append_rtakeWhile]
  · rw [isAllBlank, String.toList_ofList, all_eq_true]
    exact fun _ => mem_rtakeWhile_imp

-- A text that ends with a line break, in front of which no blank stands.
def EndsWithLine (s : String) : Prop :=
  ∃ line, s = line ++ "\n" ∧ ∀ ch ∈ line.toList.getLast?, isBlank ch = false

theorem dropBlankEnd_eq_self (h : ∀ ch ∈ s.toList.getLast?, isBlank ch = false) : dropBlankEnd s = s := by
  apply String.toList_inj.mp
  rw [toList_dropBlankEnd, rdropWhile_eq_self_iff]
  intro hne
  rw [h _ (getLast?_eq_getLast_of_ne_nil hne)]
  exact Bool.false_ne_true

theorem not_isBlank_of_mem_getLast? {ch : Char} (h : ch ∈ (dropBlankEnd s).toList.getLast?) :
    isBlank ch = false := by
  rw [toList_dropBlankEnd] at h
  have hne : s.toList.rdropWhile isBlank ≠ [] := ne_nil_of_mem <| mem_of_getLast? h
  rw [getLast?_eq_getLast_of_ne_nil hne] at h
  cases h
  exact Bool.eq_false_iff.mpr <| rdropWhile_last_not _ _ hne

-- A text whose end is cut off and made anew is the same text if it ended like that.
theorem dropBlankEnd_append_eq_iff : dropBlankEnd s ++ "\n" = s ↔ EndsWithLine s := by
  constructor
  case mp  => exact fun h => ⟨dropBlankEnd s, h.symm, fun _ => not_isBlank_of_mem_getLast?⟩
  case mpr =>
    rintro ⟨line, rfl, hline⟩
    have hbreak : dropBlankEnd (line ++ "\n") = dropBlankEnd line := by
      apply String.toList_inj.mp
      rw [toList_dropBlankEnd, toList_dropBlankEnd, String.toList_append]
      exact rdropWhile_concat_pos _ _ _ rfl
    rw [hbreak, dropBlankEnd_eq_self hline]

end Text

-- A text in which nothing is rewritten is what it comes to.
theorem Toolchain.transform_of_not_rewritten {t : Toolchain} {c : Config} {filename source : String} {p : Program}
    (hparse : t.parse filename source = .ok p) (h : (p.memoize c).report.rewrittenFunctions = 0) :
    ∃ done, t.transform filename source c = .ok done ∧ done.code = source := by
  have hunchanged : (p.memoize c).report.isUnchanged = true := by
    rw [Report.isUnchanged, Program.importInserted_eq, h]
    rfl
  exact ⟨_, transform_of_parse hparse, if_pos hunchanged⟩

namespace Command

variable {t : Toolchain} {o : Options} {c : Config} {fs start : FileSystem} {front back : List String}
  {path source : String}

-- What is emitted for a source file in which nothing is rewritten.
structure Kept (t : Toolchain) (o : Options) (c : Config) (fs now : FileSystem) (front : List String)
    (path : String) (back : List String) (source : String) : Prop where
  code    : ∃ done, t.transform path source c = .ok done ∧ done.code = source
  -- The text is written as it is,
  written :
    ∀ outDir name files, o.outDir = some outDir → Path.fileName? path = some name →
      now.write (Path.join outDir name) source = .ok files →
      (processFile t o c now path).files = files ∧ files.read (Path.join outDir name) = .ok source ∧
      ((∀ later ∈ back, Path.fileName? later ≠ some name) →
        (run t o fs).files.read (Path.join outDir name) = .ok source)
  -- but it is printed with a new end:
  printed :
    o.outDir = none →
      (run t o fs).output =
        String.join (emissions t c fs (2 ≤ o.files.length) front) ++
          (heading (2 ≤ o.files.length) path ++ Text.dropBlankEnd source ++ "\n") ++
          String.join (emissions t c fs (2 ≤ o.files.length) back)
  -- Blanks at the end are lost, and the text stays the same only if it ends like any line.
  trimmed : ∃ blanks, source = Text.dropBlankEnd source ++ blanks ∧ Text.isAllBlank blanks
  same    : Text.dropBlankEnd source ++ "\n" = source ↔ Text.EndsWithLine source

theorem kept (hbegins : Begins o fs c start) (hlist : o.list = false) (hfiles : o.files = front ++ path :: back)
    (hread : (filesAfter t o c start front).read path = .ok source) {program : Program}
    (hparse : t.parse path source = .ok program) (hnone : (program.memoize c).report.rewrittenFunctions = 0) :
    Kept t o c fs (filesAfter t o c start front) front path back source := by
  have ⟨done, htransform, hcode⟩ := Toolchain.transform_of_not_rewritten hparse hnone
  have hdone : attempt t c path ((filesAfter t o c start front).read path) = .ok done :=
    attempt_eq_ok_iff.mpr ⟨source, hread, htransform⟩
  refine ⟨⟨done, htransform, hcode⟩, fun outDir name files hdir hname hwrite => ?_, fun hdir => ?_,
    Text.exists_blanks source, Text.dropBlankEnd_append_eq_iff⟩
  case refine_1 =>
    have ⟨hwrites, hsame⟩ := Writes.of_write hlist hdir hname hdone (hcode.symm ▸ hwrite)
    refine ⟨hsame, FileSystem.read_write hwrite, fun hlast => ?_⟩
    rw [hbegins.run_eq, runFiles_files, hfiles, filesAfter_append, ← hcode]
    exact hwrites.read_filesAfter hlast
  case refine_2 =>
    have hstart := hbegins.start_of_unasked hdir
    subst hstart
    have hprints : Prints o start c := ⟨hbegins, hlist, hdir⟩
    rw [filesAfter_of_unasked hdir] at hdone
    rw [hprints.output_eq, hfiles, emissions_concat, emission?, hdone, ← hcode]
    rfl

-- A source file with an empty line at its end.
def emptyLine : Options := { files := ["a.js"] }

def emptyLineFiles : FileSystem where
  current := []
  entries := [(["a.js"], .file (some "// a\n\n"))]

theorem kept_emptyLine :
    Begins emptyLine emptyLineFiles .default emptyLineFiles ∧ emptyLine.list = false ∧
    (filesAfter .ofComments emptyLine .default emptyLineFiles []).read "a.js" = .ok "// a\n\n" ∧
    Kept .ofComments emptyLine .default emptyLineFiles
      (filesAfter .ofComments emptyLine .default emptyLineFiles []) [] "a.js" [] "// a\n\n" :=
  have hbegins : Begins emptyLine emptyLineFiles .default emptyLineFiles := ⟨rfl, rfl, .inl ⟨rfl, rfl⟩⟩
  ⟨hbegins, rfl, rfl, kept hbegins rfl rfl rfl rfl rfl⟩

-- The empty line is not printed.
theorem not_printed_emptyLine :
    emptyLine.list = false ∧ emptyLineFiles.read "a.js" = .ok "// a\n\n" ∧
    (∃ program, Toolchain.ofComments.parse "a.js" "// a\n\n" = .ok program ∧
      (program.memoize .default).report.rewrittenFunctions = 0) ∧
    (run .ofComments emptyLine emptyLineFiles).failure = none ∧
    (run .ofComments emptyLine emptyLineFiles).output = "// a\n" ∧
    (run .ofComments emptyLine emptyLineFiles).output ≠ "// a\n\n" :=
  ⟨rfl, rfl, ⟨_, rfl, rfl⟩, rfl, rfl, by decide +kernel⟩

end Command

end RenderMemo
