import RenderMemo.Command.Help
import RenderMemo.Command.Parser
import RenderMemo.Config.Schema
import RenderMemo.FileSystem
import RenderMemo.SourceFile

namespace RenderMemo.Command

-- One link in the chain of causes of a failure.
inductive Cause where
  | readingConfig (path : String)
  | parsingConfig (path : String)
  | invalidConfig
  | config (e : ConfigError)
  | json (fault : Json.Fault)
  | file (fault : FileFault)
  | makingOutDir (path : String)
  | readingSource (path : String)
  | transforming (path : String)
  | parsing (e : ParseError)
  | writing (path : String)
  | noFileName (path : String)
  | notProcessed (failed total : Nat)
deriving DecidableEq, Repr

namespace Cause

def message : Cause → String
  | readingConfig path => "failed to read config file " ++ path
  | parsingConfig path => "failed to parse config file " ++ path
  | invalidConfig => "invalid bind-memoizer config"
  | config e => e.message
  | json fault => fault.message
  | file fault => fault.message
  | makingOutDir path => "failed to create output directory " ++ path
  | readingSource path => "failed to read source file " ++ path
  | transforming path => "failed to transform " ++ path
  | parsing e => e.message
  | writing path => "failed to write " ++ path
  | noFileName path => path ++ " has no file name"
  | notProcessed failed total =>
    toString failed ++ " of " ++ toString total ++ " files could not be processed"

end Cause

-- A failure with all its causes, the outermost first.
abbrev Failure := List Cause

def Failure.message (f : Failure) : String :=
  ": ".intercalate (f.map Cause.message)

-- The settings of the configuration file, if one is named.
def fileSettings (o : Options) (fs : FileSystem) : Except Failure Settings :=
  match o.config with
  | none => .ok {}
  | some path =>
    match fs.read path with
    | .error fault => .error [.readingConfig path, .file fault]
    | .ok text =>
      match Settings.ofText? text with
      | .error fault => .error [.parsingConfig path, .json fault]
      | .ok settings => .ok settings

-- What is given on the command line goes before what is given in a file.
def Options.override (o : Options) (s : Settings) : Settings where
  cacheSize      := o.cacheSize.getD s.cacheSize
  memoizeModule  := o.memoizeModule.getD s.memoizeModule
  importStyle    := o.importStyle.getD s.importStyle
  dedupeCaptures := o.dedupeCaptures || s.dedupeCaptures

-- The options of a run, which are checked only once they are put together.
def loadConfig (o : Options) (fs : FileSystem) : Except Failure Config := do
  let settings ← fileSettings o fs
  match (o.override settings).validate with
  | .ok config => return config
  | .error e => throw [.invalidConfig, .config e]

-- What became of one source file.
inductive FileResult where
  | listed (found : List RenderFunction)
  | printed (code : String) (report : Report)
  | written (outPath : String) (report : Report)
  | failed (failure : Failure)

-- The state in which one source file leaves the run: its result, the messages on the way to it, and
-- the file system after it.
structure FileOutcome where
  result : FileResult
  log    : List LogLine
  files  : FileSystem

-- Puts a transformed source where it is asked for.
def place (o : Options) (fs : FileSystem) (path : String) (code : String) (report : Report) :
    FileResult × FileSystem :=
  match o.outDir with
  | none => (.printed code report, fs)
  | some outDir =>
    match Path.fileName? path with
    | none => (.failed [.noFileName path], fs)
    | some name =>
      let outPath := Path.join outDir name
      match fs.write outPath code with
      | .ok fs => (.written outPath report, fs)
      | .error fault => (.failed [.writing outPath, .file fault], fs)

-- Processes one source file.
def processFile (t : Toolchain) (o : Options) (c : Config) (fs : FileSystem) (path : String) :
    FileOutcome :=
  match fs.read path with
  | .error fault => ⟨.failed [.readingSource path, .file fault], [], fs⟩
  | .ok source =>
    if o.list then
      match t.list path source with
      | .ok found => ⟨.listed found, [], fs⟩
      | .error e => ⟨.failed [.parsing e], [], fs⟩
    else
      match t.transform path source c with
      | .error e => ⟨.failed [.transforming path, .parsing e], [], fs⟩
      | .ok done =>
        let (result, fs) := place o fs path done.code done.report
        ⟨result, done.log, fs⟩

-- Processes source files, whether or not others have failed. The files are taken in parallel, and this is
-- one of the schedules: that in the order of the command line, where a file is begun when the one before is
-- done. Under another, messages of several files may mix in the log, a file that is written for several
-- holds what was written last, and one that is both read and written may be read before or after. The
-- results are in the order of the command line under each.
def processFiles (t : Toolchain) (o : Options) (c : Config) :
    FileSystem → List String → List (String × FileResult) × List LogLine × FileSystem
  | fs, [] => ([], [], fs)
  | fs, path :: paths =>
    let first := processFile t o c fs path
    let (results, log, fs) := processFiles t o c first.files paths
    ((path, first.result) :: results, first.log ++ log, fs)

def listingJson (path : String) (found : List RenderFunction) : Json :=
  .obj [("file", .str path), ("renderFunctions", .arr (found.map fun f =>
    .obj [("kind", .str f.kind.text), ("name", (f.name.map Json.str).getD .null),
      ("insertionPoint", .nat f.insertionPoint)]))]

namespace FileResult

-- What a result adds to the output. If there are several files, a printed one is headed by its path.
def output (several : Bool) (path : String) : FileResult → String
  | listed found => (listingJson path found).pretty 0 ++ "\n"
  | printed code _ =>
    (if several then "// " ++ path ++ "\n" else "") ++ Text.dropBlankEnd code ++ "\n"
  | written _ _ => ""
  | failed _ => ""

-- What a result adds to the log.
def log (path : String) : FileResult → List LogLine
  | listed _ => []
  | printed _ report => [⟨.debug, path ++ ": " ++ report.text⟩]
  | written outPath report => [⟨.info, path ++ " -> " ++ outPath ++ ": " ++ report.text⟩]
  | failed failure => [⟨.error, failure.message⟩]

def isFailed : FileResult → Bool
  | failed _ => true
  | _ => false

end FileResult

-- A run as it is seen from outside.
structure RunOutcome where
  failure : Option Failure
  output  : String
  log     : List LogLine
  files   : FileSystem

-- Runs on all files. Every file is attempted, and the run fails in the end if some file did.
def runFiles (t : Toolchain) (o : Options) (c : Config) (fs : FileSystem) : RunOutcome :=
  let (results, log, fs) := processFiles t o c fs o.files
  let several := 1 < o.files.length
  let failures := results.countP (·.2.isFailed)
  { failure := if failures = 0 then none else some [.notProcessed failures o.files.length]
    output := String.join (results.map fun (path, r) => r.output several path)
    log := log ++ results.flatMap fun (path, r) => r.log path
    files := fs }

def run (t : Toolchain) (o : Options) (fs : FileSystem) : RunOutcome :=
  if o.printSchema then
    ⟨none, Settings.schemaText ++ "\n", [], fs⟩
  else
    match loadConfig o fs with
    | .error failure => ⟨some failure, "", [], fs⟩
    | .ok c =>
      match o.outDir with
      | none => runFiles t o c fs
      | some outDir =>
        match fs.makeDirectories outDir with
        | ⟨fs, some fault⟩ => ⟨some [.makingOutDir outDir, .file fault], "", [], fs⟩
        | ⟨fs, none⟩ => runFiles t o c fs

-- The program as a whole: how it exits, and what it leaves behind.
structure Session where
  exitCode : Nat
  output   : String
  log      : List LogLine
  files    : FileSystem

-- The log of a run is closed by a message of its own, and by the failure of the run. Messages below
-- some level are dropped.
def RunOutcome.close (done : RunOutcome) (level : Level) (closing : String) : Session :=
  let failure := done.failure.toList.map fun f => ⟨.error, f.message⟩
  { exitCode := if done.failure.isSome then 1 else 0
    output := done.output
    log := linesFrom level (done.log ++ ⟨.debug, closing⟩ :: failure)
    files := done.files }

def Options.logLevel (o : Options) : Level :=
  if o.verbose then .debug else .info

def Options.session (t : Toolchain) (o : Options) (closing : String) (fs : FileSystem) : Session :=
  (run t o fs).close o.logLevel closing

-- A command line that is refused ends the program before anything is read or written. So does one that
-- asks for help, which is no failure.
def UsageError.session (e : UsageError) (fs : FileSystem) : Session :=
  match e with
  | .displayHelp => ⟨0, helpText, [], fs⟩
  | _ => ⟨2, "", [], fs⟩

def session (t : Toolchain) (args : List String) (closing : String) (fs : FileSystem) : Session :=
  match Options.ofArgs args with
  | .ok o => o.session t closing fs
  | .error e => e.session fs

end RenderMemo.Command
