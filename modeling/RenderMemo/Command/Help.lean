import RenderMemo.Command.Options

namespace RenderMemo.Command

namespace Switch

-- What stands for the value of an option in the help.
def valueName? : Switch → Option String
  | .valued .config => some "CONFIG"
  | .valued .cacheSize => some "CACHE_SIZE"
  | .valued .memoizeModule => some "MEMOIZE_MODULE"
  | .valued .importStyle => some "IMPORT_STYLE"
  | .valued .outDir => some "OUT_DIR"
  | .flag _ => none

-- What the help says of an option. Some options have nothing but their name.
def description : Switch → String
  | .valued .config => "Path to a JSON config file. Flags take precedence over it"
  | .valued .cacheSize => ""
  | .valued .memoizeModule => ""
  | .valued .importStyle =>
    "[possible values: " ++ styleName .require ++ ", " ++ styleName .esModule ++ "]"
  | .valued .outDir => "Write transformed files into this directory instead of printing them"
  | .flag .dedupeCaptures => ""
  | .flag .list => "Print the render functions found in each file, without transforming"
  | .flag .printSchema => "Print the JSON schema of the config file and exit"
  | .flag .verbose => ""
  | .flag .help => "Print help"

-- The spellings of an option. The names stand below each other, whether or not there is a letter.
def spellings (s : Switch) : String :=
  let letter := match s.letter? with
    | some c => "-" ++ String.singleton c ++ ", "
    | none => "    "
  let value := match s.valueName? with
    | some name => " <" ++ name ++ ">"
    | none => ""
  letter ++ "--" ++ s.name ++ value

-- The lines about an option: its spellings, and its description on a line below them.
def helpLines (s : Switch) : List String :=
  ["  " ++ s.spellings, "          " ++ s.description]

end Switch

def helpLines : List String :=
  ["Memoizes `.bind()` calls and inline closures in JSX render functions",
    "",
    "Usage: bind-memoizer [OPTIONS] [FILES]...",
    "",
    "Arguments:",
    "  [FILES]...  Source files to transform",
    "",
    "Options:"] ++
  Switch.all.flatMap Switch.helpLines

-- The help, which is the output of a run that was asked for it.
def helpText : String :=
  String.join (helpLines.map (· ++ "\n"))

end RenderMemo.Command
