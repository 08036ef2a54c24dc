import RenderMemo.Config.Basic

namespace RenderMemo.Command

-- What is asked for on the command line.
structure Options where
  files          : List String        := []
  config         : Option String      := none
  cacheSize      : Option UInt64      := none
  memoizeModule  : Option String      := none
  importStyle    : Option ImportStyle := none
  dedupeCaptures : Bool               := false
  outDir         : Option String      := none
  list           : Bool               := false
  printSchema    : Bool               := false
  verbose        : Bool               := false
deriving DecidableEq, Repr

-- The options that take a value.
inductive Valued where
  | config
  | cacheSize
  | memoizeModule
  | importStyle
  | outDir
deriving DecidableEq, Repr

-- The options that take none.
inductive Flag where
  | dedupeCaptures
  | list
  | printSchema
  | verbose
  | help
deriving DecidableEq, Repr

inductive Switch where
  | valued (o : Valued)
  | flag (f : Flag)
deriving DecidableEq, Repr

namespace Switch

def all : List Switch :=
  [.valued .config, .valued .cacheSize, .valued .memoizeModule, .valued .importStyle,
    .flag .dedupeCaptures, .valued .outDir, .flag .list, .flag .printSchema, .flag .verbose,
    .flag .help]

-- The name behind two hyphens.
def name : Switch → String
  | .valued .config => "config"
  | .valued .cacheSize => "cache-size"
  | .valued .memoizeModule => "memoize-module"
  | .valued .importStyle => "import-style"
  | .valued .outDir => "out-dir"
  | .flag .dedupeCaptures => "dedupe-captures"
  | .flag .list => "list"
  | .flag .printSchema => "print-schema"
  | .flag .verbose => "verbose"
  | .flag .help => "help"

-- The letter behind a single hyphen, for those that have one.
def letter? : Switch → Option Char
  | .valued .config => some 'c'
  | .valued .outDir => some 'o'
  | .flag .verbose => some 'v'
  | .flag .help => some 'h'
  | _ => none

def ofName? (s : String) : Option Switch := all.find? (·.name == s)

def ofLetter? (c : Char) : Option Switch := all.find? (·.letter? == some c)

end Switch

-- How an import style is spelled on the command line.
def styleName : ImportStyle → String
  | .require => "require"
  | .esModule => "es-module"

def styleOfName? (s : String) : Option ImportStyle :=
  if s = "require" then some .require
  else if s = "es-module" then some .esModule
  else none

end RenderMemo.Command
