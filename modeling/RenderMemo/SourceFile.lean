import RenderMemo.Memoize
import RenderMemo.SourceText

namespace RenderMemo

-- The dialect in which a file is read, by its name.
inductive Dialect where
  | ecmaScript (jsx decorators : Bool)
  | typeScript (tsx decorators : Bool)
deriving DecidableEq, Repr

def hasExtension (filename extension : String) : Bool :=
  extension.toList.isSuffixOf filename.toList

-- Whether a file is written in TypeScript, which only the end of its name says.
def isTypeScript (filename : String) : Bool :=
  [".ts", ".tsx", ".mts", ".cts"].any (hasExtension filename)

-- Anything that is not TypeScript may contain markup, whatever it is called. TypeScript may contain it
-- only in files that are named for it.
def dialectOf (filename : String) : Dialect :=
  if isTypeScript filename then .typeScript (hasExtension filename ".tsx") true
  else .ecmaScript true true

-- What reads source texts and writes programs. A program is read with its identifiers resolved. The
-- text of a program is written beside the source text, whose comments it keeps.
structure Toolchain where
  parse : (filename source : String) → Except String Program
  print : (filename source : String) → Program → String

structure ParseError where
  filename : String
  reason   : String
deriving DecidableEq, Repr

namespace ParseError

def message (e : ParseError) : String :=
  "failed to parse " ++ e.filename ++ ": " ++ e.reason

end ParseError

-- A source text after a run.
structure Transformed where
  code   : String
  report : Report
  log    : List LogLine

namespace Toolchain

def read (t : Toolchain) (filename source : String) : Except ParseError Program :=
  match t.parse filename source with
  | .ok program => .ok program
  | .error reason => .error ⟨filename, reason⟩

-- Runs on one source text. A text in which nothing is rewritten is kept as it is.
def transform (t : Toolchain) (filename source : String) (c : Config) :
    Except ParseError Transformed := do
  let program ← t.read filename source
  let outcome := program.memoize c
  let describe := (SourceText.ofFile filename source).describe
  return {
    code := if outcome.report.isUnchanged then source else t.print filename source outcome.program
    report := outcome.report
    log := outcome.log.map fun e => ⟨e.level, e.render describe⟩ }

-- Lists the render functions of a source text.
def list (t : Toolchain) (filename source : String) : Except ParseError (List RenderFunction) := do
  return (← t.read filename source).renderFunctions

end Toolchain

end RenderMemo
