import RenderMemo.Config.Basic
import RenderMemo.Decimal.Double
import RenderMemo.Expansion
import RenderMemo.Log
import RenderMemo.Program
import RenderMemo.Report

namespace RenderMemo

-- `const binder = memoize(cacheSize)((func, context, ...args) => func.bind(context, ...args));`
def binderDeclaration (binder memoize : String) (cacheSize : UInt64) : Node :=
  let bindAll := Node.arrow
    [.named "func", .named "context", .restElement (.named "args")]
    (.call (.member (.named "func") "bind")
      [.entry (.named "context"), .spreadEntry (.named "args")])
  let memoizer := Node.call (.named memoize)
    [.entry (.numericLiteral (Decimal.toDouble cacheSize.toNat))]
  .constant binder (.call memoizer [.entry bindAll])

-- `const memoize = require("source");`
def requireDeclaration (memoize source : String) : Node :=
  .constant memoize (.call (.named "require") [.entry (.stringLiteral source)])

namespace Emitted

-- The item as it stands in the result.
def node (memoize : String) (cacheSize : UInt64) : Emitted → Node
  | binder b => binderDeclaration b.binder memoize cacheSize
  | closure _ declaration => declaration
  | own item => item

end Emitted

namespace Binding

-- The message about a render function that was given a binder.
def logEntry (b : Binding) : LogEntry where
  level := .debug
  place := some b.span
  text  := "render function bound through " ++ b.binder ++ " (" ++ toString b.bindSites ++
    " bind calls, " ++ toString b.hoisted.length ++ " hoisted closures)"

end Binding

namespace Expansion

def bindings (e : Expansion) : List Binding := e.items.filterMap Emitted.binding?

-- What the items say that was done. The memoize function is imported if anything goes through a
-- binder.
def report (e : Expansion) : Report where
  renderFunctions    := e.detected
  rewrittenFunctions := e.bindings.length
  bindSites          := e.bindings.foldr (·.bindSites + ·) 0
  hoistedClosures    := e.bindings.foldr (·.hoisted.length + ·) 0
  importInserted     := !e.bindings.isEmpty

end Expansion

-- Whether a script has to load the memoize function otherwise than its options say.
def requireInstead (kind : ProgramKind) (style : ImportStyle) : Bool :=
  kind == .script && style == .esModule

-- The item that brings the memoize function into scope.
def memoizeImport (kind : ProgramKind) (c : Config) (memoize : String) : Node :=
  match kind, c.importStyle with
  | .module, .esModule => .defaultImport memoize c.memoizeModule
  | _, _ => requireDeclaration memoize c.memoizeModule

-- A program after a run, with the account that the run gives of itself.
structure Outcome where
  program : Program
  report  : Report
  log     : List LogEntry

namespace Program

-- The expansion of the items of a program. The name of the memoize function is taken first, whether
-- or not it will be used.
def expansion (p : Program) (dedupe : Bool) : String × Expansion :=
  let (memoize, names) := (Names.mk (p.idents.map Ident.name)).generate "memoize"
  (memoize, expandItems dedupe p.body names)

-- Leads the bind calls and closures of all render functions through memoized binders. The log is that of a
-- build with debug assertions. The entry with the report, which closes it, is missing in a build without.
def memoize (p : Program) (c : Config) : Outcome :=
  let (memoize, e) := p.expansion c.dedupeCaptures
  let report := e.report
  let body := e.items.map (·.node memoize c.cacheSize)
  { report
    program :=
      { p with body := if report.importInserted then memoizeImport p.kind c memoize :: body else body }
    log :=
      e.bindings.map Binding.logEntry ++
      (if report.importInserted && requireInstead p.kind c.importStyle then
        [.warn ("scripts cannot use import declarations, loading " ++ c.memoizeModule ++
          " with require instead")]
      else []) ++
      [.debug report.text] }

end Program

end RenderMemo
