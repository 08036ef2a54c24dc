import RenderMemo.RenderFunction
import RenderMemo.Tree.Interchange

namespace RenderMemo

-- A module may import by declaration, a script may not.
inductive ProgramKind where
  | module
  | script
deriving DecidableEq, Repr

-- A whole program: its top-level items with what is said at its top.
structure Program where
  kind        : ProgramKind
  span        : Span := .generated
  interpreter : Option String := none
  body        : List Node

namespace Program

-- The identifiers of a program, wherever they stand.
def idents (p : Program) : List Ident := p.body.flatMap Node.idents

-- Lists every render function of a program, item by item.
def renderFunctions (p : Program) : List RenderFunction :=
  p.body.zipIdx.flatMap fun (item, i) => item.renderFunctions i

open Interchange

def typeName (p : Program) : String :=
  match p.kind with
  | .module => "Module"
  | .script => "Script"

-- Reads a program from its interchange form.
def ofJson? (j : Json) : Except TreeError Program := do
  let kind ← match j.get? "type" with
    | some (.str "Module") => pure ProgramKind.module
    | some (.str "Script") => pure .script
    | some (.str name) => throw (.unknownType name)
    | _ => throw .noType
  let span ← match j.get? "span" with
    | none => pure .generated
    | some s => match readSpan s with
      | some s => pure s
      | none => throw (.malformed "Program" "span")
  let interpreter ← match j.get? "interpreter" with
    | none => pure none
    | some (.str s) => pure (some s)
    | some _ => throw (.malformed "Program" "interpreter")
  match j.get? "body" with
  | some (.arr items) => return { kind, span, interpreter, body := ← items.mapM Node.ofJson? }
  | some _ => throw (.malformed "Program" "body")
  | none => throw (.missing "Program" "body")

-- The interchange form of a program.
def toJson (p : Program) : Json :=
  .obj (("type", .str p.typeName) :: writeSpanMember p.span ++
    [("body", .arr (p.body.map Node.toJson))] ++
    (p.interpreter.map fun s => ("interpreter", Json.str s)).toList)

end Program

end RenderMemo
