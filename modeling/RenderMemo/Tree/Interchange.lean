import RenderMemo.Decimal.Double
import RenderMemo.Tree.Basic
import RenderMemo.Tree.Shape

namespace RenderMemo

-- Why a value is not the interchange form of a tree.
inductive TreeError where
  | noType
  | unknownType (name : String)
  | notANode
  | missing (type : String) (member : String)
  | malformed (type : String) (member : String)
deriving DecidableEq, Repr

namespace TreeError

def message : TreeError → String
  | noType => "a node has no type"
  | unknownType name => "unknown node type " ++ name
  | notANode => "a node is expected"
  | missing type member => "missing " ++ member ++ " in " ++ type
  | malformed type member => "malformed " ++ member ++ " in " ++ type

end TreeError

namespace Interchange

-- What one value of the interchange form stands for once its parts are read. A method holds its
-- function in a value of its own, which becomes part of the method's node.
inductive Part where
  | value (j : Json)
  | node (n : Node)
  | nodes (raw : List Json) (ns : List Node)
  | function (span : Span) (attrs : List (String × Json)) (edges : List Edge)

namespace Part

-- The value itself where it stands for no tree.
def json? : Part → Option Json
  | value j => some j
  | nodes raw [] => some (.arr raw)
  | _ => none

def node? : Part → Option Node
  | node n => some n
  | _ => none

def nodes? : Part → Option (List Node)
  | nodes _ ns => some ns
  | _ => none

end Part

def readSpan : Json → Option Span
  | .arr [.num (.ofNat start) 0, .num (.ofNat stop) 0] => some ⟨start, stop⟩
  | _ => none

def writeSpan (s : Span) : Json :=
  .arr [.nat s.start, .nat s.stop]

-- The span of a node, which is left out where there is none.
def spanOf (type : String) (parts : List (String × Part)) : Except TreeError Span :=
  match parts.lookup "span" with
  | none => .ok .generated
  | some p =>
    match p.json?.bind readSpan with
    | some s => .ok s
    | none => .error (.malformed type "span")

def textOf (type key : String) (parts : List (String × Part)) : Except TreeError String :=
  match parts.lookup key with
  | some (.value (.str s)) => .ok s
  | some _ => .error (.malformed type key)
  | none => .error (.missing type key)

-- The edges to the parts in one place.
def edgesAt (type : String) (parts : List (String × Part)) (place : Field × Arity) :
    Except TreeError (List Edge) :=
  let (field, arity) := place
  match parts.lookup field.text, arity with
  | some (.node n), .one | some (.node n), .optional => .ok [(field, n)]
  | some (.nodes _ ns), .list | some (.nodes _ ns), .optionalList => .ok (ns.map (field, ·))
  | none, .optional | none, .optionalList => .ok []
  | none, _ => .error (.missing type field.text)
  | some _, _ => .error (.malformed type field.text)

-- The members that hold no tree. An argument list that may be left out is kept here if it is empty,
-- which tells it from one that is left out.
def attrsOf (type : String) (places : List (Field × Arity)) (parts : List (String × Part)) :
    Except TreeError (List (String × Json)) :=
  parts.filterMapM fun (key, p) =>
    if key == "type" || key == "span" then
      .ok none
    else
      match places.find? (·.1.text == key), p with
      | some (_, .optionalList), .nodes raw [] => .ok (some (key, .arr raw))
      | some _, _ => .ok none
      | none, p =>
        match p.json? with
        | some j => .ok (some (key, j))
        | none => .error (.malformed type key)

def readForm (kind : Kind) (type : String) (parts : List (String × Part)) : Except TreeError Node := do
  let span ← spanOf type parts
  let edges ← kind.places.mapM (edgesAt type parts)
  let attrs ← attrsOf type kind.places parts
  return .mk (.form kind span attrs) edges.flatten

def functionPlaces : List (Field × Arity) :=
  [(.params, .list), (.decorators, .list), (.body, .optional), (.typeParameters, .optional),
    (.returnType, .optional)]

-- The members of a function that hold no tree, as members of the method it belongs to.
def functionAttrs (span : Span) (attrs : List (String × Json)) : List (String × Json) :=
  if span.isGenerated then attrs else ("functionSpan", writeSpan span) :: attrs

def isFunctionAttr (key : String) : Bool :=
  key == "functionSpan" || key == "async" || key == "generator" || key == "ctxt"

-- A method: its key and, as its own, the places and members of its function.
def readMethod (kind : Kind) (type : String) (parts : List (String × Part)) :
    Except TreeError Node := do
  let span ← spanOf type parts
  match parts.lookup "function", parts.lookup "key" with
  | some (.function fspan fattrs fedges), some (.node key) =>
    let attrs ← attrsOf type [(.key, .one)] (parts.filter (·.1 != "function"))
    return .mk (.form kind span (attrs ++ functionAttrs fspan fattrs)) ((.key, key) :: fedges)
  | none, _ => throw (.missing type "function")
  | _, none => throw (.missing type "key")
  | _, _ => throw (.malformed type "function")

-- An identifier is told from a plain name by its scope mark.
def readIdentifier (parts : List (String × Part)) : Except TreeError Node := do
  let span ← spanOf "Identifier" parts
  let text ← textOf "Identifier" "value" parts
  match parts.lookup "ctxt" with
  | none => return .mk (.name text span) []
  | some (.value (.num (.ofNat scope) 0)) =>
    let optional := match parts.lookup "optional" with
      | some (.value (.bool b)) => b
      | _ => false
    let edges ← edgesAt "Identifier" parts (.annot, .optional)
    return .mk (.ident ⟨text, scope, span, optional⟩) edges
  | some _ => throw (.malformed "Identifier" "ctxt")

-- The call at the base of an optional chain is a form of its own.
def asChainBase : Edge → Edge
  | (.base, .mk (.form .callExpression s as) es) => (.base, .mk (.form .optionalCall s as) es)
  | e => e

def readNode (type : String) (parts : List (String × Part)) : Except TreeError Node :=
  if type == "Identifier" then
    readIdentifier parts
  else if type == "TemplateLiteral" && (parts.lookup "types").isSome then
    readForm .templateLiteralType type parts
  else
    match Kind.ofTypeName? type with
    | none => .error (.unknownType type)
    | some .classMethod => readMethod .classMethod type parts
    | some .privateMethod => readMethod .privateMethod type parts
    | some .optionalChainingExpression => do
      let n ← readForm .optionalChainingExpression type parts
      return .mk n.label (n.edges.map asChainBase)
    | some kind => readForm kind type parts

-- An object, whose parts are read. Entries and functions are written without a type.
def assemble (parts : List (String × Part)) : Except TreeError Part :=
  match parts.lookup "type" with
  | some (.value (.str type)) => .node <$> readNode type parts
  | some _ => .error .noType
  | none =>
    if (parts.lookup "expression").isSome then
      .node <$> readForm .entry "" parts
    else do
      let span ← spanOf "" parts
      let edges ← functionPlaces.mapM (edgesAt "" parts)
      let attrs ← attrsOf "" functionPlaces parts
      return .function span attrs edges.flatten

-- An array is a list of trees if each of its items is a tree or a hole.
def assembleItems (raw : List Json) (parts : List Part) : Part :=
  let nodes := parts.mapM fun
    | .node n => some n
    | .value .null => some (.mk .hole [])
    | _ => none
  match nodes with
  | some ns => .nodes raw ns
  | none => .value (.arr raw)

mutual

def read : Json → Except TreeError Part
  | .obj members => do
    let parts ← readMembers members
    assemble parts
  | .arr items => do
    let parts ← readItems items
    return assembleItems items parts
  | j => return .value j

def readMembers : List (String × Json) → Except TreeError (List (String × Part))
  | [] => return []
  | (key, j) :: ms => do
    let part ← read j
    let parts ← readMembers ms
    return (key, part) :: parts

def readItems : List Json → Except TreeError (List Part)
  | [] => return []
  | j :: js => do
    let part ← read j
    let parts ← readItems js
    return part :: parts

end

-- A whole number up to 2^53 is written as it is, any other by the digits of a double.
def writeNumber (value : Int) : Json :=
  if value.natAbs ≤ Nat.pow 2 53 then
    .int value
  else
    .str ((if value < 0 then "-" else "") ++ Decimal.shortest value.natAbs)

def writeAttr (kind : Kind) : String × Json → String × Json
  | ("value", .num value 0) =>
    if kind = .numericLiteral then ("value", writeNumber value) else ("value", .num value 0)
  | attr => attr

def writeSpanMember (s : Span) : List (String × Json) :=
  if s.isGenerated then [] else [("span", writeSpan s)]

-- The member for one place, from the written parts of all places.
def writePlace (edges : List (Field × Json)) : Field × Arity → List (String × Json)
  | (field, arity) =>
    let found := edges.filterMap fun (f, j) => if f = field then some j else none
    match arity, found with
    | .list, found => [(field.text, .arr found)]
    | _, [] => []
    | .optionalList, found => [(field.text, .arr found)]
    | _, j :: _ => [(field.text, j)]

def writePlaces (places : List (Field × Arity)) (edges : List (Field × Json)) : List (String × Json) :=
  places.flatMap (writePlace edges)

def writeMethod (attrs : List (String × Json)) (edges : List (Field × Json)) : List (String × Json) :=
  let own := attrs.filter (!isFunctionAttr ·.1)
  let functional := (attrs.filter (isFunctionAttr ·.1)).map fun (key, j) =>
    if key == "functionSpan" then ("span", j) else (key, j)
  own ++ writePlaces [(.key, .one)] edges ++
    [("function", .obj (functional ++ writePlaces functionPlaces edges))]

-- A node, from the written parts.
def writeNode : Label → List (Field × Json) → Json
  | .hole, _ => .null
  | .name text span, _ =>
    .obj (("type", .str "Identifier") :: writeSpanMember span ++ [("value", .str text)])
  | .ident i, edges =>
    .obj (("type", .str "Identifier") :: writeSpanMember i.span ++
      [("ctxt", .nat i.scope), ("value", .str i.name)] ++
      (if i.optional then [("optional", .bool true)] else []) ++
      writePlaces [(.annot, .optional)] edges)
  | .form .entry _ attrs, edges =>
    .obj (attrs ++ writePlaces Kind.entry.places edges)
  | .form kind span attrs, edges =>
    let members := match kind with
      | .classMethod | .privateMethod => writeMethod attrs edges
      | _ => attrs.map (writeAttr kind) ++ writePlaces kind.places edges
    .obj (("type", .str kind.typeName) :: writeSpanMember span ++ members)

mutual

def write : Node → Json
  | .mk label edges => writeNode label (writeEdges edges)

def writeEdges : List Edge → List (Field × Json)
  | [] => []
  | (field, n) :: es => (field, write n) :: writeEdges es

end

end Interchange

namespace Node

-- Reads a tree from its interchange form.
def ofJson? (j : Json) : Except TreeError Node := do
  match ← Interchange.read j with
  | .node n => return n
  | _ => throw .notANode

-- The interchange form of a tree.
def toJson (n : Node) : Json := Interchange.write n

end Node

end RenderMemo
