import RenderMemo.Tree.Basic

namespace RenderMemo

-- The places of a pattern through which it binds names. A default value is none of them.
def Kind.bindsThrough : Kind → Field → Bool
  | .arrayPattern, .elements
  | .objectPattern, .properties
  | .keyValuePatternProperty, .value
  | .assignmentPatternProperty, .key
  | .restElement, .argument
  | .assignmentPattern, .left => true
  | _, _ => false

-- The places that declare the names bound by the pattern in them.
def Kind.declares : Kind → Field → Bool
  | .variableDeclarator, .id
  | .parameter, .pat
  | .arrowFunctionExpression, .params
  | .setterProperty, .param
  | .catchClause, .param
  | .functionDeclaration, .identifier
  | .functionExpression, .identifier
  | .classDeclaration, .identifier
  | .classExpression, .identifier => true
  | _, _ => false

-- The forms in which no identifier refers to a variable: types, jumps to a label, and closing tags,
-- which only repeat the opening tag.
def Kind.holdsNoReference (k : Kind) : Bool :=
  k.isType || k == .tsTypeParameterDeclaration || k == .tsTypeParameterInstantiation ||
    k == .jsxClosingElement || k == .breakStatement || k == .continueStatement

-- `<div>` and `<my-element>` name host elements, not variables.
def isIntrinsicTag (name : String) : Bool :=
  match name.toList with
  | [] => false
  | c :: cs => ('a' ≤ c && c ≤ 'z') || (c :: cs).contains '-'

-- Whether an identifier in a place is a label or the tag of a host element.
def Kind.holdsLabelOrTag (k : Kind) (f : Field) (n : Node) : Bool :=
  match k, f, n.label with
  | .labeledStatement, .label, _ => true
  | .jsxOpeningElement, .name, .ident i => isIntrinsicTag i.name
  | _, _, _ => false

-- The identifiers that a pattern binds.
mutual

def Node.bound : Node → List Ident
  | .mk (.ident i) _ => [i]
  | .mk (.form k _ _) es => boundByEdges k es
  | _ => []

def boundByEdges (k : Kind) : List Edge → List Ident
  | [] => []
  | (f, n) :: es => (if k.bindsThrough f then n.bound else []) ++ boundByEdges k es

end

-- The identifiers declared anywhere in a tree, at any depth.
mutual

def Node.declared : Node → List Ident
  | .mk l es => declaredByEdges l.kind? es

def declaredByEdges (k : Option Kind) : List Edge → List Ident
  | [] => []
  | (f, n) :: es =>
    (if k.any (·.declares f) then n.bound else []) ++ n.declared ++ declaredByEdges k es

end

-- The identifiers of a tree that stand where a variable is meant, in the order of the visit. The
-- identifiers that a pattern binds are among them.
mutual

def Node.occurrences : Node → List Ident
  | .mk l es =>
    if l.kind?.any Kind.holdsNoReference then []
    else l.ident?.toList ++ occurrencesOfEdges l.kind? es

def occurrencesOfEdges (k : Option Kind) : List Edge → List Ident
  | [] => []
  | (f, n) :: es =>
    (if k.any (·.holdsLabelOrTag f n) then [] else n.occurrences) ++ occurrencesOfEdges k es

end

namespace Node

-- The parts of a function in which its own bindings are visible.
def functionParts (n : Node) : List Node :=
  n.at .params ++ n.at .body

-- Whether an occurrence inside an arrow function refers to something outside of it. Parameters are
-- told by name alone, other declarations by what they bind, and `arguments` cannot be passed on, as
-- every function has its own.
def isFreeIn (arrow : Node) (i : Ident) : Bool :=
  !(((arrow.at .params).flatMap bound).map Ident.name).contains i.name &&
    i.name != "arguments" &&
    !((arrow.functionParts.flatMap declared).map Ident.binding).contains i.binding

-- The variables that an arrow function takes from its surroundings, once for each occurrence:
-- first those in default values of the parameters, then those in the body.
def captured (arrow : Node) : List Ident :=
  (arrow.functionParts.flatMap occurrences).filter arrow.isFreeIn

end Node

-- Keeps the first occurrence of every binding.
def firstOccurrences : List Ident → List Ident
  | [] => []
  | i :: is => i :: (firstOccurrences is).filter (·.binding != i.binding)

end RenderMemo
