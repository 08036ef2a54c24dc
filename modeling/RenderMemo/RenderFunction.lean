import RenderMemo.Tree.Basic

namespace RenderMemo

-- The shapes of functions that can own a binder.
inductive RenderKind where
  | renderMethod
  | functionDeclaration
  | functionExpression
  | arrow
deriving DecidableEq, Repr

namespace RenderKind

def text : RenderKind → String
  | renderMethod => "renderMethod"
  | functionDeclaration => "fnDecl"
  | functionExpression => "fnExpr"
  | arrow => "arrow"

end RenderKind

-- A function that produces markup. The insertion point is the index of the top-level item in which
-- the function stands.
structure RenderFunction where
  kind           : RenderKind
  name           : Option String
  span           : Span
  insertionPoint : Nat
deriving DecidableEq, Repr

def Label.isMarkup : Label → Bool
  | .form .jsxElement _ _ => true
  | .form .jsxFragment _ _ => true
  | _ => false

-- Whether a tree contains an element or a fragment.
mutual

def Node.hasMarkup : Node → Bool
  | .mk l es => l.isMarkup || edgesHaveMarkup es

def edgesHaveMarkup : List Edge → Bool
  | [] => false
  | (_, n) :: es => n.hasMarkup || edgesHaveMarkup es

end

namespace Node

def isRenderName : Node → Bool
  | mk (.name text _) _ => text == "render"
  | _ => false

-- The name in the place of a declared identifier.
def declaredName? (n : Node) : Option String :=
  (n.at .identifier).findSome? fun
    | mk (.ident i) _ => some i.name
    | _ => none

-- The shape in which a node is a render function, if it is one. A method has to be called `render`,
-- and an arrow function has to contain markup in its body, while any other function may contain it
-- anywhere.
def renderKind? (n : Node) : Option RenderKind :=
  match n.kind? with
  | some .classMethod | some .methodProperty =>
    if (n.at .key).any isRenderName && n.hasMarkup then some .renderMethod else none
  | some .functionDeclaration => if n.hasMarkup then some .functionDeclaration else none
  | some .functionExpression => if n.hasMarkup then some .functionExpression else none
  | some .arrowFunctionExpression => if (n.at .body).any hasMarkup then some .arrow else none
  | _ => none

def renderName? (n : Node) : RenderKind → Option String
  | .renderMethod => some "render"
  | .functionDeclaration | .functionExpression => n.declaredName?
  | .arrow => none

-- The node as a render function below the top-level item at an index.
def asRenderFunction? (n : Node) (insertionPoint : Nat) : Option RenderFunction :=
  n.renderKind?.map fun kind => ⟨kind, n.renderName? kind, n.span, insertionPoint⟩

-- A render function without a body (an overload or a declaration) has nothing to rewrite.
def isRenderWithBody (n : Node) : Bool :=
  n.renderKind?.isSome && !(n.at .body).isEmpty

-- The number of render functions with a body.
def renderCount (n : Node) : Nat := n.count isRenderWithBody

end Node

-- All render functions of a tree, a function before those inside it.
mutual

def Node.renderFunctions (insertionPoint : Nat) : Node → List RenderFunction
  | .mk l es =>
    ((Node.mk l es).asRenderFunction? insertionPoint).toList ++
      renderFunctionsOfEdges insertionPoint es

def renderFunctionsOfEdges (insertionPoint : Nat) : List Edge → List RenderFunction
  | [] => []
  | (_, n) :: es => n.renderFunctions insertionPoint ++ renderFunctionsOfEdges insertionPoint es

end

end RenderMemo
