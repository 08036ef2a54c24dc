import RenderMemo.Tree.Basic

namespace RenderMemo.Node

-- The nodes that are made and not read. They stand in no source text, so they have no span.

def form (kind : Kind) (attrs : List (String × Json)) (edges : List Edge) : Node :=
  .mk (.form kind .generated attrs) edges

def ofIdent (i : Ident) : Node :=
  .mk (.ident i) []

-- A variable by its name alone, outside of every scope of the source text.
def named (name : String) : Node :=
  ofIdent { name }

def propertyName (text : String) : Node :=
  .mk (.name text .generated) []

def this : Node :=
  form .thisExpression [] []

def stringLiteral (text : String) : Node :=
  form .stringLiteral [("value", .str text)] []

def numericLiteral (value : Nat) : Node :=
  form .numericLiteral [("value", .nat value)] []

-- One plain argument of a call.
def entry (n : Node) : Node :=
  form .entry [] [(.expression, n)]

-- An argument that is spread.
def spreadEntry (n : Node) : Node :=
  form .entry [("spread", .arr [.nat 0, .nat 0])] [(.expression, n)]

-- A call with the span of what it stands for.
def callAt (span : Span) (callee : Node) (args : List Node) : Node :=
  .mk (.form .callExpression span []) ((.callee, callee) :: args.map (.arguments, ·))

def call (callee : Node) (args : List Node) : Node :=
  callAt .generated callee args

-- `object.property`
def member (object : Node) (property : String) : Node :=
  form .memberExpression [] [(.object, object), (.property, propertyName property)]

def restElement (n : Node) : Node :=
  form .restElement [("rest", .arr [.nat 0, .nat 0])] [(.argument, n)]

-- A parameter of a function that is not an arrow function.
def parameter (pattern : Node) : Node :=
  form .parameter [] [(.pat, pattern)]

-- `(params) => body`
def arrow (params : List Node) (body : Node) : Node :=
  form .arrowFunctionExpression [("async", .bool false), ("generator", .bool false)]
    (params.map (.params, ·) ++ [(.body, body)])

-- `{ return value; }`
def returnBlock (value : Node) : Node :=
  form .blockStatement [] [(.stmts, form .returnStatement [] [(.argument, value)])]

-- `const name = value;`
def constant (name : String) (value : Node) : Node :=
  form .variableDeclaration [("kind", .str "const"), ("declare", .bool false)]
    [(.declarations, form .variableDeclarator [("definite", .bool false)]
      [(.id, named name), (.init, value)])]

-- `import name from "source";`
def defaultImport (name source : String) : Node :=
  form .importDeclaration [("typeOnly", .bool false), ("phase", .str "evaluation")]
    [(.specifiers, form .importDefaultSpecifier [] [(.localName, named name)]),
      (.source, stringLiteral source)]

end RenderMemo.Node
