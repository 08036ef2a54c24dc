import RenderMemo.Proofs.Scopes
import RenderMemo.Proofs.TextOrder

open List

namespace RenderMemo

-- The ways in which names are declared. The last two exist in TypeScript only: parameters that are
-- properties of the constructed object as well, and enumerations with their members, namespaces and types.
inductive Declaration where
  | parameter
  -- A declaration for the whole function, like that of `var`.
  | variable
  -- A declaration for the block in which it stands.
  | lexical
  | property
  | entity
deriving DecidableEq

namespace Declaration

def isTyped : Declaration → Bool
  | property | entity => true
  | _ => false

def isParameter : Declaration → Bool
  | parameter | property => true
  | _ => false

-- Whether the name is declared in the function around it, and not in the next block.
def isForFunction : Declaration → Bool
  | lexical | entity => false
  | _ => true

end Declaration

-- What an identifier is there for. A tag names a host element or refers to a variable, by its name. An
-- identifier without a role is a label, repeats a tag, or belongs to a type.
inductive Role where
  | refers
  | tags
  | declares (d : Declaration)
  | none
deriving DecidableEq

-- A pattern that declares nothing is assigned to, and refers to what it is made of.
def Role.passedOn : Role → Role
  | declares d => declares d
  | _ => refers

-- A scope is opened by a form in some place of the tree. A form opens a scope of either sort at most.
structure Scope where
  place      : List Nat
  isFunction : Bool
deriving DecidableEq

-- A scope as it is seen from inside. The default values of parameters see nothing of their function but
-- the parameters.
structure Sight where
  scope          : Scope
  parametersOnly : Bool
deriving DecidableEq

-- How a form opens a scope around one of its parts. The scope of a function is seen in another way from its
-- parameters than from its body.
inductive Opening where
  | block
  | function
  | parameters
deriving DecidableEq

-- What surrounds a node: the scopes from the innermost outwards, what an identifier in the place of the
-- node is there for, the form that the node is a part of, and the way to the node.
structure Surroundings where
  sights : List Sight
  role   : Role
  silent : Bool
  parent : Label
  place  : List Nat

-- An identifier that stands for a variable. It refers to one unless it declares one.
structure Spot where
  ident    : Ident
  declares : Option Declaration
  sights   : List Sight
deriving DecidableEq

-- Declarations with `var`, as against those with `let` and `const`.
def Label.isVar : Label → Bool
  | .form .variableDeclaration _ attrs =>
    match attrs.lookup "kind" with
    | some (.str kind) => kind == "var"
    | _ => false
  | _ => false

namespace Kind

def isTypeScript : Kind → Bool
  | tsTypeAnnot | tsTypeParameterDeclaration | tsTypeParameter | tsTypeParameterInstantiation
  | tsParameterProperty | tsQualifiedName | tsCallSignatureDeclaration
  | tsConstructSignatureDeclaration | tsPropertySignature | tsGetterSignature | tsSetterSignature
  | tsMethodSignature | tsIndexSignature | tsTupleElement | templateLiteralType
  | tsInterfaceDeclaration | tsInterfaceBody | tsExpressionWithTypeArguments
  | tsTypeAliasDeclaration | tsEnumDeclaration | tsEnumMember | tsModuleDeclaration | tsModuleBlock
  | tsNamespaceDeclaration | tsImportEqualsDeclaration | tsExternalModuleReference
  | tsExportAssignment | tsNamespaceExportDeclaration | tsAsExpression | tsTypeAssertion
  | tsNonNullExpression | tsSatisfiesExpression | tsConstAssertion | tsInstantiation => true
  | k => k.isType

-- The forms with a body in which `var` declares.
def hasVariables : Kind → Bool
  | functionDeclaration | functionExpression | arrowFunctionExpression | methodProperty | classMethod
  | privateMethod | classConstructor | getterProperty | setterProperty | staticBlock => true
  | _ => false

-- The places in which no identifier has a role, unless it declares a name: labels, tags that are
-- repeated, and types.
def isSilent (k : Kind) (f : Field) : Bool :=
  match k, f with
  | labeledStatement, .label | breakStatement, _ | continueStatement, _ | jsxClosingElement, _
  | tsTypeParameterDeclaration, _ | tsTypeParameterInstantiation, _ => true
  | k, _ => k.isType

-- What a place of a form declares. A function that is declared in a block belongs to the block in strict
-- code, and to the function around it in sloppy code.
def declaration? (k : Kind) (f : Field) (strict : Bool) (parent : Label) : Option Declaration :=
  match k, f with
  | variableDeclarator, .id => some (if parent.isVar then .variable else .lexical)
  | parameter, .pat | arrowFunctionExpression, .params | setterProperty, .param => some .parameter
  | functionDeclaration, .identifier => some (if strict then .lexical else .variable)
  | functionExpression, .identifier | classDeclaration, .identifier | classExpression, .identifier
  | catchClause, .param => some .lexical
  | tsParameterProperty, .param => some .property
  | tsEnumDeclaration, .id | tsEnumMember, .id | tsModuleDeclaration, .id | tsNamespaceDeclaration, .id
  | tsImportEqualsDeclaration, .id | tsInterfaceDeclaration, .id | tsTypeAliasDeclaration, .id => some .entity
  | _, _ => none

-- The places of a pattern that declare what the pattern is to declare. Default values and computed keys
-- are not among them.
def passesOn (k : Kind) (f : Field) : Bool :=
  match k, f with
  | arrayPattern, .elements | objectPattern, .properties | keyValuePatternProperty, .value
  | assignmentPatternProperty, .key | restElement, .argument | assignmentPattern, .left => true
  | _, _ => false

-- What an identifier in a place of a form is there for.
def role (k : Kind) (f : Field) (strict : Bool) (parent : Label) (outer : Role) : Role :=
  match k.declaration? f strict parent with
  | some d => .declares d
  | none =>
    if k.passesOn f then outer.passedOn
    else if k == .jsxOpeningElement && f == .name then .tags
    else .refers

-- The scopes that a form opens around its part in some place, from the innermost outwards. A block that is
-- the body of a function opens no scope beside that of the function.
def opens (k : Kind) (f : Field) (parent : Label) : List Opening :=
  match k, f with
  | functionExpression, .identifier | classExpression, .identifier | classExpression, .superClass
  | classExpression, .body => [.block]
  | functionExpression, .params => [.parameters, .block]
  | functionExpression, .body => [.function, .block]
  | functionDeclaration, .params | arrowFunctionExpression, .params | methodProperty, .params
  | classMethod, .params | privateMethod, .params | classConstructor, .params
  | setterProperty, .param => [.parameters]
  | functionDeclaration, .body | arrowFunctionExpression, .body | methodProperty, .body
  | classMethod, .body | privateMethod, .body | classConstructor, .body | getterProperty, .body
  | setterProperty, .body | staticBlock, .body => [.function]
  | blockStatement, _ => if parent.kind?.any hasVariables then [] else [.block]
  | forStatement, _ | forInStatement, _ | forOfStatement, _ | catchClause, _ | switchStatement, .cases
  | tsEnumDeclaration, .members => [.block]
  | _, _ => []

end Kind

namespace Surroundings

variable (strict : List Nat → Bool) (σ : Surroundings)

-- What surrounds the part of a form that stands on an edge.
def enter (l : Label) (index : Nat) (f : Field) : Surroundings :=
  let silent := σ.silent || l.kind?.any (·.isSilent f)
  let role := (l.kind?.map fun k => k.role f (strict σ.place) σ.parent σ.role).getD .refers
  let opened := (l.kind?.map fun k => k.opens f σ.parent).getD []
  { sights := opened.map (fun o => ⟨⟨σ.place, o != .block⟩, o == .parameters⟩) ++ σ.sights
    role   := match role with
      | .declares d => .declares d
      | role => if silent then .none else role
    silent := silent
    parent := l
    place  := index :: σ.place }

-- The identifier of a node, if it stands for a variable.
def spot? (l : Label) : Option Spot :=
  match l.ident?, σ.role with
  | some i, .refers => some ⟨i, none, σ.sights⟩
  | some i, .declares d => some ⟨i, some d, σ.sights⟩
  | some i, .tags => if isIntrinsicTag i.name then none else some ⟨i, none, σ.sights⟩
  | _, _ => none

end Surroundings

-- The variables of a tree in some order of the places of each form.
mutual

def Node.spots (rank : Label → Field → Nat) (strict : List Nat → Bool) (σ : Surroundings) :
    Node → List Spot
  | .mk l es => (σ.spot? l).toList ++ arranged (rank l) (spotsOfParts rank strict σ l 0 es)

def spotsOfParts (rank : Label → Field → Nat) (strict : List Nat → Bool) (σ : Surroundings) (l : Label) :
    Nat → List Edge → List (Field × List Spot)
  | _, [] => []
  | index, (f, n) :: es =>
    (f, n.spots rank strict (σ.enter strict l index f)) :: spotsOfParts rank strict σ l (index + 1) es

end

-- A name as it is declared in a scope.
structure Declared where
  name        : String
  scope       : Scope
  isParameter : Bool

namespace Spot

-- The scope in which a spot declares.
def home (s : Spot) (d : Declaration) : Option Scope :=
  (s.sights.find? fun v => !d.isForFunction || v.scope.isFunction).map Sight.scope

def declared? (s : Spot) : Option Declared := do
  let d ← s.declares
  return ⟨s.ident.name, ← s.home d, d.isParameter⟩

end Spot

-- Whether a declaration is seen from where a scope is seen.
def Sight.shows (v : Sight) (d : Declared) : Bool :=
  d.scope == v.scope && (!v.parametersOnly || d.isParameter)

-- The scope of the variable that a spot stands for: that of the innermost declaration of the name in
-- sight. There is none if the name is not declared in the tree.
def Spot.scopeIn (declared : List Declared) (s : Spot) : Option Scope :=
  match s.declares with
  | some d => s.home d
  | none =>
    (s.sights.find? fun v => declared.any fun d => d.name == s.ident.name && v.shows d).map Sight.scope

namespace Node

-- An arrow function without its types.
def closure (n : Node) : Node :=
  .mk (.form .arrowFunctionExpression .generated [])
    ((n.at .params).map (.params, ·) ++ (n.at .body).map (.body, ·))

section

variable (rank : Label → Field → Nat) (strict : List Nat → Bool) (n : Node)

-- The variables of an arrow function, with the scopes that are opened in the function.
def spotsInside : List Spot := n.closure.spots rank strict ⟨[], .refers, false, .hole, []⟩

-- What is declared in an arrow function.
def declarations : List Declared := (n.spotsInside Label.unranked strict).filterMap Spot.declared?

def scopeOf (s : Spot) : Option Scope := s.scopeIn (n.declarations strict)

-- The references of an arrow function to what is declared outside of it. `arguments` is not among them,
-- as every function has its own.
def freeVariables : List Ident :=
  ((n.spotsInside rank strict).filter fun s =>
    s.declares.isNone && (n.scopeOf strict s).isNone && s.ident.name != "arguments").map Spot.ident

end

-- Variables are resolved if they have the same binding exactly if they have the same name and it is
-- declared in the same scope.
def ResolvedBy (strict : List Nat → Bool) (n : Node) : Prop :=
  ∀ s ∈ n.spotsInside Label.unranked strict, ∀ t ∈ n.spotsInside Label.unranked strict,
    s.ident.binding = t.ident.binding ↔
      s.ident.name = t.ident.name ∧ n.scopeOf strict s = n.scopeOf strict t

-- Without types, no form of TypeScript occurs, and an identifier has no parts.
def IsPlain (n : Node) : Prop :=
  ∀ m ∈ n.subtrees, m.kind?.any Kind.isTypeScript = false ∧ (m.label.ident?.isSome → m.edges = [])

instance (strict : List Nat → Bool) (n : Node) : Decidable (n.ResolvedBy strict) :=
  inferInstanceAs (Decidable (∀ s ∈ _, ∀ t ∈ _, _))

instance (n : Node) : Decidable n.IsPlain :=
  inferInstanceAs (Decidable (∀ m ∈ n.subtrees, _ ∧ _))

end Node

-- The variables of a node are its own and those of its parts.

section

variable {rank : Label → Field → Nat} {strict : List Nat → Bool} {σ : Surroundings} {l : Label}
  {es : List Edge} {s : Spot}

theorem mem_spotsOfParts {index : Nat} :
    (∃ p ∈ spotsOfParts rank strict σ l index es, s ∈ p.2) ↔
      ∃ j, ∃ e : Edge, es[j]? = some e ∧
        s ∈ e.2.spots rank strict (σ.enter strict l (index + j) e.1) := by
  induction es generalizing index
  case nil => simp [spotsOfParts]
  case cons e es hi =>
    simp only [spotsOfParts, List.mem_cons, exists_eq_or_imp, hi]
    constructor
    case mp =>
      intro h
      rcases h with h | ⟨j, e', he, h⟩
      · exact ⟨0, e, rfl, h⟩
      · exact ⟨j + 1, e', he, by rwa [Nat.add_right_comm] at h⟩
    case mpr =>
      intro h
      obtain ⟨j, e', he, h⟩ := h
      cases j
      case zero =>
        cases he
        exact .inl h
      case succ j => exact .inr ⟨j, e', he, by rwa [Nat.add_right_comm]⟩

theorem spotsOfParts_eq_map {index : Nat} :
    spotsOfParts rank strict σ l index es =
      (es.zipIdx index).map fun (e, j) => (e.1, e.2.spots rank strict (σ.enter strict l j e.1)) := by
  induction es generalizing index
  case nil         => rfl
  case cons _ _ hi => rw [spotsOfParts, zipIdx_cons, map_cons, hi]

theorem Node.mem_spots_mk :
    s ∈ (mk l es).spots rank strict σ ↔ σ.spot? l = some s ∨
      ∃ j, ∃ e : Edge, es[j]? = some e ∧ s ∈ e.2.spots rank strict (σ.enter strict l j e.1) := by
  simp only [spots, List.mem_append, Option.mem_toList, mem_arranged, mem_spotsOfParts, Nat.zero_add]

namespace Surroundings

theorem spot?_eq_some_iff :
    σ.spot? l = some s ↔ l.ident? = some s.ident ∧ s.sights = σ.sights ∧
      ((∃ d, s.declares = some d ∧ σ.role = .declares d) ∨ s.declares = none ∧
        (σ.role = .refers ∨ σ.role = .tags ∧ isIntrinsicTag s.ident.name = false)) := by
  obtain ⟨i, d, vs⟩ := s
  simp only [spot?]
  split
  all_goals simp_all
  all_goals grind

theorem role_enter {j : Nat} {f : Field} {d : Declaration} :
    (σ.enter strict l j f).role = .declares d ↔
      ∃ k, l.kind? = some k ∧ k.role f (strict σ.place) σ.parent σ.role = .declares d := by
  cases hk : l.kind?
  case none =>
    simp only [enter, hk]
    grind
  case some k =>
    simp only [enter, hk, Option.map_some, Option.getD_some, Option.some.injEq, exists_eq_left']
    grind

theorem sights_enter {j : Nat} {f : Field} : σ.sights <:+ (σ.enter strict l j f).sights :=
  List.suffix_append ..

end Surroundings

-- What is seen from around a node is seen from everywhere in it.
theorem Node.sights_suffix {n : Node} (h : s ∈ n.spots rank strict σ) : σ.sights <:+ s.sights := by
  induction n using Node.partsInduction generalizing σ
  case step l es hi =>
    cases mem_spots_mk.mp h
    case inl h => exact (Surroundings.spot?_eq_some_iff.mp h).2.1 ▸ List.suffix_refl _
    case inr h =>
      have ⟨j, e, he, h⟩ := h
      exact σ.sights_enter.trans <| hi e (List.mem_of_getElem? he) h

end

namespace Node

variable {n : Node}

-- The parts of an arrow function.

@[simp]
theorem at_params_closure (n : Node) : n.closure.at .params = n.at .params := by
  simp [closure, «at», edges, List.filterMap_append, List.filterMap_map]

@[simp]
theorem at_body_closure (n : Node) : n.closure.at .body = n.at .body := by
  simp [closure, «at», edges, List.filterMap_append, List.filterMap_map]

@[simp]
theorem functionParts_closure (n : Node) : n.closure.functionParts = n.functionParts := by
  simp [functionParts]

@[simp]
theorem isFreeIn_closure (n : Node) : n.closure.isFreeIn = n.isFreeIn := by
  funext i
  simp [isFreeIn]

theorem mem_edges_closure {e : Edge} (he : e ∈ n.closure.edges) : e.1 = .params ∨ e.1 = .body := by
  simp only [closure, edges, List.mem_append, List.mem_map] at he
  rcases he with ⟨_, _, rfl⟩ | ⟨_, _, rfl⟩
  · exact .inl rfl
  · exact .inr rfl

theorem mem_subtrees_closure {m : Node} (hm : m ∈ n.closure.subtrees) :
    m = n.closure ∨ m ∈ n.subtrees := by
  refine (mem_subtrees_mk.mp hm).imp_right fun hm => ?_
  have ⟨e, he, hm⟩ := hm
  simp only [List.mem_append, List.mem_map] at he
  rcases he with ⟨m', hm', rfl⟩ | ⟨m', hm', rfl⟩
  · exact subtrees_trans hm n <| mem_subtrees_of_mem_at hm'
  · exact subtrees_trans hm n <| mem_subtrees_of_mem_at hm'

theorem occurrences_closure (n : Node) : n.closure.occurrences = n.functionParts.flatMap occurrences := by
  have hk : Kind.arrowFunctionExpression.holdsNoReference = false := rfl
  simp [closure, occurrences, Label.kind?, Label.ident?, hk, occurrencesOfEdges_arrow, functionParts,
    List.flatMap_append, List.flatMap_map]

-- The names of the parameters, as an arrow function tells them from other names.
def parameterNames (n : Node) : List String :=
  ((n.at .params).flatMap bound).map Ident.name

theorem not_mem_parameterNames {name : String} :
    name ∉ n.parameterNames ↔ ∀ m, (.params, m) ∈ n.edges → ∀ j ∈ m.bound, j.name ≠ name := by
  simp only [parameterNames, List.mem_map, List.mem_flatMap, mem_at]
  grind

end Node

end RenderMemo
