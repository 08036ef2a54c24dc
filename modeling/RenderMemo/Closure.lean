import RenderMemo.Capture
import RenderMemo.Tree.Build

namespace RenderMemo

def Label.isClosure : Label → Bool
  | .form .arrowFunctionExpression _ _ => true
  | _ => false

-- The arrow functions of a tree that stand in no other arrow function, in the order of the visit.
mutual

def Node.closures : Node → List Node
  | .mk l es => if l.isClosure then [.mk l es] else closuresOfEdges es

def closuresOfEdges : List Edge → List Node
  | [] => []
  | (_, n) :: es => n.closures ++ closuresOfEdges es

end

-- The number of all arrow functions of a tree, at any depth.
mutual

def Node.arrowCount : Node → Nat
  | .mk l es => (if l.isClosure then 1 else 0) + arrowCountOfEdges es

def arrowCountOfEdges : List Edge → Nat
  | [] => 0
  | (_, n) :: es => n.arrowCount + arrowCountOfEdges es

end

@[simp]
theorem arrowCountOfEdges_append (es fs : List Edge) :
    arrowCountOfEdges (es ++ fs) = arrowCountOfEdges es + arrowCountOfEdges fs := by
  induction es with
  | nil => simp [arrowCountOfEdges]
  | cons e es ih => simp [arrowCountOfEdges, ih, Nat.add_assoc]

theorem Node.arrowCount_le_of_mem_at {l : Label} {es : List Edge} {f : Field} {n : Node}
    (h : n ∈ (Node.mk l es).at f) : n.arrowCount ≤ arrowCountOfEdges es := by
  induction es with
  | nil => simp [Node.at, Node.edges] at h
  | cons e es ih =>
    obtain ⟨g, m⟩ := e
    simp only [Node.at, Node.edges, List.filterMap_cons] at h ih
    simp only [arrowCountOfEdges]
    split at h
    · exact Nat.le_add_left_of_le (ih h)
    · rename_i m' heq
      split at heq <;> simp at heq
      subst heq
      cases List.mem_cons.mp h
      case inl heq =>
        subst heq
        exact Nat.le_add_right ..
      case inr h => exact Nat.le_add_left_of_le (ih h)

-- A closure of a tree is an arrow function and contains no more arrow functions than the tree.
mutual

theorem Node.mem_closures {c : Node} : ∀ n : Node, c ∈ n.closures →
    c.label.isClosure ∧ c.arrowCount ≤ n.arrowCount
  | .mk l es, h => by
    simp only [Node.closures] at h
    split at h
    case isTrue hl => simp_all [Node.label]
    case isFalse hl =>
      have ⟨hc, hle⟩ := mem_closuresOfEdges es h
      exact ⟨hc, by simp [Node.arrowCount, hl, hle]⟩

theorem mem_closuresOfEdges {c : Node} : ∀ es : List Edge, c ∈ closuresOfEdges es →
    c.label.isClosure ∧ c.arrowCount ≤ arrowCountOfEdges es
  | [], h => by simp [closuresOfEdges] at h
  | (_, n) :: es, h => by
    simp only [closuresOfEdges, List.mem_append] at h
    simp only [arrowCountOfEdges]
    cases h
    case inl h =>
      have ⟨hc, hle⟩ := Node.mem_closures n h
      exact ⟨hc, by omega⟩
    case inr h =>
      have ⟨hc, hle⟩ := mem_closuresOfEdges es h
      exact ⟨hc, by omega⟩

end

-- The parts of the call `target.bind(...)`: its target, and what follows the callee.
def bindParts? : List Edge → Option (Node × List Edge)
  | (.callee, .mk (.form .memberExpression _ _)
      [(.object, target), (.property, .mk (.name "bind" _) [])]) :: rest => some (target, rest)
  | _ => none

namespace Node

-- Whether a node is a call of the form `target.bind(...)`.
def isBindCall : Node → Bool
  | mk (.form .callExpression _ _) es => (bindParts? es).isSome
  | _ => false

-- `target.bind(context, args)` becomes `binder(target, context, args)`. Anything else is kept.
def throughBinder (binder : String) : Node → Node
  | mk (.form .callExpression s as) es =>
    match bindParts? es with
    | some (target, rest) =>
      mk (.form .callExpression s as)
        ((.callee, named binder) :: (.arguments, entry target) :: rest)
    | none => mk (.form .callExpression s as) es
  | n => n

end Node

-- The number of bind calls of a tree that stand in no arrow function.
mutual

def Node.bindCalls : Node → Nat
  | .mk l es =>
    if l.isClosure then 0
    else (if (Node.mk l es).isBindCall then 1 else 0) + bindCallsOfEdges es

def bindCallsOfEdges : List Edge → Nat
  | [] => 0
  | (_, n) :: es => n.bindCalls + bindCallsOfEdges es

end

-- A tree with its bind calls led through a binder and its closures replaced, each by the replacement
-- at its place in the list of closures.
mutual

def Node.rebound (binder : String) : Node → List Node → Node
  | .mk l es, replacements =>
    if l.isClosure then replacements.headD (.mk l es)
    else (Node.mk l (reboundEdges binder es replacements)).throughBinder binder

def reboundEdges (binder : String) : List Edge → List Node → List Edge
  | [], _ => []
  | (f, n) :: es, replacements =>
    (f, n.rebound binder (replacements.take n.closures.length)) ::
      reboundEdges binder es (replacements.drop n.closures.length)

end

-- An arrow function to be declared at top level under a name of its own. The captured variables are
-- handed to it in front of its own parameters.
structure Hoisted where
  name     : String
  captured : List Ident
  arrow    : Node

namespace Hoisted

-- An expression body is returned by the body of the declaration.
def bodyBlock (n : Node) : Node :=
  if n.isKind .blockStatement then n else .returnBlock n

-- The place of an arrow function's part in the declaration made of it.
def declaredEdge : Edge → Edge
  | (.params, n) => (.params, .parameter n)
  | (.body, n) => (.body, bodyBlock n)
  | e => e

-- `function name(captured, params) { ... }`
def declaration (h : Hoisted) : Node :=
  .form .functionDeclaration
    (("declare", .bool false) :: ("generator", .bool false) ::
      h.arrow.attrs.filter (·.1 == "async"))
    ((.identifier, .named h.name) ::
      (h.captured.map fun i => (.params, .parameter (.ofIdent i))) ++
      h.arrow.edges.map declaredEdge)

-- `binder(name, this, captured)`, which stands where the arrow function stood.
def call (h : Hoisted) (binder : String) : Node :=
  .callAt h.arrow.span (.named binder)
    (.entry (.named h.name) :: .entry .this ::
      h.captured.map fun i => .entry (.ofIdent i))

@[simp]
theorem arrowCount_ofIdent (i : Ident) : (Node.ofIdent i).arrowCount = 0 := rfl

@[simp]
theorem arrowCount_parameter (n : Node) : (Node.parameter n).arrowCount = n.arrowCount := by
  simp [Node.parameter, Node.form, Node.arrowCount, arrowCountOfEdges, Label.isClosure]

theorem arrowCount_bodyBlock (n : Node) : (bodyBlock n).arrowCount = n.arrowCount := by
  unfold bodyBlock
  split <;> simp [Node.returnBlock, Node.form, Node.arrowCount, arrowCountOfEdges, Label.isClosure]

theorem arrowCount_declaredEdge (e : Edge) : (declaredEdge e).2.arrowCount = e.2.arrowCount := by
  obtain ⟨f, n⟩ := e
  unfold declaredEdge
  split
  case h_1 => simp_all
  case h_2 => simp_all [arrowCount_bodyBlock]
  case h_3 => rfl

-- The declaration contains the arrow functions of the hoisted one, without that one itself.
theorem arrowCount_declaration (h : Hoisted) :
    h.declaration.arrowCount = arrowCountOfEdges h.arrow.edges := by
  have hparts (es : List Edge) :
      arrowCountOfEdges (es.map declaredEdge) = arrowCountOfEdges es := by
    induction es with
    | nil => rfl
    | cons e es ih => simp [arrowCountOfEdges, ih, arrowCount_declaredEdge]
  have hcaptured (is : List Ident) :
      arrowCountOfEdges (is.map fun i => (.params, .parameter (.ofIdent i))) = 0 := by
    induction is with
    | nil => rfl
    | cons i is ih => simp [arrowCountOfEdges, ih]
  simp [declaration, Node.form, Node.named, Node.arrowCount, arrowCountOfEdges, Label.isClosure,
    hparts, hcaptured]

theorem arrowCount_declaration_lt {h : Hoisted} (hc : h.arrow.label.isClosure) :
    h.declaration.arrowCount < h.arrow.arrowCount := by
  rw [arrowCount_declaration]
  obtain ⟨name, captured, ⟨l, es⟩⟩ := h
  simp only [Node.label] at hc
  simp [Node.arrowCount, Node.edges, hc]

end Hoisted

end RenderMemo
