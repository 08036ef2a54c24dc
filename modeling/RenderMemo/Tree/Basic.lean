import RenderMemo.Json.Basic
import RenderMemo.Tree.Kind

namespace RenderMemo

-- A stretch of source text, by the positions of its two ends. Positions count from one, so the span
-- `0-0` belongs to what stands in no source text.
@[ext]
structure Span where
  start : Nat := 0
  stop  : Nat := 0
deriving DecidableEq, Repr

namespace Span

-- The span of what was made and not read.
def generated : Span := ⟨0, 0⟩

def isGenerated (s : Span) : Bool := s == generated

end Span

-- An occurrence of a variable, label, tag or type name. Two occurrences of one name are the same
-- binding exactly if they have the same scope mark.
@[ext]
structure Ident where
  name     : String
  scope    : Nat  := 0
  span     : Span := .generated
  optional : Bool := false
deriving DecidableEq, Repr

namespace Ident

-- What an occurrence refers to.
def binding (i : Ident) : String × Nat := (i.name, i.scope)

theorem binding_eq_iff {i j : Ident} : i.binding = j.binding ↔ i.name = j.name ∧ i.scope = j.scope := by
  simp [binding]

end Ident

-- What a node says of itself: an identifier, a plain name (of a property, attribute or key, which
-- never refers to a variable), an empty place of an array, or one of the other forms with those of its
-- members that hold no tree.
inductive Label where
  | ident (i : Ident)
  | name (text : String) (span : Span)
  | hole
  | form (kind : Kind) (span : Span) (attrs : List (String × Json))

namespace Label

def kind? : Label → Option Kind
  | form k _ _ => some k
  | _ => none

def ident? : Label → Option Ident
  | ident i => some i
  | _ => none

end Label

-- A program tree. Every part of a node stands on an edge that names the place it has in the node, and
-- the edges stand in the order in which they are visited.
inductive Node where
  | mk (label : Label) (edges : List (Field × Node))

abbrev Edge := Field × Node

namespace Node

-- A tree is built up by adding parts in front of a node's other parts. What holds of the node without
-- parts and is kept by adding one holds of every tree.
@[elab_as_elim]
theorem edgeInduction {motive : Node → Prop} (leaf : ∀ l, motive (mk l []))
    (edge : ∀ l f n es, motive n → motive (mk l es) → motive (mk l ((f, n) :: es))) :
    ∀ n, motive n
  | mk l [] => leaf l
  | mk l ((f, n) :: es) =>
    edge l f n es (edgeInduction leaf edge n) (edgeInduction leaf edge (mk l es))

def label : Node → Label
  | mk l _ => l

def edges : Node → List Edge
  | mk _ es => es

@[simp]
theorem mk_label_edges (n : Node) : mk n.label n.edges = n := by
  cases n; rfl

-- The parts in one place, in order.
def «at» (n : Node) (f : Field) : List Node :=
  n.edges.filterMap fun (g, m) => if g = f then some m else none

def kind? (n : Node) : Option Kind := n.label.kind?

def isKind (n : Node) (k : Kind) : Bool := n.kind? == some k

-- The span of a node, also of an identifier or a plain name.
def span : Node → Span
  | mk (.ident i) _ => i.span
  | mk (.name _ s) _ => s
  | mk .hole _ => .generated
  | mk (.form _ s _) _ => s

def attrs : Node → List (String × Json)
  | mk (.form _ _ as) _ => as
  | _ => []

end Node

-- The number of nodes of a tree that satisfy a test.
mutual

def Node.count (p : Node → Bool) : Node → Nat
  | .mk l es => (if p (.mk l es) then 1 else 0) + countEdges p es

def countEdges (p : Node → Bool) : List Edge → Nat
  | [] => 0
  | (_, n) :: es => n.count p + countEdges p es

end

-- All identifiers of a tree in the order of the visit.
mutual

def Node.idents : Node → List Ident
  | .mk l es => l.ident?.toList ++ identsOfEdges es

def identsOfEdges : List Edge → List Ident
  | [] => []
  | (_, n) :: es => n.idents ++ identsOfEdges es

end

end RenderMemo
