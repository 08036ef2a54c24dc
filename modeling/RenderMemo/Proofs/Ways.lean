import Mathlib.Data.List.Forall2
import RenderMemo.Proofs.Subtrees

open List

namespace RenderMemo

-- A way leads down into a tree. It says for each step which part to go to, by the number of the part.

def Node.reached? (n : Node) : List Nat → Option Node
  | [] => some n
  | i :: w => n.edges[i]?.bind fun e => e.2.reached? w

-- All ways of a tree, each in front of those that go on from it.
mutual

def Node.ways : Node → List (List Nat)
  | .mk _ es => [] :: waysOfEdges 0 es

def waysOfEdges (i : Nat) : List Edge → List (List Nat)
  | [] => []
  | (_, n) :: es => n.ways.map (i :: ·) ++ waysOfEdges (i + 1) es

end

theorem mem_waysOfEdges {k : Nat} {w : List Nat} {es : List Edge} :
    w ∈ waysOfEdges k es ↔ ∃ i e, es[i]? = some e ∧ ∃ u ∈ e.2.ways, w = (k + i) :: u := by
  induction es generalizing k
  case nil => simp [waysOfEdges]
  case cons e es hi =>
    rw [waysOfEdges, mem_append, mem_map, hi]
    constructor
    case mp =>
      rintro (⟨u, hu, rfl⟩ | ⟨i, e', he, u, hu, rfl⟩)
      · exact ⟨0, e, rfl, u, hu, rfl⟩
      · exact ⟨i + 1, e', he, u, hu, by rw [Nat.add_assoc, Nat.add_comm 1 i]⟩
    case mpr =>
      rintro ⟨i, e', he, u, hu, rfl⟩
      cases i
      case zero =>
        cases he
        exact .inl ⟨u, hu, rfl⟩
      case succ i => exact .inr ⟨i, e', he, u, hu, by rw [Nat.add_assoc, Nat.add_comm 1 i]⟩

section

variable {v w : List Nat} {ws : List (List Nat)}

-- A way that comes later does not start in front.
theorem headD_le_of_lt (h : v < w) : v.headD 0 ≤ w.headD 0 := by
  cases v
  case nil => exact Nat.zero_le _
  case cons i v =>
    cases w
    case nil => nomatch h
    case cons j w => exact (cons_lt_cons_iff.mp h).elim Nat.le_of_lt fun h => Nat.le_of_eq h.1

-- A way comes in front of those that go on from it.
theorem lt_append_of_ne_nil (v : List Nat) (hw : w ≠ []) : v < v ++ w := by
  induction v
  case nil =>
    cases w
    case nil  => exact absurd rfl hw
    case cons => exact nil_lt_cons ..
  case cons i v hi => exact cons_lt_cons_iff.mpr <| .inr ⟨rfl, hi⟩

theorem pair_sublist_of_lt (h : ws.Pairwise (· < ·)) (hv : v ∈ ws) (hw : w ∈ ws) (hlt : v < w) :
    [v, w] <+ ws := by
  obtain ⟨front, rest, rfl⟩ := append_of_mem hv
  have ⟨_, _, hfront⟩ := pairwise_append.mp h
  rcases mem_append.mp hw with hw | hw
  · exact absurd (hfront w hw v mem_cons_self) (List.lt_asymm hlt)
  · rcases mem_cons.mp hw with rfl | hw
    · exact absurd hlt (List.lt_irrefl _)
    · exact (singleton_sublist.mpr hw).cons_cons v |>.trans <| sublist_append_right ..

end

namespace Node

variable {n m : Node} {v w : List Nat}

theorem reached?_append (v w : List Nat) (n : Node) :
    n.reached? (v ++ w) = (n.reached? v).bind fun m => m.reached? w := by
  induction v generalizing n
  case nil => rfl
  case cons i v hi =>
    rw [cons_append, reached?, reached?, Option.bind_assoc]
    exact congrArg _ <| funext fun e => hi e.2

theorem mem_subtrees_of_reached? (h : n.reached? w = some m) : m ∈ n.subtrees := by
  induction w generalizing n
  case nil =>
    cases h
    exact mem_subtrees_self _
  case cons i w hi =>
    obtain ⟨l, es⟩ := n
    rw [reached?, Option.bind_eq_some_iff] at h
    have ⟨e, he, h⟩ := h
    exact mem_subtrees_mk.mpr <| .inr ⟨e, mem_of_getElem? he, hi h⟩

theorem cons_mem_ways {i : Nat} {l : Label} {es : List Edge} :
    i :: w ∈ (mk l es).ways ↔ ∃ e, es[i]? = some e ∧ w ∈ e.2.ways := by
  simp only [ways, mem_cons, reduceCtorEq, false_or, mem_waysOfEdges, Nat.zero_add, cons.injEq]
  constructor
  case mp =>
    rintro ⟨i, e, he, _, hu, rfl, rfl⟩
    exact ⟨e, he, hu⟩
  case mpr =>
    rintro ⟨e, he, hw⟩
    exact ⟨i, e, he, w, hw, rfl, rfl⟩

-- The ways of a tree are those that lead somewhere.
theorem mem_ways : w ∈ n.ways ↔ ∃ m, n.reached? w = some m := by
  induction w generalizing n
  case nil =>
    cases n
    case mk l es => simp [ways, reached?]
  case cons i w hi =>
    cases n
    case mk l es =>
      rw [cons_mem_ways, reached?, edges]
      cases es[i]?
      case none   => simp
      case some e => simpa using hi

end Node

-- Each way is listed once, in the order of a visit.
mutual

theorem Node.pairwise_ways : ∀ n : Node, n.ways.Pairwise (· < ·)
  | .mk _ es => by
    refine pairwise_cons.mpr ⟨fun w hw => ?_, pairwise_waysOfEdges 0 es⟩
    obtain ⟨_, _, _, _, _, rfl⟩ := mem_waysOfEdges.mp hw
    exact nil_lt_cons ..

theorem pairwise_waysOfEdges (k : Nat) : ∀ es : List Edge, (waysOfEdges k es).Pairwise (· < ·)
  | [] => .nil
  | (_, n) :: es => by
    refine pairwise_append.mpr ⟨?_, pairwise_waysOfEdges (k + 1) es, fun v hv w hw => ?_⟩
    · exact pairwise_map.mpr <| n.pairwise_ways.imp fun h => cons_lt_cons_iff.mpr <| .inr ⟨rfl, h⟩
    · obtain ⟨_, _, rfl⟩ := mem_map.mp hv
      obtain ⟨i, _, _, _, _, rfl⟩ := mem_waysOfEdges.mp hw
      exact cons_lt_cons_iff.mpr <| .inl (by omega)

end

-- The ways lead to the nodes of a tree, one by one.
mutual

theorem Node.map_reached?_ways : ∀ n : Node, n.ways.map n.reached? = n.subtrees.map some
  | .mk l es => by
    rw [Node.ways, Node.subtrees, map_cons, map_cons]
    exact congrArg _ <| map_reached?_waysOfEdges l [] es

theorem map_reached?_waysOfEdges (l : Label) : ∀ front es : List Edge,
    (waysOfEdges front.length es).map (Node.mk l (front ++ es)).reached? = (subtreesOfEdges es).map some
  | _, [] => rfl
  | front, (f, n) :: es => by
    have hfirst : (n.ways.map (front.length :: ·)).map (Node.mk l (front ++ (f, n) :: es)).reached? =
        n.ways.map n.reached? := by
      rw [map_map]
      refine map_congr_left fun w _ => ?_
      simp [Node.reached?, Node.edges]
    have hrest := map_reached?_waysOfEdges l (front ++ [(f, n)]) es
    rw [append_assoc, length_append] at hrest
    rw [waysOfEdges, map_append, hfirst, n.map_reached?_ways, subtreesOfEdges, map_append]
    exact congrArg _ hrest

end

-- What is looked for along the ways is found in the nodes.
theorem Node.filterMap_ways {α : Type} (f : Node → Option α) (n : Node) :
    n.ways.filterMap (fun w => (n.reached? w).bind f) = n.subtrees.filterMap f := by
  have hmap : (n.ways.map n.reached?).filterMap (·.bind f) = (n.subtrees.map some).filterMap (·.bind f) :=
    congrArg _ n.map_reached?_ways
  rwa [filterMap_map, filterMap_map] at hmap

namespace Program

variable {p : Program} {v w : List Nat} {n : Node} {r : RenderFunction}

-- A program as one tree. The first step of a way leads to a top-level item.
def root (p : Program) : Node := .mk .hole (p.body.map (.stmts, ·))

-- The render function to which a way leads.
def functionAt? (p : Program) (w : List Nat) : Option RenderFunction :=
  (p.root.reached? w).bind (·.asRenderFunction? (w.headD 0))

-- The ways to the render functions of a program, in the order of a visit.
def listed (p : Program) : List (List Nat) := p.root.ways.filter fun w => (p.functionAt? w).isSome

theorem filterMap_waysOfEdges (l : Label) (front : List Edge) (items : List Node) :
    (waysOfEdges front.length (items.map (.stmts, ·))).filterMap (fun w =>
      ((Node.mk l (front ++ items.map (.stmts, ·))).reached? w).bind (·.asRenderFunction? (w.headD 0))) =
    (items.zipIdx front.length).flatMap fun (item, i) => item.renderFunctions i := by
  induction items generalizing front
  case nil => rfl
  case cons item items hi =>
    have hfirst : (item.ways.map (front.length :: ·)).filterMap (fun w =>
        ((Node.mk l (front ++ (.stmts, item) :: items.map (.stmts, ·))).reached? w).bind
          (·.asRenderFunction? (w.headD 0))) = item.renderFunctions front.length := by
      rw [filterMap_map, Node.renderFunctions_eq_filterMap, ← Node.filterMap_ways]
      refine filterMap_congr fun w _ => ?_
      simp [Node.reached?, Node.edges]
    have hrest := hi (front ++ [(.stmts, item)])
    rw [append_assoc, length_append] at hrest
    rw [map_cons, waysOfEdges, filterMap_append, hfirst, zipIdx_cons, flatMap_cons]
    exact congrArg _ hrest

-- The query goes through the ways of a program in order.
theorem renderFunctions_eq (p : Program) : p.renderFunctions = p.root.ways.filterMap p.functionAt? := by
  have hroot : p.functionAt? [] = none := rfl
  rw [root, Node.ways, filterMap_cons_none hroot]
  exact (filterMap_waysOfEdges .hole [] p.body).symm

theorem forall₂_listed (p : Program) :
    Forall₂ (fun w r => p.functionAt? w = some r) p.listed p.renderFunctions := by
  rw [listed, renderFunctions_eq]
  induction p.root.ways
  case nil => exact .nil
  case cons w ws hi =>
    cases hw : p.functionAt? w
    case none   => simpa [hw] using hi
    case some r => simpa [hw] using hi

theorem pairwise_listed (p : Program) : p.listed.Pairwise (· < ·) :=
  p.root.pairwise_ways.filter _

theorem mem_listed : w ∈ p.listed ↔ ∃ n, p.root.reached? w = some n ∧ n.renderKind?.isSome := by
  rw [listed, mem_filter, Node.mem_ways, functionAt?]
  constructor
  case mp =>
    rintro ⟨⟨n, hn⟩, hk⟩
    rw [hn] at hk
    exact ⟨n, hn, by simpa [Node.asRenderFunction?] using hk⟩
  case mpr =>
    rintro ⟨n, hn, hk⟩
    exact ⟨⟨n, hn⟩, by simpa [hn, Node.asRenderFunction?] using hk⟩

-- A way to a node below the root starts with the number of a top-level item.
theorem reached?_root_cons {i : Nat} :
    p.root.reached? (i :: w) = p.body[i]?.bind fun item => item.reached? w := by
  rw [Node.reached?, root, Node.edges, getElem?_map, Option.bind_map]
  rfl

end Program

end RenderMemo
