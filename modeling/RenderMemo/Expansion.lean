import RenderMemo.Closure
import RenderMemo.Names
import RenderMemo.RenderFunction

namespace RenderMemo

-- A render function that is given a binder: the name of the binder, and what goes through it.
structure Binding where
  binder    : String
  span      : Span
  bindSites : Nat
  hoisted   : List Hoisted

-- Gives every closure a name and its captured variables.
def hoistAll (dedupe : Bool) (closures : List Node) (names : Names) : List Hoisted × Names :=
  let (fresh, names) := names.generateMany "hoistedFunc" closures.length
  let hoisted := List.zipWith (fun name arrow =>
    { name, arrow, captured := if dedupe then firstOccurrences arrow.captured else arrow.captured })
    fresh closures
  (hoisted, names)

theorem hoistAll_arrow_mem {dedupe : Bool} {closures : List Node} {names : Names} {h : Hoisted}
    (hm : h ∈ (hoistAll dedupe closures names).1) : h.arrow ∈ closures := by
  simp only [hoistAll, List.mem_iff_getElem, List.length_zipWith, List.getElem_zipWith] at hm
  obtain ⟨i, hi, rfl⟩ := hm
  exact List.getElem_mem _

-- What a visit of trees leaves behind: the trees after it, the render functions that were given a
-- binder, the number of all render functions with a body, and the names taken.
structure Visit (α : Type) where
  result   : α
  bindings : List Binding
  detected : Nat
  names    : Names

-- Visits a tree from the outside in. A render function with a body has a binder name reserved; its
-- bind calls and closures go through that binder if there are any. No bind call and no closure is left
-- in a body after that, so the render functions that still stand in it only have their names reserved.
mutual

def Node.visit (dedupe : Bool) : Node → Names → Visit Node
  | .mk l es, names =>
    let node := Node.mk l es
    if node.isRenderWithBody then
      let bodies := node.at .body
      let (binder, names) := names.generate "bindRenderFunc"
      let (hoisted, names) := hoistAll dedupe (bodies.flatMap Node.closures) names
      let binding : Binding :=
        { binder, hoisted, span := node.span, bindSites := bodies.foldr (·.bindCalls + ·) 0 }
      let rest := visitBound dedupe binder es (hoisted.map (·.call binder)) names
      { result := .mk l rest.result
        bindings :=
          if binding.hoisted.isEmpty && binding.bindSites == 0 then rest.bindings
          else binding :: rest.bindings
        detected := rest.detected + 1
        names := rest.names }
    else
      let rest := visitEdges dedupe es names
      { rest with result := .mk l rest.result }

def visitEdges (dedupe : Bool) : List Edge → Names → Visit (List Edge)
  | [], names => ⟨[], [], 0, names⟩
  | (f, n) :: es, names =>
    let first := n.visit dedupe names
    let rest := visitEdges dedupe es first.names
    { result := (f, first.result) :: rest.result
      bindings := first.bindings ++ rest.bindings
      detected := first.detected + rest.detected
      names := rest.names }

-- The edges of a render function, whose body goes through a binder.
def visitBound (dedupe : Bool) (binder : String) :
    List Edge → List Node → Names → Visit (List Edge)
  | [], _, names => ⟨[], [], 0, names⟩
  | (f, n) :: es, replacements, names =>
    if f = .body then
      let body := n.rebound binder (replacements.take n.closures.length)
      let rest := visitBound dedupe binder es (replacements.drop n.closures.length)
        (names.reserve "bindRenderFunc" body.renderCount)
      { rest with
        result := (f, body) :: rest.result
        detected := body.renderCount + rest.detected }
    else
      let first := n.visit dedupe names
      let rest := visitBound dedupe binder es replacements first.names
      { result := (f, first.result) :: rest.result
        bindings := first.bindings ++ rest.bindings
        detected := first.detected + rest.detected
        names := rest.names }

end

-- A closure that a visit lifts out of a tree holds fewer arrow functions than the tree.
mutual

theorem Node.visit_arrowCount_lt {dedupe : Bool} {b : Binding} {h : Hoisted} :
    ∀ (n : Node) (names : Names), b ∈ (n.visit dedupe names).bindings → h ∈ b.hoisted →
      h.declaration.arrowCount < n.arrowCount
  | .mk l es, names, hb, hh => by
    simp only [Node.visit] at hb
    split at hb
    case isFalse =>
      have := visitEdges_arrowCount_lt es names hb hh
      simp only [Node.arrowCount]
      omega
    case isTrue =>
      have hrest := @visitBound_arrowCount_lt dedupe b h es
      simp only [Node.arrowCount]
      split at hb
      case isTrue => exact Nat.lt_add_left _ (hrest _ _ _ hb hh)
      case isFalse =>
        cases List.mem_cons.mp hb
        case inl heq =>
          subst heq
          have hm := hoistAll_arrow_mem hh
          obtain ⟨body, hbody, hm⟩ := List.mem_flatMap.mp hm
          have ⟨hc, hle⟩ := Node.mem_closures body hm
          have := Node.arrowCount_le_of_mem_at hbody
          have := Hoisted.arrowCount_declaration_lt hc
          omega
        case inr hb => exact Nat.lt_add_left _ (hrest _ _ _ hb hh)

theorem visitEdges_arrowCount_lt {dedupe : Bool} {b : Binding} {h : Hoisted} :
    ∀ (es : List Edge) (names : Names), b ∈ (visitEdges dedupe es names).bindings →
      h ∈ b.hoisted → h.declaration.arrowCount < arrowCountOfEdges es
  | [], names, hb, hh => by simp [visitEdges] at hb
  | (f, n) :: es, names, hb, hh => by
    simp only [visitEdges, List.mem_append] at hb
    simp only [arrowCountOfEdges]
    cases hb
    case inl hb => exact Nat.lt_add_right _ (Node.visit_arrowCount_lt n _ hb hh)
    case inr hb => exact Nat.lt_add_left _ (visitEdges_arrowCount_lt es _ hb hh)

theorem visitBound_arrowCount_lt {dedupe : Bool} {b : Binding} {h : Hoisted} :
    ∀ (es : List Edge) (binder : String) (replacements : List Node) (names : Names),
      b ∈ (visitBound dedupe binder es replacements names).bindings → h ∈ b.hoisted →
      h.declaration.arrowCount < arrowCountOfEdges es
  | [], binder, replacements, names, hb, hh => by simp [visitBound] at hb
  | (f, n) :: es, binder, replacements, names, hb, hh => by
    simp only [visitBound] at hb
    simp only [arrowCountOfEdges]
    split at hb
    case isTrue => exact Nat.lt_add_left _ (visitBound_arrowCount_lt es _ _ _ hb hh)
    case isFalse =>
      cases List.mem_append.mp hb
      case inl hb => exact Nat.lt_add_right _ (Node.visit_arrowCount_lt n _ hb hh)
      case inr hb => exact Nat.lt_add_left _ (visitBound_arrowCount_lt es _ _ _ hb hh)

end

-- A top-level item of the result: the declaration of a binder, a hoisted closure as its declaration
-- stands in the end, or an item of the program.
inductive Emitted where
  | binder (b : Binding)
  | closure (h : Hoisted) (declaration : Node)
  | own (item : Node)

namespace Emitted

def binding? : Emitted → Option Binding
  | binder b => some b
  | _ => none

end Emitted

-- What goes in front of a visited item: a binder, or a closure that is still to be visited.
inductive Pending where
  | binder (b : Binding)
  | closure (h : Hoisted)

namespace Pending

-- Every binder, followed by the closures that go through it.
def ofBindings (bindings : List Binding) : List Pending :=
  bindings.flatMap fun b => .binder b :: b.hoisted.map .closure

theorem exists_of_closure_mem {bindings : List Binding} {h : Hoisted}
    (hm : .closure h ∈ ofBindings bindings) : ∃ b ∈ bindings, h ∈ b.hoisted := by
  simp only [ofBindings, List.mem_flatMap, List.mem_cons, List.mem_map, reduceCtorEq, false_or,
    closure.injEq, exists_eq_right] at hm
  exact hm

end Pending

-- What becomes of a top-level item: the items that take its place, the number of render functions met
-- on the way, and the names taken.
structure Expansion where
  items    : List Emitted
  detected : Nat
  names    : Names

-- Expands a top-level item. The binders of its render functions and their hoisted closures go in front
-- of it. A hoisted closure is a top-level item from then on, and is expanded like any other.
def expand (dedupe : Bool) (emit : Node → Emitted) (item : Node) (names : Names) : Expansion :=
  let visit := item.visit dedupe names
  let done := (Pending.ofBindings visit.bindings).attach.foldl
    (fun (done : Expansion) pending =>
      match pending with
      | ⟨.binder b, _⟩ => { done with items := done.items ++ [.binder b] }
      | ⟨.closure h, _⟩ =>
        let closure := expand dedupe (.closure h) h.declaration done.names
        { items := done.items ++ closure.items
          detected := done.detected + closure.detected
          names := closure.names })
    ⟨[], visit.detected, visit.names⟩
  { done with items := done.items ++ [emit visit.result] }
termination_by item.arrowCount
decreasing_by
  rename_i hm
  obtain ⟨b, hb, hh⟩ := Pending.exists_of_closure_mem hm
  exact Node.visit_arrowCount_lt item names hb hh

-- Expands the items of a program one after the other.
def expandItems (dedupe : Bool) : List Node → Names → Expansion
  | [], names => ⟨[], 0, names⟩
  | item :: items, names =>
    let first := expand dedupe .own item names
    let rest := expandItems dedupe items first.names
    ⟨first.items ++ rest.items, first.detected + rest.detected, rest.names⟩

end RenderMemo
