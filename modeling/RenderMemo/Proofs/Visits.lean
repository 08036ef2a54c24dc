import RenderMemo.Expansion
import RenderMemo.Proofs.FreshNames
import RenderMemo.Proofs.Sites

namespace RenderMemo

section

variable {dedupe : Bool} {closures : List Node} {names : Names}

theorem map_name_hoistAll :
    (hoistAll dedupe closures names).1.map Hoisted.name =
      (names.generateMany "hoistedFunc" closures.length).1 := by
  apply List.ext_getElem <;> simp [hoistAll]

theorem map_arrow_hoistAll : (hoistAll dedupe closures names).1.map Hoisted.arrow = closures := by
  apply List.ext_getElem <;> simp [hoistAll]

theorem captured_of_mem_hoistAll {h : Hoisted} (hm : h ∈ (hoistAll dedupe closures names).1) :
    h.captured = if dedupe then firstOccurrences h.arrow.captured else h.arrow.captured := by
  simp only [hoistAll, List.mem_iff_getElem, List.length_zipWith, List.getElem_zipWith] at hm
  obtain ⟨i, hi, rfl⟩ := hm
  rfl

theorem hoistAll_hands :
    names.Hands ((hoistAll dedupe closures names).1.map Hoisted.name)
      (hoistAll dedupe closures names).2 := by
  rw [map_name_hoistAll]
  exact Names.Hands.generateMany ..

end

namespace Binding

-- The names that are made for a binding: that of the binder and those of its closures.
def names (b : Binding) : List String := b.binder :: b.hoisted.map Hoisted.name

-- Whether anything goes through the binder.
def isUsed (b : Binding) : Bool := !(b.hoisted.isEmpty && b.bindSites == 0)

end Binding

-- The binding that a function is given, used or not.
def Node.binding (dedupe : Bool) (n : Node) (names : Names) : Binding where
  binder    := (names.generate "bindRenderFunc").1
  span      := n.span
  bindSites := (n.at .body).foldr (·.bindCalls + ·) 0
  hoisted   :=
    (hoistAll dedupe ((n.at .body).flatMap Node.closures) (names.generate "bindRenderFunc").2).1

-- The names that are taken once a function is given its binding.
def Node.namesOfBinding (dedupe : Bool) (n : Node) (names : Names) : Names :=
  (hoistAll dedupe ((n.at .body).flatMap Node.closures) (names.generate "bindRenderFunc").2).2

namespace Node

variable {dedupe : Bool} {l : Label} {es : List Edge} {n : Node} {names : Names}

-- The two steps that a visit can make at a node.

theorem visit_of_isRenderWithBody (h : (mk l es).isRenderWithBody = true) :
    (mk l es).visit dedupe names =
      let b := (mk l es).binding dedupe names
      let rest := visitBound dedupe b.binder es (b.hoisted.map (·.call b.binder))
        ((mk l es).namesOfBinding dedupe names)
      { result   := mk l rest.result
        bindings := if b.isUsed then b :: rest.bindings else rest.bindings
        detected := rest.detected + 1
        names    := rest.names } := by
  rw [visit, if_pos h]
  cases hu : ((mk l es).binding dedupe names).isUsed
  all_goals
    simp only [Binding.isUsed, binding, Bool.not_eq_true', Bool.not_eq_false'] at hu
    simp only [binding, namesOfBinding, Binding.isUsed, hu]
    rfl

theorem visit_of_not_isRenderWithBody (h : (mk l es).isRenderWithBody = false) :
    (mk l es).visit dedupe names =
      let rest := visitEdges dedupe es names
      { rest with result := mk l rest.result } := by
  simp [visit, h]

theorem map_arrow_binding (dedupe : Bool) (n : Node) (names : Names) :
    (n.binding dedupe names).hoisted.map Hoisted.arrow = (n.at .body).flatMap closures :=
  map_arrow_hoistAll

-- As many calls are put in place as closures are lifted out.
theorem length_hoisted_binding (dedupe : Bool) (n : Node) (names : Names) :
    (n.binding dedupe names).hoisted.length = ((n.at .body).flatMap closures).length := by
  rw [← map_arrow_binding dedupe n names, List.length_map]

theorem binding_hands : names.Hands (n.binding dedupe names).names (n.namesOfBinding dedupe names) :=
  .next hoistAll_hands

-- A binder is not used exactly if it belongs to a function without sites.
theorem isUsed_binding_eq_false_iff (dedupe : Bool) (n : Node) (names : Names) :
    (n.binding dedupe names).isUsed = false ↔ ∀ body ∈ n.at .body, body.Siteless := by
  have hhoisted : (n.binding dedupe names).hoisted = [] ↔ (n.at .body).flatMap closures = [] := by
    rw [← map_arrow_binding dedupe n names, List.map_eq_nil_iff]
  have hsites : (n.binding dedupe names).bindSites = 0 ↔ ∀ body ∈ n.at .body, body.bindCalls = 0 := by
    simp only [binding]
    induction n.at .body
    case nil => simp
    case cons body bodies hi => simp [hi]
  simp only [Binding.isUsed, Bool.not_eq_false', Bool.and_eq_true, List.isEmpty_iff, beq_iff_eq,
    hhoisted, hsites, List.flatMap_eq_nil_iff, siteless_iff, forall_and]

end Node

-- A closure that is lifted out of a tree, with the variables that it takes along.
structure Hoisted.LiftedFrom (h : Hoisted) (dedupe : Bool) (n : Node) : Prop where
  mem         : h.arrow ∈ n.subtrees
  isClosure   : h.arrow.label.isClosure = true
  captured_eq : h.captured = if dedupe then firstOccurrences h.arrow.captured else h.arrow.captured

theorem Hoisted.LiftedFrom.of_mem_subtrees {h : Hoisted} {dedupe : Bool} {m n : Node}
    (lifted : h.LiftedFrom dedupe m) (hm : m ∈ n.subtrees) : h.LiftedFrom dedupe n where
  mem         := Node.subtrees_trans lifted.mem n hm
  isClosure   := lifted.isClosure
  captured_eq := lifted.captured_eq

theorem Hoisted.LiftedFrom.of_edge {h : Hoisted} {dedupe : Bool} {l : Label} {es : List Edge} :
    (∃ e ∈ es, h.LiftedFrom dedupe e.2) → h.LiftedFrom dedupe (.mk l es)
  | ⟨e, he, lifted⟩ =>
    lifted.of_mem_subtrees <| Node.mem_subtrees_mk.mpr <| .inr ⟨e, he, e.2.mem_subtrees_self⟩

theorem Node.lifted_of_mem_binding {dedupe : Bool} {n : Node} {names : Names} {h : Hoisted}
    (hm : h ∈ (n.binding dedupe names).hoisted) : h.LiftedFrom dedupe n := by
  have ha : h.arrow ∈ (n.at .body).flatMap Node.closures := by
    rw [← Node.map_arrow_binding dedupe n names]
    exact List.mem_map_of_mem hm
  obtain ⟨body, hbody, ha⟩ := List.mem_flatMap.mp ha
  exact {
    mem         :=
      Node.subtrees_trans (Node.closures_subset body ha) n (Node.mem_subtrees_of_mem_at hbody)
    isClosure   := (Node.mem_closures body ha).1
    captured_eq := captured_of_mem_hoistAll hm }

-- Every closure that a visit lifts comes from the tree that is visited.
mutual

theorem Node.lifted_of_mem_visit {dedupe : Bool} {b : Binding} {h : Hoisted} (hh : h ∈ b.hoisted) :
    ∀ (n : Node) (names : Names), b ∈ (n.visit dedupe names).bindings → h.LiftedFrom dedupe n
  | .mk l es, names, hb => by
    cases hr : (Node.mk l es).isRenderWithBody
    case false =>
      rw [Node.visit_of_not_isRenderWithBody hr] at hb
      exact .of_edge <| lifted_of_mem_visitEdges hh es names hb
    case true =>
      rw [Node.visit_of_isRenderWithBody hr] at hb
      have hrest := @lifted_of_mem_visitBound dedupe b h hh es
      simp only at hb
      split at hb
      case isTrue =>
        cases List.mem_cons.mp hb
        case inl heq =>
          subst heq
          exact Node.lifted_of_mem_binding hh
        case inr hb => exact .of_edge <| hrest _ _ _ hb
      case isFalse => exact .of_edge <| hrest _ _ _ hb

theorem lifted_of_mem_visitEdges {dedupe : Bool} {b : Binding} {h : Hoisted} (hh : h ∈ b.hoisted) :
    ∀ (es : List Edge) (names : Names), b ∈ (visitEdges dedupe es names).bindings →
      ∃ e ∈ es, h.LiftedFrom dedupe e.2
  | [], names, hb => by simp [visitEdges] at hb
  | (f, n) :: es, names, hb => by
    simp only [visitEdges, List.mem_append] at hb
    cases hb
    case inl hb => exact ⟨_, List.mem_cons_self, Node.lifted_of_mem_visit hh n _ hb⟩
    case inr hb =>
      obtain ⟨e, he, lifted⟩ := lifted_of_mem_visitEdges hh es _ hb
      exact ⟨e, List.mem_cons_of_mem _ he, lifted⟩

theorem lifted_of_mem_visitBound {dedupe : Bool} {b : Binding} {h : Hoisted} (hh : h ∈ b.hoisted) :
    ∀ (es : List Edge) (binder : String) (rs : List Node) (names : Names),
      b ∈ (visitBound dedupe binder es rs names).bindings → ∃ e ∈ es, h.LiftedFrom dedupe e.2
  | [], binder, rs, names, hb => by simp [visitBound] at hb
  | (f, n) :: es, binder, rs, names, hb => by
    simp only [visitBound] at hb
    split at hb
    case isTrue =>
      obtain ⟨e, he, lifted⟩ := lifted_of_mem_visitBound hh es _ _ _ hb
      exact ⟨e, List.mem_cons_of_mem _ he, lifted⟩
    case isFalse =>
      cases List.mem_append.mp hb
      case inl hb => exact ⟨_, List.mem_cons_self, Node.lifted_of_mem_visit hh n _ hb⟩
      case inr hb =>
        obtain ⟨e, he, lifted⟩ := lifted_of_mem_visitBound hh es _ _ _ hb
        exact ⟨e, List.mem_cons_of_mem _ he, lifted⟩

end

end RenderMemo
