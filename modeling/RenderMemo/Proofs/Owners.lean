import RenderMemo.Proofs.Prelude
import RenderMemo.Proofs.Settled

open List

namespace RenderMemo

-- Whether a site stands in a tree, at any depth.
def Node.hasSite (n : Node) : Bool := n.subtrees.any Node.isSite

theorem Node.hasSite_eq_false_iff {n : Node} : n.hasSite = false ↔ n.Siteless := by
  simp [hasSite, Siteless]

-- The functions of a tree that get a binder, in the order in which they are detected: the render
-- functions with a site in the body. Once a body goes through a binder there is no site left in it for
-- the render functions inside.
mutual

def Node.owners : Node → List Node
  | .mk l es =>
    if (Node.mk l es).isRenderWithBody then
      (if ((Node.mk l es).at .body).any Node.hasSite then [.mk l es] else []) ++ ownersBesideBody es
    else ownersOfEdges es

def ownersOfEdges : List Edge → List Node
  | [] => []
  | (_, n) :: es => n.owners ++ ownersOfEdges es

def ownersBesideBody : List Edge → List Node
  | [] => []
  | (f, n) :: es => (if f = .body then [] else n.owners) ++ ownersBesideBody es

end

-- They are nodes of the tree in the order of the visit.
mutual

theorem Node.owners_sublist : ∀ n : Node, n.owners <+ n.subtrees
  | .mk l es => by
    simp only [Node.owners, Node.subtrees]
    split
    case isTrue =>
      split
      case isTrue  => exact (ownersBesideBody_sublist es).cons_cons _
      case isFalse => exact (ownersBesideBody_sublist es).cons _
    case isFalse => exact (ownersOfEdges_sublist es).cons _

theorem ownersOfEdges_sublist : ∀ es : List Edge, ownersOfEdges es <+ subtreesOfEdges es
  | []           => .slnil
  | (_, n) :: es => (Node.owners_sublist n).append (ownersOfEdges_sublist es)

theorem ownersBesideBody_sublist : ∀ es : List Edge, ownersBesideBody es <+ subtreesOfEdges es
  | []           => .slnil
  | (f, n) :: es => by
    simp only [ownersBesideBody, subtreesOfEdges]
    split
    case isTrue  => exact (nil_sublist n.subtrees).append (ownersBesideBody_sublist es)
    case isFalse => exact (Node.owners_sublist n).append (ownersBesideBody_sublist es)

end

mutual

theorem Node.render_of_mem_owners {m : Node} : ∀ n : Node, m ∈ n.owners →
    m.isRenderWithBody = true ∧ ∃ body ∈ m.at .body, body.hasSite = true
  | .mk l es, hm => by
    simp only [Node.owners] at hm
    split at hm
    case isTrue hr =>
      cases mem_append.mp hm
      case inl hm =>
        split at hm
        case isTrue hs =>
          cases mem_singleton.mp hm
          exact ⟨hr, any_eq_true.mp hs⟩
        case isFalse => simp at hm
      case inr hm => exact render_of_mem_ownersBesideBody es hm
    case isFalse => exact render_of_mem_ownersOfEdges es hm

theorem render_of_mem_ownersOfEdges {m : Node} : ∀ es : List Edge, m ∈ ownersOfEdges es →
    m.isRenderWithBody = true ∧ ∃ body ∈ m.at .body, body.hasSite = true
  | [], hm => by simp [ownersOfEdges] at hm
  | (_, n) :: es, hm => by
    cases mem_append.mp hm
    case inl hm => exact Node.render_of_mem_owners n hm
    case inr hm => exact render_of_mem_ownersOfEdges es hm

theorem render_of_mem_ownersBesideBody {m : Node} : ∀ es : List Edge, m ∈ ownersBesideBody es →
    m.isRenderWithBody = true ∧ ∃ body ∈ m.at .body, body.hasSite = true
  | [], hm => by simp [ownersBesideBody] at hm
  | (_, n) :: es, hm => by
    cases mem_append.mp hm
    case inl hm =>
      split at hm
      case isTrue  => simp at hm
      case isFalse => exact Node.render_of_mem_owners n hm
    case inr hm => exact render_of_mem_ownersBesideBody es hm

end

-- No function gets a binder exactly if no render function has a site in its body.
mutual

theorem Node.owners_eq_nil_iff : ∀ n : Node, n.owners = [] ↔ n.Settled
  | .mk l es => by
    rw [Node.settled_mk, Node.owners]
    cases hr : (Node.mk l es).isRenderWithBody
    case false =>
      have hnone : (Node.mk l es).renderKind?.isSome → (Node.mk l es).at .body = [] := by
        intro hk
        simpa [Node.isRenderWithBody, hk] using hr
      rw [if_neg Bool.false_ne_true, ownersOfEdges_eq_nil_iff es]
      exact ⟨fun hes => ⟨fun hk => by simp [hnone hk], hes⟩, And.right⟩
    case true =>
      have hk : (Node.mk l es).renderKind?.isSome := by
        rw [Node.isRenderWithBody, Bool.and_eq_true] at hr
        exact hr.1
      have hsites : ((Node.mk l es).at .body).any Node.hasSite = false ↔
          ∀ body ∈ (Node.mk l es).at .body, body.Siteless := by
        simp [← Node.hasSite_eq_false_iff]
      rw [if_pos rfl, append_eq_nil_iff]
      cases hs : ((Node.mk l es).at .body).any Node.hasSite
      case false =>
        have hbodies := hsites.mp hs
        rw [if_neg Bool.false_ne_true, ownersBesideBody_eq_nil_iff l es hbodies]
        exact ⟨fun h => ⟨fun _ => hbodies, h.2⟩, fun h => ⟨rfl, h.2⟩⟩
      case true =>
        refine iff_of_false (by simp) fun h => ?_
        have hnone := hsites.mpr (h.1 hk)
        exact absurd hs (hnone ▸ Bool.false_ne_true)

theorem ownersOfEdges_eq_nil_iff : ∀ es : List Edge, ownersOfEdges es = [] ↔ SettledEdges es
  | [] => by simp [ownersOfEdges]
  | (_, n) :: es => by
    rw [ownersOfEdges, append_eq_nil_iff, settledEdges_cons, Node.owners_eq_nil_iff n,
      ownersOfEdges_eq_nil_iff es]

-- Where the bodies have no site, they are settled anyway.
theorem ownersBesideBody_eq_nil_iff (l : Label) : ∀ es : List Edge,
    (∀ body ∈ (Node.mk l es).at .body, body.Siteless) →
      (ownersBesideBody es = [] ↔ SettledEdges es)
  | [], _ => by simp [ownersBesideBody]
  | (f, n) :: es, hbodies => by
    rw [ownersBesideBody, append_eq_nil_iff, settledEdges_cons]
    by_cases hf : f = .body
    case pos =>
      rw [Node.at_cons, if_pos hf, forall_mem_cons] at hbodies
      have ⟨hn, hes⟩ := hbodies
      rw [if_pos hf, ownersBesideBody_eq_nil_iff l es hes]
      exact and_congr_left fun _ => iff_of_true rfl hn.settled
    case neg =>
      rw [Node.at_cons, if_neg hf] at hbodies
      rw [if_neg hf, Node.owners_eq_nil_iff n, ownersBesideBody_eq_nil_iff l es hbodies]

end

-- A binding as it is made for a function: the bind calls of the body are counted, and its closures are
-- taken in the order in which they stand there, each with the variables that it captures.
structure Binding.BelongsTo (dedupe : Bool) (b : Binding) (n : Node) : Prop where
  span     : b.span = n.span
  sites    : b.bindSites = (n.at .body).foldr (·.bindCalls + ·) 0
  closures : b.hoisted.map Hoisted.arrow = (n.at .body).flatMap Node.closures
  captured :
    ∀ h ∈ b.hoisted, h.captured = if dedupe then firstOccurrences h.arrow.captured else h.arrow.captured

theorem Node.binding_belongsTo (dedupe : Bool) (n : Node) (names : Names) :
    (n.binding dedupe names).BelongsTo dedupe n where
  span     := rfl
  sites    := rfl
  closures := n.map_arrow_binding dedupe names
  captured := fun _ => captured_of_mem_hoistAll

theorem Node.isUsed_binding (dedupe : Bool) (n : Node) (names : Names) :
    (n.binding dedupe names).isUsed = (n.at .body).any hasSite := by
  rw [Bool.eq_iff_iff, ← not_iff_not, Bool.not_eq_true, Bool.not_eq_true, n.isUsed_binding_eq_false_iff]
  simp [← hasSite_eq_false_iff]

namespace Binding.BelongsTo

variable {dedupe : Bool} {b : Binding} {n root : Node}

-- Whether a binder is used can be seen from the function alone.
theorem isUsed_eq (h : b.BelongsTo dedupe n) : b.isUsed = (n.at .body).any Node.hasSite := by
  have hnone : b.hoisted.isEmpty = (n.binding dedupe ⟨[]⟩).hoisted.isEmpty := by
    rw [← List.isEmpty_map (f := Hoisted.arrow), h.closures, ← n.map_arrow_binding dedupe ⟨[]⟩,
      List.isEmpty_map]
  rw [← n.isUsed_binding dedupe ⟨[]⟩, isUsed, isUsed, hnone, h.sites]
  rfl

-- The binder of a function that gets one is used.
theorem used (h : b.BelongsTo dedupe n) (hn : n ∈ root.owners) : 0 < b.bindSites + b.hoisted.length := by
  have ⟨_, body, hbody, hs⟩ := Node.render_of_mem_owners root hn
  have hused : b.isUsed = true := h.isUsed_eq.trans <| any_eq_true.mpr ⟨body, hbody, hs⟩
  rw [isUsed, Bool.not_eq_true', Bool.and_eq_false_iff, List.isEmpty_eq_false_iff, beq_eq_false_iff_ne] at hused
  cases hused
  case inl hhoisted =>
    have := length_pos_iff.mpr hhoisted
    omega
  case inr hsites => omega

end Binding.BelongsTo

-- A binding that was made for a function in some tree.
def Binding.Made (dedupe : Bool) (b : Binding) : Prop :=
  ∃ root n : Node, n ∈ root.owners ∧ b.BelongsTo dedupe n

-- A visit makes one binding for each function that gets a binder, in their order.
mutual

theorem Node.visit_bindings (dedupe : Bool) : ∀ (n : Node) (names : Names),
    Forall₂ (Binding.BelongsTo dedupe) (n.visit dedupe names).bindings n.owners
  | .mk l es, names => by
    rw [Node.owners]
    cases hr : (Node.mk l es).isRenderWithBody
    case false =>
      rw [Node.visit_of_not_isRenderWithBody hr]
      exact visitEdges_bindings dedupe es names
    case true =>
      have hrest := visitBound_bindings dedupe ((Node.mk l es).binding dedupe names).binder es
        (((Node.mk l es).binding dedupe names).hoisted.map
          (·.call ((Node.mk l es).binding dedupe names).binder))
        ((Node.mk l es).namesOfBinding dedupe names)
      rw [Node.visit_of_isRenderWithBody hr, if_pos rfl, ← Node.isUsed_binding dedupe _ names]
      simp only
      split
      case isTrue  => exact .cons (Node.binding_belongsTo ..) hrest
      case isFalse => exact hrest

theorem visitEdges_bindings (dedupe : Bool) : ∀ (es : List Edge) (names : Names),
    Forall₂ (Binding.BelongsTo dedupe) (visitEdges dedupe es names).bindings (ownersOfEdges es)
  | [], _ => .nil
  | (_, n) :: es, names => rel_append (Node.visit_bindings dedupe n names) (visitEdges_bindings dedupe es _)

theorem visitBound_bindings (dedupe : Bool) (binder : String) :
    ∀ (es : List Edge) (rs : List Node) (names : Names),
      Forall₂ (Binding.BelongsTo dedupe) (visitBound dedupe binder es rs names).bindings
        (ownersBesideBody es)
  | [], _, _ => .nil
  | (f, n) :: es, rs, names => by
    simp only [visitBound, ownersBesideBody]
    split
    case isTrue  => exact visitBound_bindings dedupe binder es _ _
    case isFalse =>
      exact rel_append (Node.visit_bindings dedupe n names) (visitBound_bindings dedupe binder es rs _)

end

end RenderMemo
