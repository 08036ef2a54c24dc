import RenderMemo.Proofs.TextOrder
import RenderMemo.Proofs.Ways

open List

namespace RenderMemo

-- A search for markup that stops where it can. Markup is not entered. What was found is handed on from part
-- to part, and once that is something, the parts that may be passed over are not entered either.
mutual

def Node.search (passes : Field → Node → Bool) (found : Bool) : Node → Bool
  | .mk l es => if l.isMarkup then true else searchEdges passes found es

def searchEdges (passes : Field → Node → Bool) (found : Bool) : List Edge → Bool
  | [] => found
  | (f, n) :: es =>
    searchEdges passes (if found && passes f n then found else n.search passes found) es

end

-- It finds what a search through everything finds, whatever is passed over.
mutual

theorem Node.search_eq (passes : Field → Node → Bool) (found : Bool) :
    ∀ n : Node, n.search passes found = (found || n.hasMarkup)
  | .mk l es => by
    rw [Node.search, Node.hasMarkup, searchEdges_eq passes found es]
    cases l.isMarkup <;> simp

theorem searchEdges_eq (passes : Field → Node → Bool) :
    ∀ (found : Bool) (es : List Edge), searchEdges passes found es = (found || edgesHaveMarkup es)
  | found, [] => by simp [searchEdges, edgesHaveMarkup]
  | found, (f, n) :: es => by
    rw [searchEdges, searchEdges_eq passes _ es, edgesHaveMarkup, Node.search_eq passes found n]
    cases found <;> simp

end

theorem Label.isMarkup_iff {l : Label} :
    l.isMarkup = true ↔ l.kind? = some .jsxElement ∨ l.kind? = some .jsxFragment := by
  constructor
  case mp =>
    intro h
    unfold isMarkup at h
    split at h
    · exact .inl rfl
    · exact .inr rfl
    · cases h
  case mpr =>
    rintro (h | h)
    all_goals
      cases l
      case form => cases h; rfl
      all_goals cases h

namespace Node

-- That an element or a fragment stands somewhere in a tree.
def HoldsMarkup (n : Node) : Prop :=
  ∃ m ∈ n.subtrees, m.kind? = some .jsxElement ∨ m.kind? = some .jsxFragment

-- The functions that produce markup, by their shapes.
inductive Renders (n : Node) : RenderKind → Prop
  | method {key : Node} : n.kind? = some .classMethod ∨ n.kind? = some .methodProperty → key ∈ n.at .key →
      key.isRenderName = true → n.HoldsMarkup → Renders n .renderMethod
  | declaration : n.kind? = some .functionDeclaration → n.HoldsMarkup → Renders n .functionDeclaration
  | expression : n.kind? = some .functionExpression → n.HoldsMarkup → Renders n .functionExpression
  | arrow {body : Node} : n.kind? = some .arrowFunctionExpression → body ∈ n.at .body → body.HoldsMarkup →
      Renders n .arrow

variable {n m : Node} {k : RenderKind} {w : List Nat}

theorem hasMarkup_iff_holdsMarkup : n.hasMarkup = true ↔ n.HoldsMarkup := by
  simp only [hasMarkup_iff, HoldsMarkup, Label.isMarkup_iff]
  rfl

theorem HoldsMarkup.of_mem_subtrees (h : m.HoldsMarkup) (hm : m ∈ n.subtrees) : n.HoldsMarkup :=
  have ⟨k, hk, hmarkup⟩ := h
  ⟨k, subtrees_trans hk n hm, hmarkup⟩

theorem Renders.holdsMarkup (h : n.Renders k) : n.HoldsMarkup := by
  cases h with
  | method _ _ _ h    => exact h
  | declaration _ h   => exact h
  | expression _ h    => exact h
  | arrow _ hbody h   => exact h.of_mem_subtrees <| mem_subtrees_of_mem_at hbody

-- The query looks for these functions.
theorem renderKind?_eq_some_iff : n.renderKind? = some k ↔ n.Renders k := by
  constructor
  case mp =>
    intro h
    unfold renderKind? at h
    split at h
    case h_6 => nomatch h
    all_goals
      rename_i hk
      rw [Option.ite_none_right_eq_some, Option.some.injEq] at h
      obtain ⟨h, rfl⟩ := h
    case h_1 | h_2 =>
      rw [Bool.and_eq_true, any_eq_true] at h
      obtain ⟨⟨_, hkey, hname⟩, h⟩ := h
      exact .method (by simp [hk]) hkey hname <| hasMarkup_iff_holdsMarkup.mp h
    case h_3 => exact .declaration hk <| hasMarkup_iff_holdsMarkup.mp h
    case h_4 => exact .expression hk <| hasMarkup_iff_holdsMarkup.mp h
    case h_5 =>
      obtain ⟨_, hbody, h⟩ := any_eq_true.mp h
      exact .arrow hk hbody <| hasMarkup_iff_holdsMarkup.mp h
  case mpr =>
    intro h
    unfold renderKind?
    cases h with
    | method hk hkey hname h =>
      have hany : (n.at .key).any isRenderName = true := any_eq_true.mpr ⟨_, hkey, hname⟩
      rcases hk with hk | hk <;> simp [hk, hany, hasMarkup_iff_holdsMarkup.mpr h]
    | declaration hk h  => simp [hk, hasMarkup_iff_holdsMarkup.mpr h]
    | expression hk h   => simp [hk, hasMarkup_iff_holdsMarkup.mpr h]
    | arrow hk hbody h  =>
      have hany : (n.at .body).any hasMarkup = true :=
        any_eq_true.mpr ⟨_, hbody, hasMarkup_iff_holdsMarkup.mpr h⟩
      simp [hk, hany]

theorem isSome_renderKind?_iff : n.renderKind?.isSome = true ↔ ∃ k, n.Renders k := by
  simp only [Option.isSome_iff_exists, renderKind?_eq_some_iff]

theorem kind?_of_isRenderName (h : n.isRenderName = true) : n.kind? = none := by
  unfold isRenderName at h
  split at h
  case h_1 => rfl
  case h_2 => nomatch h

theorem subtrees_of_leaf (h : n.edges = []) : n.subtrees = [n] := by
  cases n
  case mk l es =>
    cases h
    rfl

-- The markup of a method does not stand in its name.
theorem Renders.exists_part {key : Node} (h : n.Renders .renderMethod) (hkey : n.at .key = [key])
    (hleaf : key.edges = []) : ∃ e ∈ n.edges, e.1 ≠ .key ∧ e.2.HoldsMarkup := by
  cases h with
  | method hk hname hrender h =>
    have ⟨m, hm, hmarkup⟩ := h
    obtain ⟨l, es⟩ := n
    cases mem_subtrees_mk.mp hm
    case inl heq =>
      subst heq
      rcases hk with hk | hk <;> simp [hk] at hmarkup
    case inr hm =>
      obtain ⟨e, he, hm⟩ := hm
      refine ⟨e, he, fun hfield => ?_, m, hm, hmarkup⟩
      have heq : e.2 = key := mem_singleton.mp <| hkey ▸ mem_at.mpr (hfield ▸ he)
      have hrender : key.isRenderName = true := mem_singleton.mp (hkey ▸ hname) ▸ hrender
      rw [heq, subtrees_of_leaf hleaf, mem_singleton] at hm
      subst hm
      rw [kind?_of_isRenderName hrender] at hmarkup
      exact hmarkup.elim nofun nofun

end Node

namespace Program

variable {p : Program} {w : List Nat} {r : RenderFunction}

-- What an entry says of the function to which a way leads inside a top-level item.
structure Describes (p : Program) (r : RenderFunction) (i : Nat) (w : List Nat) (item n : Node) : Prop where
  stands         : p.body[i]? = some item
  leads          : item.reached? w = some n
  kind           : n.Renders r.kind
  name           : r.name = n.renderName? r.kind
  span           : r.span = n.span
  insertionPoint : r.insertionPoint = i

theorem exists_describes (h : p.functionAt? w = some r) :
    ∃ i u item n, w = i :: u ∧ p.Describes r i u item n := by
  rw [functionAt?, Option.bind_eq_some_iff] at h
  obtain ⟨n, hn, h⟩ := h
  rw [Node.asRenderFunction?, Option.map_eq_some_iff] at h
  obtain ⟨k, hk, rfl⟩ := h
  cases w
  case nil =>
    cases hn
    cases hk
  case cons i u =>
    rw [reached?_root_cons, Option.bind_eq_some_iff] at hn
    obtain ⟨item, hitem, hn⟩ := hn
    exact ⟨i, u, item, n, rfl, hitem, hn, Node.renderKind?_eq_some_iff.mp hk, rfl, rfl, rfl⟩

-- What the query for the render functions of a program answers.
structure Detects (p : Program) : Prop where
  -- The functions that produce markup, wherever they stand, each once and in the order of the visit,
  listed   : ∀ w, w ∈ p.listed ↔ ∃ n k, p.root.reached? w = some n ∧ n.Renders k
  preorder : p.listed.Pairwise (· < ·)
  -- with an entry for each of them. It holds the number of the top-level item around the function.
  entries  : Forall₂ (fun w r => ∃ i u item n, w = i :: u ∧ p.Describes r i u item n) p.listed p.renderFunctions
  ascending : p.renderFunctions.Pairwise fun r r' => r.insertionPoint ≤ r'.insertionPoint
  -- The entries are those of the source text, too, and in that order if the visit has the order of the text.
  written  : p.renderFunctions ~ p.writtenFunctions
  ordered  : (∀ item ∈ p.body, item.IsVisitedAsWritten) → p.renderFunctions = p.writtenFunctions
  -- Markup is found by a search that stops early exactly if some is there.
  searched : ∀ (n : Node) (passes : Field → Node → Bool), n.search passes false = true ↔ n.HoldsMarkup
  methods  : ∀ (n key : Node), n.Renders .renderMethod → n.at .key = [key] → key.edges = [] →
    ∃ e ∈ n.edges, e.1 ≠ .key ∧ e.2.HoldsMarkup

theorem ascending (p : Program) :
    p.renderFunctions.Pairwise fun r r' => r.insertionPoint ≤ r'.insertionPoint := by
  have hpoints : p.renderFunctions.map RenderFunction.insertionPoint = p.listed.map (·.headD 0) := by
    rw [← forall₂_eq_eq_eq, forall₂_map_left_iff, forall₂_map_right_iff]
    refine p.forall₂_listed.flip.imp fun r w h => ?_
    have ⟨i, u, item, n, hw, hr⟩ := exists_describes h
    rw [hr.insertionPoint, hw]
    rfl
  have hlisted : (p.listed.map (·.headD 0)).Pairwise (· ≤ ·) :=
    pairwise_map.mpr <| p.pairwise_listed.imp headD_le_of_lt
  rw [← hpoints] at hlisted
  exact pairwise_map.mp hlisted

theorem detects (p : Program) : p.Detects where
  listed w := by
    rw [mem_listed]
    simp only [Node.isSome_renderKind?_iff, exists_and_left]
  preorder  := p.pairwise_listed
  entries   := p.forall₂_listed.imp fun _ _ => exists_describes
  ascending := p.ascending
  written   := p.renderFunctions_perm
  ordered   := renderFunctions_eq_writtenFunctions
  searched n passes := by rw [n.search_eq, Bool.false_or, Node.hasMarkup_iff_holdsMarkup]
  methods _ _ := Node.Renders.exists_part

-- `class A extends mixin(() => <a/>) { render() { return <b/>; } }`
def mixin : Program where
  kind := .script
  body :=
    let element (name : String) : Node := .form .jsxElement []
      [(.opening, .form .jsxOpeningElement [] [(.name, .named name)])]
    let applied : Node := .mk (.form .arrowFunctionExpression ⟨23, 33⟩ []) [(.body, element "a")]
    let method : Node := .mk (.form .classMethod ⟨37, 62⟩ [])
      [(.key, .propertyName "render"), (.body, .returnBlock (element "b"))]
    [.form .classDeclaration [] [(.identifier, .named "A"), (.body, method),
      (.superClass, .call (.named "mixin") [.entry applied])]]

-- The superclass is visited behind the members.
theorem not_written_mixin :
    mixin.renderFunctions ≠ mixin.writtenFunctions ∧
      ¬ mixin.renderFunctions.Pairwise fun r r' => r.span.start ≤ r'.span.start := by
  decide +kernel

end Program

end RenderMemo
