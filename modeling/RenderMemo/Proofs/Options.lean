import RenderMemo.Proofs.Eclipsed
import RenderMemo.Proofs.Occurrences

open List

namespace RenderMemo

-- Two trees that are the same, apart from places in which a relation holds between what stands there.
mutual

inductive SameBut (R : Node → Node → Prop) : Node → Node → Prop
  | here {n₁ n₂ : Node} : R n₁ n₂ → SameBut R n₁ n₂
  | keep {l : Label} {es₁ es₂ : List Edge} : SameEdgesBut R es₁ es₂ → SameBut R (.mk l es₁) (.mk l es₂)

inductive SameEdgesBut (R : Node → Node → Prop) : List Edge → List Edge → Prop
  | nil : SameEdgesBut R [] []
  | cons {f : Field} {n₁ n₂ : Node} {es₁ es₂ : List Edge} :
      SameBut R n₁ n₂ → SameEdgesBut R es₁ es₂ → SameEdgesBut R ((f, n₁) :: es₁) ((f, n₂) :: es₂)

end

section

variable {R : Node → Node → Prop}

mutual

theorem SameBut.refl : ∀ n : Node, SameBut R n n
  | .mk _ es => .keep (SameEdgesBut.refl es)

theorem SameEdgesBut.refl : ∀ es : List Edge, SameEdgesBut R es es
  | []           => .nil
  | (_, n) :: es => .cons (SameBut.refl n) (SameEdgesBut.refl es)

end

mutual

theorem SameBut.symm {n₁ n₂ : Node} : SameBut R n₁ n₂ → SameBut (fun n₁ n₂ => R n₂ n₁) n₂ n₁
  | .here h   => .here h
  | .keep hes => .keep hes.symm

theorem SameEdgesBut.symm {es₁ es₂ : List Edge} :
    SameEdgesBut R es₁ es₂ → SameEdgesBut (fun n₁ n₂ => R n₂ n₁) es₂ es₁
  | .nil         => .nil
  | .cons hn hes => .cons hn.symm hes.symm

end

-- The relation holds between calls only.
variable (hR : ∀ {n₁ n₂}, R n₁ n₂ → n₁.kind? = some .callExpression ∧ n₂.kind? = some .callExpression)
include hR

theorem SameBut.keep_of_not_call {l : Label} {es₁ : List Edge} {n₂ : Node} (h : SameBut R (.mk l es₁) n₂)
    (hl : l.kind? ≠ some .callExpression) : ∃ es₂, n₂ = .mk l es₂ ∧ SameEdgesBut R es₁ es₂ := by
  cases h with
  | here h   => exact absurd (hR h).1 hl
  | keep hes => exact ⟨_, rfl, hes⟩

theorem SameEdgesBut.bindParts? {es₁ es₂ rest₁ : List Edge} {target₁ : Node} (h : SameEdgesBut R es₁ es₂)
    (hp : bindParts? es₁ = some (target₁, rest₁)) :
    ∃ target₂ rest₂, RenderMemo.bindParts? es₂ = some (target₂, rest₂) ∧ SameBut R target₁ target₂ ∧
      SameEdgesBut R rest₁ rest₂ := by
  obtain ⟨_, _, _, heq⟩ := bindParts?_eq_some_iff.mp hp
  subst heq
  cases h with
  | cons hmember hrest =>
    obtain ⟨_, heq, hparts⟩ := hmember.keep_of_not_call hR nofun
    subst heq
    cases hparts with
    | cons htarget hproperty =>
      cases hproperty with
      | cons hname hnil =>
        obtain ⟨_, heq, hleaf⟩ := hname.keep_of_not_call hR nofun
        subst heq
        cases hnil
        cases hleaf
        exact ⟨_, _, rfl, htarget, hrest⟩

-- Where the parts of two calls are the same, either both or none of them is a bind call.
theorem SameEdgesBut.throughBinder {l : Label} {es₁ es₂ : List Edge} {binder : String}
    (h : SameEdgesBut R es₁ es₂) :
    SameBut R ((Node.mk l es₁).throughBinder binder) ((Node.mk l es₂).throughBinder binder) := by
  by_cases hl : l.kind? = some .callExpression
  case neg =>
    have hnone (es : List Edge) : (Node.mk l es).isBindCall = false := by
      rw [← Bool.not_eq_true, Node.isBindCall_mk]
      exact fun h => hl h.1
    rw [Node.throughBinder_of_not_isBindCall _ (hnone _), Node.throughBinder_of_not_isBindCall _ (hnone _)]
    exact .keep h
  case pos =>
    cases l
    case form k s as =>
      cases hl
      rw [Node.throughBinder, Node.throughBinder]
      cases hp₁ : RenderMemo.bindParts? es₁
      case some parts =>
        obtain ⟨_, _, hp₂, htarget, hrest⟩ := h.bindParts? hR hp₁
        rw [hp₂]
        exact .keep <| .cons (.refl _) <| .cons (.keep <| .cons htarget .nil) hrest
      case none =>
        cases hp₂ : RenderMemo.bindParts? es₂
        case none => exact .keep h
        case some parts =>
          obtain ⟨_, _, hp, _⟩ := h.symm.bindParts? (fun h => (hR h).symm) hp₂
          rw [hp₁] at hp
          cases hp
    all_goals cases hl

end

-- To lead a tree through a binder makes a difference only where the replacements differ.
mutual

theorem Node.rebound_same {R : Node → Node → Prop}
    (hR : ∀ {n₁ n₂}, R n₁ n₂ → n₁.kind? = some .callExpression ∧ n₂.kind? = some .callExpression)
    (binder : String) : ∀ (n : Node) (rs₁ rs₂ : List Node), Forall₂ R rs₁ rs₂ →
    SameBut R (n.rebound binder rs₁) (n.rebound binder rs₂)
  | .mk l es, rs₁, rs₂, hrs => by
    rw [Node.rebound, Node.rebound]
    split
    case isTrue =>
      cases hrs
      case nil       => exact .refl _
      case cons hr _ => exact .here hr
    case isFalse => exact (reboundEdges_same hR binder es rs₁ rs₂ hrs).throughBinder hR

theorem reboundEdges_same {R : Node → Node → Prop}
    (hR : ∀ {n₁ n₂}, R n₁ n₂ → n₁.kind? = some .callExpression ∧ n₂.kind? = some .callExpression)
    (binder : String) : ∀ (es : List Edge) (rs₁ rs₂ : List Node), Forall₂ R rs₁ rs₂ →
    SameEdgesBut R (reboundEdges binder es rs₁) (reboundEdges binder es rs₂)
  | [], _, _, _ => .nil
  | (_, n) :: es, _, _, hrs =>
    .cons (Node.rebound_same hR binder n _ _ <| forall₂_take _ hrs)
      (reboundEdges_same hR binder es _ _ <| forall₂_drop _ hrs)

end

-- An identifier is kept exactly if nothing of the same name and scope stands in front of it.

theorem firstOccurrences_concat_of_not_mem {is : List Ident} {i : Ident}
    (h : i.binding ∉ is.map Ident.binding) : firstOccurrences (is ++ [i]) = firstOccurrences is ++ [i] := by
  induction is
  case nil => rfl
  case cons j is hi =>
    rw [map_cons, mem_cons, not_or] at h
    rw [cons_append, firstOccurrences, hi h.2, firstOccurrences, filter_append]
    simp [h.1]

theorem firstOccurrences_concat_of_mem {is : List Ident} {i : Ident} (h : i.binding ∈ is.map Ident.binding) :
    firstOccurrences (is ++ [i]) = firstOccurrences is := by
  induction is
  case nil => cases h
  case cons j is hi =>
    rw [cons_append, firstOccurrences, firstOccurrences]
    by_cases hmem : i.binding ∈ is.map Ident.binding
    case pos => rw [hi hmem]
    case neg =>
      have hj : i.binding = j.binding := (mem_cons.mp h).resolve_right hmem
      rw [firstOccurrences_concat_of_not_mem hmem, filter_append]
      simp [hj]

-- The variables of one closure in two runs. They are the same, unless only one of the runs removes
-- repetitions.
def CapturedAlike : Bool → Bool → List Ident → List Ident → Prop
  | true,  false, is₁, is₂ => is₁ = firstOccurrences is₂
  | false, true,  is₁, is₂ => is₂ = firstOccurrences is₁
  | _,     _,     is₁, is₂ => is₁ = is₂

-- One closure in two runs.
structure Hoisted.Alike (dedupe₁ dedupe₂ : Bool) (h₁ h₂ : Hoisted) : Prop where
  name     : h₁.name = h₂.name
  arrow    : h₁.arrow = h₂.arrow
  captured : CapturedAlike dedupe₁ dedupe₂ h₁.captured h₂.captured

-- One binding in two runs.
structure Binding.Alike (dedupe₁ dedupe₂ : Bool) (b₁ b₂ : Binding) : Prop where
  binder    : b₁.binder = b₂.binder
  span      : b₁.span = b₂.span
  bindSites : b₁.bindSites = b₂.bindSites
  hoisted   : Forall₂ (Hoisted.Alike dedupe₁ dedupe₂) b₁.hoisted b₂.hoisted

-- One closure that goes through a binder in two runs, each of which makes the given bindings.
structure Paired (dedupe₁ dedupe₂ : Bool) (bs₁ bs₂ : List Binding) (b₁ b₂ : Binding) (h₁ h₂ : Hoisted) :
    Prop where
  binding_mem₁ : b₁ ∈ bs₁
  binding_mem₂ : b₂ ∈ bs₂
  binding      : b₁.Alike dedupe₁ dedupe₂ b₂
  closure_mem₁ : h₁ ∈ b₁.hoisted
  closure_mem₂ : h₂ ∈ b₂.hoisted
  closure      : h₁.Alike dedupe₁ dedupe₂ h₂

-- The calls that stand for one closure in two runs.
inductive CallsAlike (dedupe₁ dedupe₂ : Bool) (bs₁ bs₂ : List Binding) : Node → Node → Prop
  | call {b₁ b₂ : Binding} {h₁ h₂ : Hoisted} :
      Paired dedupe₁ dedupe₂ bs₁ bs₂ b₁ b₂ h₁ h₂ →
      CallsAlike dedupe₁ dedupe₂ bs₁ bs₂ (h₁.call b₁.binder) (h₂.call b₂.binder)

theorem CallsAlike.kind? {dedupe₁ dedupe₂ : Bool} {bs₁ bs₂ : List Binding} {n₁ n₂ : Node}
    (h : CallsAlike dedupe₁ dedupe₂ bs₁ bs₂ n₁ n₂) :
    n₁.kind? = some .callExpression ∧ n₂.kind? = some .callExpression := by
  cases h with
  | call => exact ⟨rfl, rfl⟩

section

variable {dedupe₁ dedupe₂ : Bool} {bs₁ bs₂ : List Binding} {b₁ b₂ : Binding}

theorem hoistAll_alike (dedupe₁ dedupe₂ : Bool) (closures : List Node) (names : Names) :
    Forall₂ (Hoisted.Alike dedupe₁ dedupe₂) (hoistAll dedupe₁ closures names).1
      (hoistAll dedupe₂ closures names).1 := by
  have hcaptured (is : List Ident) :
      CapturedAlike dedupe₁ dedupe₂ (if dedupe₁ then firstOccurrences is else is)
        (if dedupe₂ then firstOccurrences is else is) := by
    cases dedupe₁ <;> cases dedupe₂ <;> rfl
  simp only [hoistAll]
  generalize (names.generateMany "hoistedFunc" closures.length).1 = fresh
  induction fresh generalizing closures
  case nil => exact .nil
  case cons name fresh hi =>
    cases closures
    case nil       => exact .nil
    case cons a as => exact .cons ⟨rfl, rfl, hcaptured a.captured⟩ (hi as)

-- What a function is given depends on its bodies.
theorem Node.binding_alike (dedupe₁ dedupe₂ : Bool) {n₁ n₂ : Node} (names : Names)
    (hbody : n₁.at .body = n₂.at .body) (hspan : n₁.span = n₂.span) :
    (n₁.binding dedupe₁ names).Alike dedupe₁ dedupe₂ (n₂.binding dedupe₂ names) where
  binder    := rfl
  span      := hspan
  bindSites := by rw [binding, binding, hbody]
  hoisted   := by
    rw [binding, binding, hbody]
    exact hoistAll_alike ..

namespace Binding.Alike

theorem isUsed (h : b₁.Alike dedupe₁ dedupe₂ b₂) : b₁.isUsed = b₂.isUsed := by
  have hempty {hs₁ hs₂ : List Hoisted} (hhs : Forall₂ (Hoisted.Alike dedupe₁ dedupe₂) hs₁ hs₂) :
      hs₁.isEmpty = hs₂.isEmpty := by
    cases hhs <;> rfl
  rw [Binding.isUsed, Binding.isUsed, hempty h.hoisted, h.bindSites]

-- The closures of two bindings are alike, one by one.
theorem paired (h : b₁.Alike dedupe₁ dedupe₂ b₂) (hb₁ : b₁ ∈ bs₁) (hb₂ : b₂ ∈ bs₂) :
    Forall₂ (Paired dedupe₁ dedupe₂ bs₁ bs₂ b₁ b₂) b₁.hoisted b₂.hoisted := by
  have hclosures {hs₁ hs₂ : List Hoisted} (hhs : Forall₂ (Hoisted.Alike dedupe₁ dedupe₂) hs₁ hs₂)
      (h₁ : hs₁ ⊆ b₁.hoisted) (h₂ : hs₂ ⊆ b₂.hoisted) :
      Forall₂ (Paired dedupe₁ dedupe₂ bs₁ bs₂ b₁ b₂) hs₁ hs₂ := by
    induction hhs
    case nil => exact .nil
    case cons hh _ hi =>
      have ⟨hmem₁, h₁⟩ := cons_subset.mp h₁
      have ⟨hmem₂, h₂⟩ := cons_subset.mp h₂
      exact .cons ⟨hb₁, hb₂, h, hmem₁, hmem₂, hh⟩ (hi h₁ h₂)
  exact hclosures h.hoisted (Subset.refl _) (Subset.refl _)

theorem calls (h : b₁.Alike dedupe₁ dedupe₂ b₂) (hb₁ : b₁ ∈ bs₁) (hb₂ : b₂ ∈ bs₂) :
    Forall₂ (CallsAlike dedupe₁ dedupe₂ bs₁ bs₂) (b₁.hoisted.map (·.call b₁.binder))
      (b₂.hoisted.map (·.call b₂.binder)) := by
  rw [forall₂_map_left_iff, forall₂_map_right_iff]
  exact (h.paired hb₁ hb₂).imp fun _ _ => .call

end Binding.Alike

end

-- Two visits of one tree. The results are alike as far as the closures that go through binders are.
structure Visit.Alike {α : Type} (dedupe₁ dedupe₂ : Bool) (S : List Binding → List Binding → α → α → Prop)
    (v₁ v₂ : Visit α) : Prop where
  result   : ∀ bs₁ bs₂, v₁.bindings ⊆ bs₁ → v₂.bindings ⊆ bs₂ → S bs₁ bs₂ v₁.result v₂.result
  bindings : Forall₂ (Binding.Alike dedupe₁ dedupe₂) v₁.bindings v₂.bindings
  detected : v₁.detected = v₂.detected
  names    : v₁.names = v₂.names

theorem Visit.Alike.imp {α : Type} {dedupe₁ dedupe₂ : Bool} {S T : List Binding → List Binding → α → α → Prop}
    {v₁ v₂ : Visit α} (h : v₁.Alike dedupe₁ dedupe₂ S v₂)
    (hST : ∀ bs₁ bs₂ x₁ x₂, S bs₁ bs₂ x₁ x₂ → T bs₁ bs₂ x₁ x₂) :
    v₁.Alike dedupe₁ dedupe₂ T v₂ where
  result   := fun bs₁ bs₂ h₁ h₂ => hST _ _ _ _ (h.result bs₁ bs₂ h₁ h₂)
  bindings := h.bindings
  detected := h.detected
  names    := h.names

-- Parts that a visit leaves as they are.
def Inert (dedupe : Bool) (es : List Edge) : Prop :=
  ∀ e ∈ es, e.1 ≠ .body ∧ ∀ names, e.2.visit dedupe names = ⟨e.2, [], 0, names⟩

theorem visitEdges_inert {dedupe : Bool} {front : List Edge} (es : List Edge) (names : Names)
    (h : Inert dedupe front) :
    visitEdges dedupe (front ++ es) names =
      { visitEdges dedupe es names with result := front ++ (visitEdges dedupe es names).result } := by
  induction front
  case nil => rfl
  case cons e front hi =>
    have ⟨he, hfront⟩ := forall_mem_cons.mp h
    simp [visitEdges, he.2, hi hfront]

theorem visitBound_inert {dedupe : Bool} {front : List Edge} (binder : String) (es : List Edge)
    (rs : List Node) (names : Names) (h : Inert dedupe front) :
    visitBound dedupe binder (front ++ es) rs names =
      { visitBound dedupe binder es rs names with
        result := front ++ (visitBound dedupe binder es rs names).result } := by
  induction front
  case nil => rfl
  case cons e front hi =>
    have ⟨he, hfront⟩ := forall_mem_cons.mp h
    simp [visitBound, he.1, he.2, hi hfront]

theorem at_body_inert {dedupe : Bool} {front es : List Edge} (l₁ l₂ : Label) (h : Inert dedupe front) :
    (Node.mk l₁ (front ++ es)).at .body = (Node.mk l₂ es).at .body := by
  induction front
  case nil => rfl
  case cons e front hi =>
    have ⟨he, hfront⟩ := forall_mem_cons.mp h
    rw [cons_append, Node.at_cons, if_neg he.1, hi hfront]

theorem Node.visit_inert {dedupe : Bool} {l : Label} {front es : List Edge} {names : Names}
    (h : Inert dedupe front) (hr : (mk l (front ++ es)).isRenderWithBody = true) :
    (mk l (front ++ es)).visit dedupe names =
      let b := (mk l (front ++ es)).binding dedupe names
      let rest := visitBound dedupe b.binder es (b.hoisted.map (·.call b.binder))
        ((mk l (front ++ es)).namesOfBinding dedupe names)
      { result   := mk l (front ++ rest.result)
        bindings := if b.isUsed then b :: rest.bindings else rest.bindings
        detected := rest.detected + 1
        names    := rest.names } := by
  rw [visit_of_isRenderWithBody hr]
  simp only [visitBound_inert _ es _ _ h]

-- Two trees with the same parts behind some that are left as they are.
def TailsAlike (dedupe₁ dedupe₂ : Bool) (l₁ l₂ : Label) (front₁ front₂ : List Edge) (bs₁ bs₂ : List Binding)
    (n₁ n₂ : Node) : Prop :=
  ∃ es₁ es₂, n₁ = .mk l₁ (front₁ ++ es₁) ∧ n₂ = .mk l₂ (front₂ ++ es₂) ∧
    SameEdgesBut (CallsAlike dedupe₁ dedupe₂ bs₁ bs₂) es₁ es₂

-- The parts of a render function are alike if the calls of its own binder are.
def BoundAlike (dedupe₁ dedupe₂ : Bool) (rs₁ rs₂ : List Node) (bs₁ bs₂ : List Binding) (es₁ es₂ : List Edge) :
    Prop :=
  Forall₂ (CallsAlike dedupe₁ dedupe₂ bs₁ bs₂) rs₁ rs₂ →
    SameEdgesBut (CallsAlike dedupe₁ dedupe₂ bs₁ bs₂) es₁ es₂

-- A step of a visit, in two runs.
theorem visit_alike_of_edges {dedupe₁ dedupe₂ : Bool} {front₁ front₂ : List Edge} (l₁ l₂ : Label)
    (es : List Edge) (names : Names) (hinert₁ : Inert dedupe₁ front₁) (hinert₂ : Inert dedupe₂ front₂)
    (hspan : (Node.mk l₁ (front₁ ++ es)).span = (Node.mk l₂ (front₂ ++ es)).span)
    (hrender : (Node.mk l₁ (front₁ ++ es)).isRenderWithBody = (Node.mk l₂ (front₂ ++ es)).isRenderWithBody)
    (hedges : (visitEdges dedupe₁ es names).Alike dedupe₁ dedupe₂
      (fun bs₁ bs₂ => SameEdgesBut (CallsAlike dedupe₁ dedupe₂ bs₁ bs₂)) (visitEdges dedupe₂ es names))
    (hbound : ∀ binder rs₁ rs₂ names,
      rs₁.length = (((Node.mk l₁ es).at .body).flatMap Node.closures).length →
      rs₂.length = (((Node.mk l₁ es).at .body).flatMap Node.closures).length →
      (∀ r ∈ rs₁, ∃ h : Hoisted, r = h.call binder) → (∀ r ∈ rs₂, ∃ h : Hoisted, r = h.call binder) →
      (visitBound dedupe₁ binder es rs₁ names).Alike dedupe₁ dedupe₂ (BoundAlike dedupe₁ dedupe₂ rs₁ rs₂)
        (visitBound dedupe₂ binder es rs₂ names)) :
    ((Node.mk l₁ (front₁ ++ es)).visit dedupe₁ names).Alike dedupe₁ dedupe₂
      (TailsAlike dedupe₁ dedupe₂ l₁ l₂ front₁ front₂) ((Node.mk l₂ (front₂ ++ es)).visit dedupe₂ names) := by
  cases hr : (Node.mk l₁ (front₁ ++ es)).isRenderWithBody
  case false =>
    rw [Node.visit_of_not_isRenderWithBody hr, Node.visit_of_not_isRenderWithBody (hrender ▸ hr),
      visitEdges_inert es names hinert₁, visitEdges_inert es names hinert₂]
    exact {
      result   := fun bs₁ bs₂ h₁ h₂ => ⟨_, _, rfl, rfl, hedges.result bs₁ bs₂ h₁ h₂⟩
      bindings := hedges.bindings
      detected := hedges.detected
      names    := hedges.names }
  case true =>
    have hbody : (Node.mk l₁ (front₁ ++ es)).at .body = (Node.mk l₂ (front₂ ++ es)).at .body :=
      (at_body_inert l₁ l₁ hinert₁).trans (at_body_inert l₂ l₁ hinert₂).symm
    have hbinding := Node.binding_alike dedupe₁ dedupe₂ names hbody hspan
    have hnames : (Node.mk l₁ (front₁ ++ es)).namesOfBinding dedupe₁ names =
        (Node.mk l₂ (front₂ ++ es)).namesOfBinding dedupe₂ names := by
      rw [Node.namesOfBinding, Node.namesOfBinding, hbody]
      rfl
    have hlen₁ := Node.length_hoisted_binding dedupe₁ (.mk l₁ (front₁ ++ es)) names
    have hlen₂ := Node.length_hoisted_binding dedupe₂ (.mk l₂ (front₂ ++ es)) names
    rw [at_body_inert l₁ l₁ hinert₁] at hlen₁
    rw [at_body_inert l₂ l₁ hinert₂] at hlen₂
    rw [Node.visit_inert hinert₁ hr, Node.visit_inert hinert₂ (hrender ▸ hr), ← hnames]
    generalize (Node.mk l₁ (front₁ ++ es)).namesOfBinding dedupe₁ names = taken
    generalize (Node.mk l₁ (front₁ ++ es)).binding dedupe₁ names = b₁ at hbinding hlen₁ ⊢
    generalize (Node.mk l₂ (front₂ ++ es)).binding dedupe₂ names = b₂ at hbinding hlen₂ ⊢
    have hrest := hbound b₁.binder (b₁.hoisted.map (·.call b₁.binder)) (b₂.hoisted.map (·.call b₂.binder)) taken
      (by simpa using hlen₁) (by simpa using hlen₂) (by simpa using fun h _ => ⟨h, rfl⟩)
      (by simpa [hbinding.binder] using fun h _ => ⟨h, rfl⟩)
    simp only [← hbinding.isUsed, ← hbinding.binder] at hrest ⊢
    cases hu : b₁.isUsed
    case true =>
      exact {
        result   := fun bs₁ bs₂ h₁ h₂ => by
          have ⟨hb₁, h₁⟩ := cons_subset.mp h₁
          have ⟨hb₂, h₂⟩ := cons_subset.mp h₂
          have hcalls := hbinding.calls hb₁ hb₂
          rw [← hbinding.binder] at hcalls
          exact ⟨_, _, rfl, rfl, hrest.result bs₁ bs₂ h₁ h₂ hcalls⟩
        bindings := .cons hbinding hrest.bindings
        detected := congrArg (· + 1) hrest.detected
        names    := hrest.names }
    case false =>
      have hnone₁ := Binding.hoisted_of_not_isUsed hu
      have hnone₂ := Binding.hoisted_of_not_isUsed (hbinding.isUsed ▸ hu)
      exact {
        result   := fun bs₁ bs₂ h₁ h₂ => by
          refine ⟨_, _, rfl, rfl, hrest.result bs₁ bs₂ h₁ h₂ ?_⟩
          rw [hnone₁, hnone₂]
          exact .nil
        bindings := hrest.bindings
        detected := congrArg (· + 1) hrest.detected
        names    := hrest.names }

-- A visit of one tree is the same whether repetitions are removed or not.
mutual

theorem Node.visit_alike (dedupe₁ dedupe₂ : Bool) : ∀ (n : Node) (names : Names),
    (n.visit dedupe₁ names).Alike dedupe₁ dedupe₂
      (fun bs₁ bs₂ => SameBut (CallsAlike dedupe₁ dedupe₂ bs₁ bs₂)) (n.visit dedupe₂ names)
  | .mk l es, names => by
    have hnone (dedupe : Bool) : Inert dedupe [] := nofun
    have hvisit := visit_alike_of_edges l l es names (hnone dedupe₁) (hnone dedupe₂) rfl rfl
      (visitEdges_alike dedupe₁ dedupe₂ es names)
      fun binder rs₁ rs₂ names => visitBound_alike dedupe₁ dedupe₂ l binder es rs₁ rs₂ names
    refine hvisit.imp fun bs₁ bs₂ n₁ n₂ ⟨es₁, es₂, h₁, h₂, hes⟩ => ?_
    rw [h₁, h₂]
    exact .keep hes

theorem visitEdges_alike (dedupe₁ dedupe₂ : Bool) : ∀ (es : List Edge) (names : Names),
    (visitEdges dedupe₁ es names).Alike dedupe₁ dedupe₂
      (fun bs₁ bs₂ => SameEdgesBut (CallsAlike dedupe₁ dedupe₂ bs₁ bs₂)) (visitEdges dedupe₂ es names)
  | [], _ => ⟨fun _ _ _ _ => .nil, .nil, rfl, rfl⟩
  | (f, n) :: es, names => by
    have hn := Node.visit_alike dedupe₁ dedupe₂ n names
    have hes := visitEdges_alike dedupe₁ dedupe₂ es (n.visit dedupe₁ names).names
    rw [visitEdges, visitEdges, ← hn.names]
    exact {
      result   := fun bs₁ bs₂ h₁ h₂ => by
        have ⟨hfirst₁, hrest₁⟩ := append_subset.mp h₁
        have ⟨hfirst₂, hrest₂⟩ := append_subset.mp h₂
        exact .cons (hn.result bs₁ bs₂ hfirst₁ hfirst₂) (hes.result bs₁ bs₂ hrest₁ hrest₂)
      bindings := rel_append hn.bindings hes.bindings
      detected := congrArg₂ (· + ·) hn.detected hes.detected
      names    := hes.names }

theorem visitBound_alike (dedupe₁ dedupe₂ : Bool) (l : Label) (binder : String) :
    ∀ (es : List Edge) (rs₁ rs₂ : List Node) (names : Names),
      rs₁.length = (((Node.mk l es).at .body).flatMap Node.closures).length →
      rs₂.length = (((Node.mk l es).at .body).flatMap Node.closures).length →
      (∀ r ∈ rs₁, ∃ h : Hoisted, r = h.call binder) → (∀ r ∈ rs₂, ∃ h : Hoisted, r = h.call binder) →
      (visitBound dedupe₁ binder es rs₁ names).Alike dedupe₁ dedupe₂ (BoundAlike dedupe₁ dedupe₂ rs₁ rs₂)
        (visitBound dedupe₂ binder es rs₂ names)
  | [], _, _, _, _, _, _, _ => ⟨fun _ _ _ _ _ => .nil, .nil, rfl, rfl⟩
  | (f, n) :: es, rs₁, rs₂, names, hlen₁, hlen₂, hrs₁, hrs₂ => by
    rw [visitBound, visitBound]
    split
    case isTrue hf =>
      simp only [Node.at_cons, hf, if_true, flatMap_cons, length_append] at hlen₁ hlen₂
      have hcount₁ := Node.renderCount_rebound n (rs₁.take n.closures.length) (by simp [hlen₁])
        fun r hr => hrs₁ r (mem_of_mem_take hr)
      have hcount₂ := Node.renderCount_rebound n (rs₂.take n.closures.length) (by simp [hlen₂])
        fun r hr => hrs₂ r (mem_of_mem_take hr)
      have hcount : (n.rebound binder (rs₁.take n.closures.length)).renderCount =
          (n.rebound binder (rs₂.take n.closures.length)).renderCount := by
        omega
      have hes := visitBound_alike dedupe₁ dedupe₂ l binder es (rs₁.drop n.closures.length)
        (rs₂.drop n.closures.length)
        (names.reserve "bindRenderFunc" (n.rebound binder (rs₁.take n.closures.length)).renderCount)
        (by simp [hlen₁]) (by simp [hlen₂]) (fun r hr => hrs₁ r (mem_of_mem_drop hr))
        fun r hr => hrs₂ r (mem_of_mem_drop hr)
      simp only [← hcount]
      exact {
        result   := fun bs₁ bs₂ h₁ h₂ hrs =>
          .cons (n.rebound_same CallsAlike.kind? binder _ _ <| forall₂_take _ hrs)
            (hes.result bs₁ bs₂ h₁ h₂ <| forall₂_drop _ hrs)
        bindings := hes.bindings
        detected := congrArg (_ + ·) hes.detected
        names    := hes.names }
    case isFalse hf =>
      simp only [Node.at_cons, hf, if_false] at hlen₁ hlen₂
      have hn := Node.visit_alike dedupe₁ dedupe₂ n names
      have hes := visitBound_alike dedupe₁ dedupe₂ l binder es rs₁ rs₂ (n.visit dedupe₁ names).names hlen₁ hlen₂
        hrs₁ hrs₂
      simp only [← hn.names]
      exact {
        result   := fun bs₁ bs₂ h₁ h₂ hrs => by
          have ⟨hfirst₁, hrest₁⟩ := append_subset.mp h₁
          have ⟨hfirst₂, hrest₂⟩ := append_subset.mp h₂
          exact .cons (hn.result bs₁ bs₂ hfirst₁ hfirst₂) (hes.result bs₁ bs₂ hrest₁ hrest₂ hrs)
        bindings := rel_append hn.bindings hes.bindings
        detected := congrArg₂ (· + ·) hn.detected hes.detected
        names    := hes.names }

end

namespace Hoisted

-- The parts of the declaration of a closure in front of those of the closure itself.
def front (h : Hoisted) : List Edge :=
  (.identifier, .named h.name) :: h.captured.map fun i => (.params, .parameter (.ofIdent i))

-- The declaration of a closure with the given parts.
def declared (h : Hoisted) (es : List Edge) : Node := .mk h.declarationLabel (h.front ++ es)

theorem declaration_eq_declared (h : Hoisted) : h.declaration = h.declared (h.arrow.edges.map declaredEdge) :=
  rfl

theorem inert_front (dedupe : Bool) (h : Hoisted) : Inert dedupe h.front := by
  refine forall_mem_cons.mpr ⟨⟨nofun, fun _ => rfl⟩, forall_mem_map.mpr fun i _ => ⟨nofun, fun _ => rfl⟩⟩

theorem isRenderWithBody_declared (h : Hoisted) (es : List Edge) :
    (h.declared es).isRenderWithBody =
      (edgesHaveMarkup es && !((Node.mk h.declarationLabel es).at .body).isEmpty) := by
  have hfront : edgesHaveMarkup h.front = false := by
    rw [edgesHaveMarkup_eq_any, any_eq_false]
    exact forall_mem_cons.mpr ⟨Bool.false_ne_true, forall_mem_map.mpr fun i _ => Bool.false_ne_true⟩
  have hmarkup : (h.declared es).hasMarkup = edgesHaveMarkup es := by
    rw [edgesHaveMarkup_eq_any] at hfront
    simp [declared, Node.hasMarkup, declarationLabel, Label.isMarkup, edgesHaveMarkup_eq_any, any_append, hfront]
  have hkind : (h.declared es).kind? = some .functionDeclaration := rfl
  have hbody : (h.declared es).at .body = (Node.mk h.declarationLabel es).at .body :=
    at_body_inert _ _ (h.inert_front false)
  rw [Node.isRenderWithBody, Node.renderKind?, hkind, hbody]
  simp only [hmarkup]
  cases edgesHaveMarkup es <;> rfl

-- The declarations of one closure differ in the variables that it takes along, which nothing is visited for.
theorem Alike.visit {dedupe₁ dedupe₂ : Bool} {h₁ h₂ : Hoisted} (h : h₁.Alike dedupe₁ dedupe₂ h₂)
    (names : Names) :
    (h₁.declaration.visit dedupe₁ names).Alike dedupe₁ dedupe₂
      (TailsAlike dedupe₁ dedupe₂ h₁.declarationLabel h₂.declarationLabel h₁.front h₂.front)
      (h₂.declaration.visit dedupe₂ names) := by
  have hlabel : h₁.declarationLabel = h₂.declarationLabel := by
    rw [declarationLabel, declarationLabel, h.arrow]
  rw [declaration_eq_declared, declaration_eq_declared, ← h.arrow]
  have hrender (es : List Edge) : (h₁.declared es).isRenderWithBody = (h₂.declared es).isRenderWithBody := by
    rw [isRenderWithBody_declared, isRenderWithBody_declared, hlabel]
  exact visit_alike_of_edges _ _ _ names (h₁.inert_front dedupe₁) (h₂.inert_front dedupe₂) rfl (hrender _)
    (visitEdges_alike dedupe₁ dedupe₂ _ names)
    fun binder rs₁ rs₂ names => visitBound_alike dedupe₁ dedupe₂ _ binder _ rs₁ rs₂ names

end Hoisted

-- One item of a result in two runs.
inductive Emitted.Alike (dedupe₁ dedupe₂ : Bool) (bs₁ bs₂ : List Binding) : Emitted → Emitted → Prop
  | binder {b₁ b₂ : Binding} :
      b₁ ∈ bs₁ → b₂ ∈ bs₂ → b₁.Alike dedupe₁ dedupe₂ b₂ →
      Alike dedupe₁ dedupe₂ bs₁ bs₂ (.binder b₁) (.binder b₂)
  | closure {b₁ b₂ : Binding} {h₁ h₂ : Hoisted} {es₁ es₂ : List Edge} :
      Paired dedupe₁ dedupe₂ bs₁ bs₂ b₁ b₂ h₁ h₂ →
      SameEdgesBut (CallsAlike dedupe₁ dedupe₂ bs₁ bs₂) es₁ es₂ →
      Alike dedupe₁ dedupe₂ bs₁ bs₂ (.closure h₁ (h₁.declared es₁)) (.closure h₂ (h₂.declared es₂))
  | own {n₁ n₂ : Node} :
      SameBut (CallsAlike dedupe₁ dedupe₂ bs₁ bs₂) n₁ n₂ →
      Alike dedupe₁ dedupe₂ bs₁ bs₂ (.own n₁) (.own n₂)

theorem Paired.emitted {dedupe₁ dedupe₂ : Bool} {bs₁ bs₂ : List Binding} {b₁ b₂ : Binding} {h₁ h₂ : Hoisted}
    {n₁ n₂ : Node} (h : Paired dedupe₁ dedupe₂ bs₁ bs₂ b₁ b₂ h₁ h₂)
    (hn : TailsAlike dedupe₁ dedupe₂ h₁.declarationLabel h₂.declarationLabel h₁.front h₂.front bs₁ bs₂ n₁ n₂) :
    (Emitted.closure h₁ n₁).Alike dedupe₁ dedupe₂ bs₁ bs₂ (.closure h₂ n₂) := by
  obtain ⟨_, _, hn₁, hn₂, hes⟩ := hn
  rw [hn₁, hn₂]
  exact .closure h hes

-- One item that is still to be expanded in two runs.
inductive Pending.Alike (dedupe₁ dedupe₂ : Bool) (bs₁ bs₂ : List Binding) : Pending → Pending → Prop
  | binder {b₁ b₂ : Binding} :
      b₁.Alike dedupe₁ dedupe₂ b₂ → Alike dedupe₁ dedupe₂ bs₁ bs₂ (.binder b₁) (.binder b₂)
  | closure {b₁ b₂ : Binding} {h₁ h₂ : Hoisted} :
      Paired dedupe₁ dedupe₂ bs₁ bs₂ b₁ b₂ h₁ h₂ →
      Alike dedupe₁ dedupe₂ bs₁ bs₂ (.closure h₁) (.closure h₂)

structure Expansion.Alike (dedupe₁ dedupe₂ : Bool) (bs₁ bs₂ : List Binding) (e₁ e₂ : Expansion) : Prop where
  items    : Forall₂ (Emitted.Alike dedupe₁ dedupe₂ bs₁ bs₂) e₁.items e₂.items
  detected : e₁.detected = e₂.detected
  names    : e₁.names = e₂.names

section

variable {dedupe₁ dedupe₂ : Bool} {bs₁ bs₂ : List Binding}

theorem Pending.ofBindings_alike {cs₁ cs₂ : List Binding} (h : Forall₂ (Binding.Alike dedupe₁ dedupe₂) cs₁ cs₂)
    (h₁ : cs₁ ⊆ bs₁) (h₂ : cs₂ ⊆ bs₂) :
    Forall₂ (Pending.Alike dedupe₁ dedupe₂ bs₁ bs₂) (ofBindings cs₁) (ofBindings cs₂) := by
  induction h
  case nil => exact .nil
  case cons b₁ b₂ cs₁ cs₂ hb _ hi =>
    have ⟨hb₁, h₁⟩ := cons_subset.mp h₁
    have ⟨hb₂, h₂⟩ := cons_subset.mp h₂
    have hclosures : Forall₂ (Pending.Alike dedupe₁ dedupe₂ bs₁ bs₂) (b₁.hoisted.map .closure)
        (b₂.hoisted.map .closure) := by
      rw [forall₂_map_left_iff, forall₂_map_right_iff]
      exact (hb.paired hb₁ hb₂).imp fun _ _ => .closure
    exact .cons (.binder hb) <| rel_append hclosures (hi h₁ h₂)

theorem subset_bindings_expand {dedupe : Bool} {emit : Node → Emitted} (hemit : ∀ n, (emit n).binding? = none)
    (item : Node) (names : Names) :
    (item.visit dedupe names).bindings ⊆ Emitted.bindings (expand dedupe emit item names).items := by
  intro b hb
  rw [expand_eq, Emitted.bindings_append_last hemit]
  exact mem_filterMap.mpr ⟨_, Pending.binder_mem_expandPending <| Pending.binder_mem_ofBindings.mpr hb, rfl⟩

-- Two runs expand an item alike as soon as they visit it alike. The bindings that the expansions make are
-- carried through the induction because the calls in an item go through binders in front of it.
theorem expand_alike {emit₁ emit₂ : Node → Emitted} {item₁ item₂ : Node} (names : Names)
    {S : List Binding → List Binding → Node → Node → Prop}
    (hemit₁ : ∀ n, (emit₁ n).binding? = none) (hemit₂ : ∀ n, (emit₂ n).binding? = none)
    (hvisit : ∀ names, (item₁.visit dedupe₁ names).Alike dedupe₁ dedupe₂ S (item₂.visit dedupe₂ names))
    (hlast : ∀ n₁ n₂, S bs₁ bs₂ n₁ n₂ → (emit₁ n₁).Alike dedupe₁ dedupe₂ bs₁ bs₂ (emit₂ n₂))
    (h₁ : Emitted.bindings (expand dedupe₁ emit₁ item₁ names).items ⊆ bs₁)
    (h₂ : Emitted.bindings (expand dedupe₂ emit₂ item₂ names).items ⊆ bs₂) :
    (expand dedupe₁ emit₁ item₁ names).Alike dedupe₁ dedupe₂ bs₁ bs₂ (expand dedupe₂ emit₂ item₂ names) := by
  induction emit₁, item₁, names using expand_induction dedupe₁
    (F := fun ps₁ names => ∀ ps₂, Forall₂ (Pending.Alike dedupe₁ dedupe₂ bs₁ bs₂) ps₁ ps₂ →
      Emitted.bindings (expandPending dedupe₁ ps₁ names).items ⊆ bs₁ →
      Emitted.bindings (expandPending dedupe₂ ps₂ names).items ⊆ bs₂ →
      (expandPending dedupe₁ ps₁ names).Alike dedupe₁ dedupe₂ bs₁ bs₂ (expandPending dedupe₂ ps₂ names))
    generalizing emit₂ item₂ S
  case nil names ps₂ hps h₁ h₂ =>
    cases hps
    exact ⟨.nil, rfl, rfl⟩
  case binder b₁ ps₁ names hi ps₂ hps h₁ h₂ =>
    cases hps with
    | cons hpending hps =>
      cases hpending with
      | binder hb =>
        rw [expandPending, Emitted.bindings_cons_binder, cons_subset] at h₁ h₂
        have hrest := hi _ hps h₁.2 h₂.2
        exact ⟨.cons (.binder h₁.1 h₂.1 hb) hrest.items, hrest.detected, hrest.names⟩
  case closure h₁' ps₁ names hclosure hi ps₂ hps h₁ h₂ =>
    cases hps with
    | cons hpending hps =>
      cases hpending with
      | closure hpaired =>
        rw [expandPending, Emitted.bindings_append, append_subset] at h₁ h₂
        have hfirst := hclosure (fun _ => rfl) (fun _ => rfl) hpaired.closure.visit
          (fun _ _ => hpaired.emitted) h₁.1 h₂.1
        have hrest := hi _ hps h₁.2 (hfirst.names ▸ h₂.2)
        rw [expandPending, expandPending, ← hfirst.names]
        exact {
          items    := rel_append hfirst.items hrest.items
          detected := congrArg₂ (· + ·) hfirst.detected hrest.detected
          names    := hrest.names }
  case item emit₁ item₁ names hi =>
    have hitem := hvisit names
    have hsub₁ := List.Subset.trans (subset_bindings_expand hemit₁ item₁ names) h₁
    have hsub₂ := List.Subset.trans (subset_bindings_expand hemit₂ item₂ names) h₂
    have hpending := Pending.ofBindings_alike hitem.bindings hsub₁ hsub₂
    rw [expand_eq, Emitted.bindings_append_last ‹_›] at h₁ h₂
    have hfront := hi _ hpending h₁ (hitem.names ▸ h₂)
    rw [expand_eq, expand_eq]
    simp only [← hitem.names]
    exact {
      items    := rel_append hfront.items <| .cons (hlast _ _ <| hitem.result bs₁ bs₂ hsub₁ hsub₂) .nil
      detected := congrArg₂ (· + ·) hitem.detected hfront.detected
      names    := hfront.names }

theorem expandItems_alike (items : List Node) (names : Names)
    (h₁ : Emitted.bindings (expandItems dedupe₁ items names).items ⊆ bs₁)
    (h₂ : Emitted.bindings (expandItems dedupe₂ items names).items ⊆ bs₂) :
    (expandItems dedupe₁ items names).Alike dedupe₁ dedupe₂ bs₁ bs₂ (expandItems dedupe₂ items names) := by
  induction items generalizing names
  case nil => exact ⟨.nil, rfl, rfl⟩
  case cons item items hi =>
    rw [expandItems, Emitted.bindings_append, append_subset] at h₁ h₂
    have hfirst := expand_alike names (fun _ => rfl) (fun _ => rfl) (item.visit_alike dedupe₁ dedupe₂)
      (fun _ _ => .own) h₁.1 h₂.1
    have hrest := hi _ h₁.2 (hfirst.names ▸ h₂.2)
    rw [expandItems, expandItems, ← hfirst.names]
    exact {
      items    := rel_append hfirst.items hrest.items
      detected := congrArg₂ (· + ·) hfirst.detected hrest.detected
      names    := hrest.names }

theorem Emitted.bindings_alike {xs₁ xs₂ : List Emitted}
    (h : Forall₂ (Emitted.Alike dedupe₁ dedupe₂ bs₁ bs₂) xs₁ xs₂) :
    Forall₂ (Binding.Alike dedupe₁ dedupe₂) (bindings xs₁) (bindings xs₂) := by
  induction h
  case nil => exact .nil
  case cons hx _ hi =>
    cases hx with
    | binder _ _ hb => exact .cons hb hi
    | closure   => exact hi
    | own       => exact hi

end

-- The sizes of the caches in two runs.
inductive SizesAlike (c₁ c₂ : Config) : Node → Node → Prop
  | size :
      SizesAlike c₁ c₂ (.numericLiteral (Decimal.toDouble c₁.cacheSize.toNat))
        (.numericLiteral (Decimal.toDouble c₂.cacheSize.toNat))

theorem binderDeclaration_alike (c₁ c₂ : Config) (binder memoize : String) :
    SameBut (SizesAlike c₁ c₂) (binderDeclaration binder memoize c₁.cacheSize)
      (binderDeclaration binder memoize c₂.cacheSize) := by
  have hsize : SameBut (SizesAlike c₁ c₂) (.entry (.numericLiteral (Decimal.toDouble c₁.cacheSize.toNat)))
      (.entry (.numericLiteral (Decimal.toDouble c₂.cacheSize.toNat))) :=
    .keep <| .cons (.here .size) .nil
  have hmemoizer : SameBut (SizesAlike c₁ c₂)
      (.call (.named memoize) [.entry (.numericLiteral (Decimal.toDouble c₁.cacheSize.toNat))])
      (.call (.named memoize) [.entry (.numericLiteral (Decimal.toDouble c₂.cacheSize.toNat))]) :=
    .keep <| .cons (.refl _) <| .cons hsize .nil
  exact .keep <| .cons (.keep <| .cons (.refl _) <| .cons (.keep <| .cons hmemoizer <| .refl _) .nil) .nil

namespace Program

theorem expansion_alike (p : Program) (dedupe₁ dedupe₂ : Bool) :
    (p.expansion dedupe₁).2.Alike dedupe₁ dedupe₂ (p.bindings dedupe₁) (p.bindings dedupe₂)
      (p.expansion dedupe₂).2 :=
  expandItems_alike p.body _ (Subset.refl _) (Subset.refl _)

theorem bindings_alike (p : Program) (dedupe₁ dedupe₂ : Bool) :
    Forall₂ (Binding.Alike dedupe₁ dedupe₂) (p.bindings dedupe₁) (p.bindings dedupe₂) :=
  Emitted.bindings_alike (p.expansion_alike dedupe₁ dedupe₂).items

-- Reports do not tell which options a run had.
theorem report_eq (p : Program) (c₁ c₂ : Config) : (p.memoize c₁).report = (p.memoize c₂).report := by
  have hbindings := p.bindings_alike c₁.dedupeCaptures c₂.dedupeCaptures
  have hsites := total_eq_of_forall₂ <| hbindings.imp fun _ _ hb => hb.bindSites
  have hhoisted := total_eq_of_forall₂ <| hbindings.imp fun _ _ hb => hb.hoisted.length_eq
  rw [total_eq_foldr, total_eq_foldr] at hsites hhoisted
  have hempty : (p.bindings c₁.dedupeCaptures).isEmpty = (p.bindings c₂.dedupeCaptures).isEmpty := by
    rw [Bool.eq_iff_iff, isEmpty_iff_length_eq_zero, isEmpty_iff_length_eq_zero, hbindings.length_eq]
  change (p.expansion c₁.dedupeCaptures).2.report = (p.expansion c₂.dedupeCaptures).2.report
  rw [Expansion.report, Expansion.report, Report.mk.injEq]
  exact ⟨(p.expansion_alike ..).detected, hbindings.length_eq, hsites, hhoisted, congrArg _ hempty⟩

-- The items of a result behind the one that brings the memoize function into scope.
def resultItems (p : Program) (c : Config) : List Node :=
  (p.expansion c.dedupeCaptures).2.items.map (p.nodeOf c)

-- One of these items in two runs.
inductive ItemsAlike (p : Program) (c₁ c₂ : Config) : Node → Node → Prop
  | binder {b₁ b₂ : Binding} :
      b₁ ∈ p.bindings c₁.dedupeCaptures → b₂ ∈ p.bindings c₂.dedupeCaptures →
      b₁.Alike c₁.dedupeCaptures c₂.dedupeCaptures b₂ →
      SameBut (SizesAlike c₁ c₂) (p.nodeOf c₁ (.binder b₁)) (p.nodeOf c₂ (.binder b₂)) →
      ItemsAlike p c₁ c₂ (p.nodeOf c₁ (.binder b₁)) (p.nodeOf c₂ (.binder b₂))
  | closure {b₁ b₂ : Binding} {h₁ h₂ : Hoisted} {es₁ es₂ : List Edge} :
      Paired c₁.dedupeCaptures c₂.dedupeCaptures (p.bindings c₁.dedupeCaptures) (p.bindings c₂.dedupeCaptures)
        b₁ b₂ h₁ h₂ →
      SameEdgesBut (CallsAlike c₁.dedupeCaptures c₂.dedupeCaptures (p.bindings c₁.dedupeCaptures)
        (p.bindings c₂.dedupeCaptures)) es₁ es₂ →
      ItemsAlike p c₁ c₂ (h₁.declared es₁) (h₂.declared es₂)
  | own {n₁ n₂ : Node} :
      SameBut (CallsAlike c₁.dedupeCaptures c₂.dedupeCaptures (p.bindings c₁.dedupeCaptures)
        (p.bindings c₂.dedupeCaptures)) n₁ n₂ →
      ItemsAlike p c₁ c₂ n₁ n₂

theorem resultItems_alike (p : Program) (c₁ c₂ : Config) :
    Forall₂ (p.ItemsAlike c₁ c₂) (p.resultItems c₁) (p.resultItems c₂) := by
  rw [resultItems, resultItems, forall₂_map_left_iff, forall₂_map_right_iff]
  refine (p.expansion_alike c₁.dedupeCaptures c₂.dedupeCaptures).items.imp fun y₁ y₂ hy => ?_
  cases hy
  case binder b₁ b₂ hb₁ hb₂ hb =>
    refine .binder hb₁ hb₂ hb ?_
    rw [nodeOf, nodeOf, Emitted.node, Emitted.node, ← hb.binder]
    exact binderDeclaration_alike ..
  case closure hpaired hes => exact .closure hpaired hes
  case own hn              => exact .own hn

-- As long as both runs treat repetitions alike, only the sizes of the caches make a difference behind the
-- import.
theorem resultItems_alike_of_dedupe (p : Program) {c₁ c₂ : Config} (h : c₁.dedupeCaptures = c₂.dedupeCaptures) :
    Forall₂ (SameBut (SizesAlike c₁ c₂)) (p.resultItems c₁) (p.resultItems c₂) := by
  rw [resultItems, resultItems, ← h, forall₂_map_left_iff, forall₂_map_right_iff, forall₂_same]
  intro y _
  rw [nodeOf, nodeOf, ← h]
  cases y
  case binder  => exact binderDeclaration_alike ..
  case closure => exact .refl _
  case own     => exact .refl _

theorem imports_alike (p : Program) (c₁ c₂ : Config) :
    (p.imports c₁ = [] ∧ p.imports c₂ = []) ∨
    ∃ x, p.imports c₁ = [memoizeImport p.kind c₁ x] ∧ p.imports c₂ = [memoizeImport p.kind c₂ x] := by
  rw [imports, imports, ← p.report_eq c₁ c₂]
  cases (p.memoize c₁).report.importInserted
  case false => exact .inl ⟨rfl, rfl⟩
  case true  => exact .inr ⟨_, rfl, rfl⟩

-- That two runs of a program differ in what their options say only.
structure Indifferent (p : Program) (c₁ c₂ : Config) : Prop where
  report : (p.memoize c₁).report = (p.memoize c₂).report
  -- The same names are handed out, and in the same order.
  names : p.generatedNames c₁.dedupeCaptures = p.generatedNames c₂.dedupeCaptures
  bindings :
    Forall₂ (Binding.Alike c₁.dedupeCaptures c₂.dedupeCaptures) (p.bindings c₁.dedupeCaptures)
      (p.bindings c₂.dedupeCaptures)
  -- Nothing is changed but the items.
  around : (p.memoize c₁).program = { (p.memoize c₂).program with body := (p.memoize c₁).program.body }
  body₁ : (p.memoize c₁).program.body = p.imports c₁ ++ p.resultItems c₁
  body₂ : (p.memoize c₂).program.body = p.imports c₂ ++ p.resultItems c₂
  -- The item in front is a matter of the module and of the style.
  imports :
    (p.imports c₁ = [] ∧ p.imports c₂ = []) ∨
    ∃ x, p.imports c₁ = [memoizeImport p.kind c₁ x] ∧ p.imports c₂ = [memoizeImport p.kind c₂ x]
  sameImports :
    c₁.memoizeModule = c₂.memoizeModule → c₁.importStyle = c₂.importStyle → p.imports c₁ = p.imports c₂
  -- The others are a matter of the size and of whether repetitions are removed.
  items : Forall₂ (p.ItemsAlike c₁ c₂) (p.resultItems c₁) (p.resultItems c₂)
  sizes :
    c₁.dedupeCaptures = c₂.dedupeCaptures →
      Forall₂ (SameBut (SizesAlike c₁ c₂)) (p.resultItems c₁) (p.resultItems c₂)
  sameItems :
    c₁.dedupeCaptures = c₂.dedupeCaptures → c₁.cacheSize = c₂.cacheSize → p.resultItems c₁ = p.resultItems c₂
  -- Where repetitions are removed, an identifier is kept if it is the first one of its name and scope.
  captured :
    ∀ is, firstOccurrences is <+ is ∧ ∀ i, firstOccurrences (is ++ [i]) =
      if i.binding ∈ is.map Ident.binding then firstOccurrences is else firstOccurrences is ++ [i]

theorem indifferent (p : Program) (c₁ c₂ : Config) : p.Indifferent c₁ c₂ where
  report      := p.report_eq c₁ c₂
  names       := by rw [generatedNames, generatedNames, (p.expansion_alike _ c₂.dedupeCaptures).names]
  bindings    := p.bindings_alike _ _
  around      := rfl
  body₁       := memoize_body_eq
  body₂       := memoize_body_eq
  imports     := p.imports_alike c₁ c₂
  sameImports := fun hmodule hstyle => by
    have hitem (x : String) : memoizeImport p.kind c₁ x = memoizeImport p.kind c₂ x := by
      unfold memoizeImport
      rw [hmodule, hstyle]
    rw [Program.imports, Program.imports, ← p.report_eq c₁ c₂, hitem]
    rfl
  items       := p.resultItems_alike c₁ c₂
  sizes       := p.resultItems_alike_of_dedupe
  sameItems   := fun hdedupe hsize => by
    rw [resultItems, resultItems, ← hdedupe]
    refine map_congr_left fun y _ => ?_
    rw [nodeOf, nodeOf, ← hdedupe, hsize]
  captured    := fun is => by
    refine ⟨firstOccurrences_sublist is, fun i => ?_⟩
    split
    case isTrue h  => exact firstOccurrences_concat_of_mem h
    case isFalse h => exact firstOccurrences_concat_of_not_mem h

end Program

end RenderMemo
