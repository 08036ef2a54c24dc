import RenderMemo.Proofs.Balance
import RenderMemo.Proofs.Unchanged

open List

namespace RenderMemo

-- Whether a tree contains an element or a fragment that stands in no arrow function of the tree.
mutual

def Node.hasOpenMarkup : Node → Bool
  | .mk l es => !l.isClosure && (l.isMarkup || edgesHaveOpenMarkup es)

def edgesHaveOpenMarkup : List Edge → Bool
  | [] => false
  | (_, n) :: es => n.hasOpenMarkup || edgesHaveOpenMarkup es

end

-- The render functions of a tree whose markup is gone by the time that they are looked at. A function
-- that stands in the body of a render function is looked at once that body is led through a binder, and
-- then all markup of arrow functions is gone with them. An arrow function is looked at by itself.
mutual

def Node.eclipsed (bound : Bool) : Node → List Node
  | .mk l es =>
    let bound := bound && !l.isClosure
    (if bound && (Node.mk l es).isRenderWithBody && !(Node.mk l es).hasOpenMarkup then [.mk l es] else []) ++
      eclipsedOfEdges bound (Node.mk l es).isRenderWithBody es

def eclipsedOfEdges (bound owned : Bool) : List Edge → List Node
  | [] => []
  | (f, n) :: es => n.eclipsed (bound || (owned && f == .body)) ++ eclipsedOfEdges bound owned es

end

-- What is not counted of a tree that is visited.
def Node.lost (n : Node) : Nat := (n.eclipsed false).length

section

variable {l : Label} {es : List Edge} {n : Node}

theorem Node.renderCount_mk (l : Label) (es : List Edge) :
    (mk l es).renderCount =
      (if (mk l es).isRenderWithBody then 1 else 0) + countEdges isRenderWithBody es := by
  rw [renderCount, count]

theorem renderCount_cons (f : Field) (n : Node) (es : List Edge) :
    countEdges Node.isRenderWithBody ((f, n) :: es) = n.renderCount + countEdges Node.isRenderWithBody es :=
  rfl

@[simp]
theorem Node.eclipsed_closure (hl : l.isClosure = true) (bound : Bool) :
    (mk l es).eclipsed bound = eclipsedOfEdges false (mk l es).isRenderWithBody es := by
  simp [eclipsed, hl]

-- Markup that stands in no arrow function is markup.
mutual

theorem Node.hasMarkup_of_hasOpenMarkup : ∀ n : Node, n.hasOpenMarkup = true → n.hasMarkup = true
  | .mk l es, h => by
    simp only [Node.hasOpenMarkup, Node.hasMarkup, Bool.and_eq_true, Bool.or_eq_true] at h ⊢
    exact h.2.imp_right <| edgesHaveMarkup_of_edgesHaveOpenMarkup es

theorem edgesHaveMarkup_of_edgesHaveOpenMarkup :
    ∀ es : List Edge, edgesHaveOpenMarkup es = true → edgesHaveMarkup es = true
  | [], h => h
  | (_, n) :: es, h => by
    simp only [edgesHaveOpenMarkup, edgesHaveMarkup, Bool.or_eq_true] at h ⊢
    exact h.imp (Node.hasMarkup_of_hasOpenMarkup n) (edgesHaveMarkup_of_edgesHaveOpenMarkup es)

end

end

-- Where there is no markup there is no render function.

theorem Node.isRenderWithBody_of_not_hasMarkup {n : Node} (h : n.hasMarkup = false) :
    n.isRenderWithBody = false := by
  rw [isRenderWithBody, Bool.and_eq_false_iff]
  refine .inl <| Bool.not_eq_true _ |>.mp fun hk => ?_
  exact absurd (hasMarkup_of_renderKind? hk) (h ▸ Bool.false_ne_true)

mutual

theorem Node.renderCount_of_not_hasMarkup : ∀ n : Node, n.hasMarkup = false → n.renderCount = 0
  | .mk l es, h => by
    have hes : edgesHaveMarkup es = false := by
      simp only [Node.hasMarkup, Bool.or_eq_false_iff] at h
      exact h.2
    rw [Node.renderCount_mk, Node.isRenderWithBody_of_not_hasMarkup h,
      countEdges_of_not_edgesHaveMarkup es hes]
    rfl

theorem countEdges_of_not_edgesHaveMarkup :
    ∀ es : List Edge, edgesHaveMarkup es = false → countEdges Node.isRenderWithBody es = 0
  | [], _ => rfl
  | (_, n) :: es, h => by
    have ⟨hn, hes⟩ := Bool.or_eq_false_iff.mp h
    rw [renderCount_cons, Node.renderCount_of_not_hasMarkup n hn, countEdges_of_not_edgesHaveMarkup es hes]

end

mutual

theorem Node.eclipsed_of_not_hasMarkup (bound : Bool) :
    ∀ n : Node, n.hasMarkup = false → n.eclipsed bound = []
  | .mk l es, h => by
    have hes : edgesHaveMarkup es = false := by
      simp only [Node.hasMarkup, Bool.or_eq_false_iff] at h
      exact h.2
    simp [Node.eclipsed, Node.isRenderWithBody_of_not_hasMarkup h,
      eclipsedOfEdges_of_not_edgesHaveMarkup _ _ es hes]

theorem eclipsedOfEdges_of_not_edgesHaveMarkup (bound owned : Bool) :
    ∀ es : List Edge, edgesHaveMarkup es = false → eclipsedOfEdges bound owned es = []
  | [], _ => rfl
  | (_, n) :: es, h => by
    have ⟨hn, hes⟩ := Bool.or_eq_false_iff.mp h
    rw [eclipsedOfEdges, Node.eclipsed_of_not_hasMarkup _ n hn,
      eclipsedOfEdges_of_not_edgesHaveMarkup _ _ es hes]
    rfl

end

section

variable {binder : String} {l : Label} {es : List Edge}

-- To lead a call through a binder is no matter of markup.

theorem Node.hasMarkup_throughBinder :
    ((mk l es).throughBinder binder).hasMarkup = (mk l es).hasMarkup := by
  unfold throughBinder
  split
  case h_1 s as es' hn =>
    cases hn
    split
    case h_1 hp =>
      obtain ⟨_, _, _, hes⟩ := bindParts?_eq_some_iff.mp hp
      subst hes
      simp [hasMarkup, edgesHaveMarkup, named, ofIdent, entry, form, Label.isMarkup]
    case h_2 => rfl
  case h_2 => rfl

theorem Node.renderCount_throughBinder :
    ((mk l es).throughBinder binder).renderCount = (mk l es).renderCount := by
  have hnone {k : Kind} {s : Span} {as : List (String × Json)} {es : List Edge}
      (hk : k ∈ [.callExpression, .memberExpression, .entry]) :
      (mk (.form k s as) es).isRenderWithBody = false := by
    simp only [mem_cons, not_mem_nil, or_false] at hk
    rcases hk with rfl | rfl | rfl <;> rfl
  have hname {text : String} {s : Span} : (mk (.name text s) []).isRenderWithBody = false := rfl
  have hident {i : Ident} : (mk (.ident i) []).isRenderWithBody = false := rfl
  unfold throughBinder
  split
  case h_1 s as es' hn =>
    cases hn
    split
    case h_1 hp =>
      obtain ⟨_, _, _, hes⟩ := bindParts?_eq_some_iff.mp hp
      subst hes
      simp [renderCount, count, countEdges, named, ofIdent, entry, form, hnone, hname, hident]
    case h_2 => rfl
  case h_2 => rfl

end

section

variable {binder : String}

-- The markup of a tree that is led through a binder is what stands in no arrow function.
mutual

theorem Node.hasMarkup_rebound : ∀ (n : Node) (rs : List Node), rs.length = n.closures.length →
    (∀ r ∈ rs, ∃ h : Hoisted, r = h.call binder) → (n.rebound binder rs).hasMarkup = n.hasOpenMarkup
  | .mk l es, rs, hlen, hrs => by
    simp only [Node.closures] at hlen
    simp only [Node.rebound, Node.hasOpenMarkup]
    split
    case isTrue hl =>
      rw [if_pos hl, length_singleton, length_eq_one_iff] at hlen
      have ⟨r, hr⟩ := hlen
      subst hr
      have ⟨h, heq⟩ := hrs r mem_cons_self
      subst heq
      simp [hl, h.hasMarkup_call]
    case isFalse hl =>
      rw [if_neg hl] at hlen
      simp [hl, Node.hasMarkup_throughBinder, Node.hasMarkup, edgesHaveMarkup_reboundEdges es rs hlen hrs]

theorem edgesHaveMarkup_reboundEdges : ∀ (es : List Edge) (rs : List Node),
    rs.length = (closuresOfEdges es).length → (∀ r ∈ rs, ∃ h : Hoisted, r = h.call binder) →
      edgesHaveMarkup (reboundEdges binder es rs) = edgesHaveOpenMarkup es
  | [], _, _, _ => rfl
  | (_, n) :: es, rs, hlen, hrs => by
    simp only [closuresOfEdges, length_append] at hlen
    rw [reboundEdges, edgesHaveMarkup, edgesHaveOpenMarkup,
      Node.hasMarkup_rebound n _ (by simp [hlen]) fun r hr => hrs r (mem_of_mem_take hr),
      edgesHaveMarkup_reboundEdges es _ (by simp [hlen]) fun r hr => hrs r (mem_of_mem_drop hr)]

end

-- Names and bodies stay where they are.

theorem Node.isRenderName_rebound (n : Node) (rs : List Node) (hlen : rs.length = n.closures.length)
    (hrs : ∀ r ∈ rs, ∃ h : Hoisted, r = h.call binder) :
    (n.rebound binder rs).isRenderName = n.isRenderName := by
  have ⟨l, es⟩ := n
  cases l
  case form k s as =>
    rw [rebound]
    split
    case isTrue hl =>
      rw [closures, if_pos hl, length_singleton, length_eq_one_iff] at hlen
      have ⟨r, hr⟩ := hlen
      subst hr
      have ⟨h, heq⟩ := hrs r mem_cons_self
      subst heq
      rfl
    case isFalse =>
      unfold throughBinder
      split
      case h_1 => split <;> simp_all [isRenderName]
      case h_2 => rfl
  all_goals rfl

theorem any_at_reboundEdges {l : Label} {f : Field} : ∀ (es : List Edge) (rs : List Node),
    rs.length = (closuresOfEdges es).length → (∀ r ∈ rs, ∃ h : Hoisted, r = h.call binder) →
      ((Node.mk l (reboundEdges binder es rs)).at f).any Node.isRenderName =
        ((Node.mk l es).at f).any Node.isRenderName
  | [], _, _, _ => rfl
  | (g, n) :: es, rs, hlen, hrs => by
    simp only [closuresOfEdges, length_append] at hlen
    have hn := Node.isRenderName_rebound n (rs.take n.closures.length) (by simp [hlen])
      fun r hr => hrs r (mem_of_mem_take hr)
    have hes := any_at_reboundEdges (l := l) (f := f) es (rs.drop n.closures.length) (by simp [hlen])
      fun r hr => hrs r (mem_of_mem_drop hr)
    rw [reboundEdges, Node.at_cons, Node.at_cons]
    split
    case isTrue  => rw [any_cons, any_cons, hn, hes]
    case isFalse => exact hes

theorem isEmpty_at_reboundEdges {l : Label} {f : Field} (es : List Edge) (rs : List Node) :
    ((Node.mk l (reboundEdges binder es rs)).at f).isEmpty = ((Node.mk l es).at f).isEmpty := by
  induction es generalizing rs
  case nil => rfl
  case cons e es hi =>
    rw [reboundEdges, Node.at_cons, Node.at_cons]
    split
    case isTrue  => rfl
    case isFalse => exact hi _

-- A function in a body that goes through a binder is a render function as long as it has markup that
-- stands in no arrow function.
theorem isRenderWithBody_reboundEdges {l : Label} {es : List Edge} {rs : List Node}
    (hl : l.isClosure = false) (hlen : rs.length = (closuresOfEdges es).length)
    (hrs : ∀ r ∈ rs, ∃ h : Hoisted, r = h.call binder) :
    (Node.mk l (reboundEdges binder es rs)).isRenderWithBody =
      ((Node.mk l es).isRenderWithBody && (Node.mk l es).hasOpenMarkup) := by
  have hmarkup : (Node.mk l (reboundEdges binder es rs)).hasMarkup = (Node.mk l es).hasOpenMarkup := by
    simp [Node.hasMarkup, Node.hasOpenMarkup, hl, edgesHaveMarkup_reboundEdges es rs hlen hrs]
  have hopen : (Node.mk l es).hasOpenMarkup = true → (Node.mk l es).hasMarkup = true :=
    Node.hasMarkup_of_hasOpenMarkup _
  have hname := any_at_reboundEdges (l := l) (f := .key) es rs hlen hrs
  have hbody : ((Node.mk l (reboundEdges binder es rs)).at .body).isEmpty = ((Node.mk l es).at .body).isEmpty :=
    isEmpty_at_reboundEdges es rs
  have hkind : (Node.mk l (reboundEdges binder es rs)).kind? = (Node.mk l es).kind? := rfl
  rw [Node.isRenderWithBody, Node.isRenderWithBody, hbody, Bool.and_right_comm]
  congr 1
  unfold Node.renderKind?
  rw [hkind, hmarkup, hname]
  split
  case h_5 hk =>
    have harrow : l.kind? ≠ some .arrowFunctionExpression := by
      intro hk
      cases l <;> simp_all [Label.kind?, Label.isClosure]
    exact absurd hk harrow
  all_goals
    cases hm : (Node.mk l es).hasOpenMarkup
    case false => simp
    case true  => simp [hopen hm]

end

-- What the render functions of a body are counted as once it goes through a binder: the eclipsed ones are
-- left out, and those in arrow functions are counted where the arrow functions are declared.
mutual

theorem Node.renderCount_rebound {binder : String} : ∀ (n : Node) (rs : List Node),
    rs.length = n.closures.length → (∀ r ∈ rs, ∃ h : Hoisted, r = h.call binder) →
      (n.rebound binder rs).renderCount + (n.eclipsed true).length + total Node.renderCount n.closures =
        n.renderCount + total Node.lost n.closures
  | .mk l es, rs, hlen, hrs => by
    simp only [Node.closures] at hlen ⊢
    simp only [Node.rebound]
    split
    case isTrue hl =>
      rw [if_pos hl, length_singleton, length_eq_one_iff] at hlen
      have ⟨r, hr⟩ := hlen
      subst hr
      have ⟨h, heq⟩ := hrs r mem_cons_self
      subst heq
      have hcall : (h.call binder).renderCount = 0 :=
        Node.renderCount_of_not_hasMarkup _ <| h.hasMarkup_call binder
      simp only [headD_cons, hcall, total_cons, total_nil, Node.lost, Node.eclipsed_closure hl]
      omega
    case isFalse hl =>
      rw [if_neg hl] at hlen
      have hes := countEdges_reboundEdges (Node.mk l es).isRenderWithBody es rs hlen hrs
      have hself := isRenderWithBody_reboundEdges (Bool.not_eq_true _ ▸ hl) hlen hrs
      rw [Node.renderCount_throughBinder, Node.renderCount_mk, Node.renderCount_mk, hself, Node.eclipsed]
      cases hr : (Node.mk l es).isRenderWithBody <;> cases (Node.mk l es).hasOpenMarkup
      all_goals
        rw [hr] at hes
        simp [hl]
        omega

theorem countEdges_reboundEdges {binder : String} (owned : Bool) : ∀ (es : List Edge) (rs : List Node),
    rs.length = (closuresOfEdges es).length → (∀ r ∈ rs, ∃ h : Hoisted, r = h.call binder) →
      countEdges Node.isRenderWithBody (reboundEdges binder es rs) +
          (eclipsedOfEdges true owned es).length + total Node.renderCount (closuresOfEdges es) =
        countEdges Node.isRenderWithBody es + total Node.lost (closuresOfEdges es)
  | [], _, _, _ => rfl
  | (_, n) :: es, rs, hlen, hrs => by
    simp only [closuresOfEdges, length_append] at hlen
    have hn := Node.renderCount_rebound n (rs.take n.closures.length) (by simp [hlen])
      fun r hr => hrs r (mem_of_mem_take hr)
    have hes := countEdges_reboundEdges owned es (rs.drop n.closures.length) (by simp [hlen])
      fun r hr => hrs r (mem_of_mem_drop hr)
    simp only [reboundEdges, renderCount_cons, eclipsedOfEdges, closuresOfEdges, Bool.true_or, length_append,
      total_append]
    omega

end

theorem Binding.hoisted_of_not_isUsed {b : Binding} (h : b.isUsed = false) : b.hoisted = [] := by
  simp only [isUsed, Bool.not_eq_false', Bool.and_eq_true, List.isEmpty_iff] at h
  exact h.1

-- The closures that go through binders.
def arrows (bs : List Binding) : List Node := (bs.flatMap Binding.hoisted).map Hoisted.arrow

theorem arrows_cons (b : Binding) (bs : List Binding) :
    arrows (b :: bs) = b.hoisted.map Hoisted.arrow ++ arrows bs := by
  rw [arrows, flatMap_cons, map_append]
  rfl

theorem arrows_append (bs cs : List Binding) : arrows (bs ++ cs) = arrows bs ++ arrows cs := by
  rw [arrows, flatMap_append, map_append]
  rfl

-- What a visit detects are the render functions of the tree apart from the eclipsed ones and those in
-- closures.
mutual

theorem Node.visit_detected (dedupe : Bool) : ∀ (n : Node) (names : Names),
    (n.visit dedupe names).detected + n.lost +
        total Node.renderCount (arrows (n.visit dedupe names).bindings) =
      n.renderCount + total Node.lost (arrows (n.visit dedupe names).bindings)
  | .mk l es, names => by
    cases hr : (Node.mk l es).isRenderWithBody
    case false =>
      have hes := visitEdges_detected dedupe es names
      rw [Node.visit_of_not_isRenderWithBody hr, Node.renderCount_mk]
      simp [Node.lost, Node.eclipsed, hr] at hes ⊢
      exact hes
    case true =>
      have hes := visitBound_detected dedupe l ((Node.mk l es).binding dedupe names).binder es
        (((Node.mk l es).binding dedupe names).hoisted.map
          (·.call ((Node.mk l es).binding dedupe names).binder))
        ((Node.mk l es).namesOfBinding dedupe names)
        (by rw [length_map, Node.length_hoisted_binding])
        (by simpa using fun h _ => ⟨h, rfl⟩)
      rw [← Node.map_arrow_binding dedupe _ names] at hes
      rw [Node.visit_of_isRenderWithBody hr, Node.renderCount_mk, if_pos hr, Node.lost, Node.eclipsed]
      simp only [hr, Bool.false_and, Bool.false_eq_true, if_false, nil_append]
      split
      case isTrue =>
        simp only [arrows_cons, total_append]
        omega
      case isFalse hu =>
        have hnone := Binding.hoisted_of_not_isUsed (Bool.not_eq_true _ ▸ hu)
        simp only [hnone, map_nil, total_nil] at hes ⊢
        omega

theorem visitEdges_detected (dedupe : Bool) : ∀ (es : List Edge) (names : Names),
    (visitEdges dedupe es names).detected + (eclipsedOfEdges false false es).length +
        total Node.renderCount (arrows (visitEdges dedupe es names).bindings) =
      countEdges Node.isRenderWithBody es + total Node.lost (arrows (visitEdges dedupe es names).bindings)
  | [], _ => rfl
  | (_, n) :: es, names => by
    have hn := Node.visit_detected dedupe n names
    have hes := visitEdges_detected dedupe es (n.visit dedupe names).names
    simp only [Node.lost] at hn
    simp only [visitEdges, renderCount_cons, eclipsedOfEdges, Bool.false_and, Bool.or_false, length_append,
      arrows_append, total_append]
    omega

theorem visitBound_detected (dedupe : Bool) (l : Label) (binder : String) :
    ∀ (es : List Edge) (rs : List Node) (names : Names),
      rs.length = (((Node.mk l es).at .body).flatMap Node.closures).length →
      (∀ r ∈ rs, ∃ h : Hoisted, r = h.call binder) →
      (visitBound dedupe binder es rs names).detected + (eclipsedOfEdges false true es).length +
          total Node.renderCount (arrows (visitBound dedupe binder es rs names).bindings) +
          total Node.renderCount (((Node.mk l es).at .body).flatMap Node.closures) =
        countEdges Node.isRenderWithBody es +
          total Node.lost (arrows (visitBound dedupe binder es rs names).bindings) +
          total Node.lost (((Node.mk l es).at .body).flatMap Node.closures)
  | [], _, _, _, _ => rfl
  | (f, n) :: es, rs, names, hlen, hrs => by
    simp only [visitBound, eclipsedOfEdges, renderCount_cons]
    split
    case isTrue hf =>
      simp only [Node.at_cons, hf, if_true, flatMap_cons, length_append] at hlen ⊢
      have hn := Node.renderCount_rebound n (rs.take n.closures.length) (by simp [hlen])
        fun r hr => hrs r (mem_of_mem_take hr)
      have hes := visitBound_detected dedupe l binder es (rs.drop n.closures.length)
        (names.reserve "bindRenderFunc" (n.rebound binder (rs.take n.closures.length)).renderCount)
        (by simp [hlen]) fun r hr => hrs r (mem_of_mem_drop hr)
      simp only [BEq.rfl, Bool.and_self, Bool.or_true, total_append]
      omega
    case isFalse hf =>
      simp only [Node.at_cons, hf, if_false] at hlen ⊢
      have hn := Node.visit_detected dedupe n names
      have hes := visitBound_detected dedupe l binder es rs (n.visit dedupe names).names hlen hrs
      simp only [Node.lost] at hn
      simp only [beq_eq_false_iff_ne.mpr hf, Bool.and_false, Bool.or_false, length_append, arrows_append,
        total_append]
      omega

end

namespace Hoisted

theorem at_body_declaration (h : Hoisted) : h.declaration.at .body = (h.arrow.at .body).map bodyBlock :=
  h.at_declaration nofun

-- What is made around the parts of a closure is no render function.

theorem not_isRenderWithBody_wrapper {k : Kind} {f : Field} {n : Node}
    (hk : k ∈ [.parameter, .blockStatement, .returnStatement]) :
    (Node.form k [] [(f, n)]).isRenderWithBody = false := by
  simp only [mem_cons, not_mem_nil, or_false] at hk
  rcases hk with rfl | rfl | rfl <;> rfl

theorem renderCount_declaredEdges (h : Hoisted) :
    countEdges Node.isRenderWithBody h.declaredEdges = countEdges Node.isRenderWithBody h.arrow.edges := by
  have hwrapper (k : Kind) (hk : k ∈ [.parameter, .blockStatement, .returnStatement]) (f : Field) (n : Node) :
      (Node.form k [] [(f, n)]).renderCount = n.renderCount := by
    rw [Node.form, Node.renderCount_mk, ← Node.form, not_isRenderWithBody_wrapper hk, renderCount_cons]
    simp [countEdges]
  refine h.declaredEdges_eq (fun i es => ?_) fun e es es' hi => ?_
  · rw [renderCount_cons, Node.renderCount_of_not_hasMarkup (.parameter (.ofIdent i)) rfl, Nat.zero_add]
  · rw [renderCount_cons, renderCount_cons, hi, declaredEdge_eq e hwrapper]

theorem eclipsed_declaredEdges (h : Hoisted) (bound owned : Bool) :
    eclipsedOfEdges bound owned h.declaredEdges = eclipsedOfEdges bound owned h.arrow.edges := by
  have hwrapper (bound : Bool) (k : Kind) (hk : k ∈ [.parameter, .blockStatement, .returnStatement]) (f : Field)
      (n : Node) : (Node.form k [] [(f, n)]).eclipsed bound = n.eclipsed bound := by
    rw [Node.form, Node.eclipsed, ← Node.form, not_isRenderWithBody_wrapper hk]
    simp [not_isClosure_wrapper hk, eclipsedOfEdges]
  refine h.declaredEdges_eq (fun i es => ?_) fun e es es' hi => ?_
  · rw [eclipsedOfEdges, Node.eclipsed_of_not_hasMarkup _ (.parameter (.ofIdent i)) rfl, nil_append]
  · have hplace : (declaredEdge e).1 = e.1 := by
      unfold declaredEdge
      split <;> rfl
    rw [eclipsedOfEdges, eclipsedOfEdges, hi, hplace, declaredEdge_eq e (hwrapper _)]

-- Whether a closure is a render function only once it is declared, as its markup stands beside its body.
def isRevealed (h : Hoisted) : Bool := h.declaration.isRenderWithBody && !h.arrow.isRenderWithBody

end Hoisted

theorem Node.isRenderWithBody_closure {n : Node} (hc : n.label.isClosure = true) :
    n.isRenderWithBody = (n.at .body).any hasMarkup := by
  have hkind : n.kind? = some .arrowFunctionExpression := by
    unfold Label.isClosure at hc
    split at hc
    case h_1 heq => rw [kind?, heq, Label.kind?]
    case h_2     => cases hc
  rw [isRenderWithBody, renderKind?, hkind]
  cases hm : (n.at .body).any hasMarkup
  case false => simp
  case true =>
    have ⟨body, hbody, _⟩ := any_eq_true.mp hm
    simpa [hm] using ne_nil_of_mem hbody

-- Where no body has markup, it does not matter whose bodies they are.
theorem eclipsedOfEdges_owned {bound : Bool} {l : Label} {es : List Edge}
    (h : ((Node.mk l es).at .body).any Node.hasMarkup = false) :
    eclipsedOfEdges bound true es = eclipsedOfEdges bound false es := by
  induction es
  case nil => rfl
  case cons e es hi =>
    have ⟨f, n⟩ := e
    rw [Node.at_cons] at h
    rw [eclipsedOfEdges, eclipsedOfEdges]
    split at h
    case isTrue =>
      have ⟨hn, hes⟩ := Bool.or_eq_false_iff.mp h
      rw [Node.eclipsed_of_not_hasMarkup _ n hn, Node.eclipsed_of_not_hasMarkup _ n hn, hi hes]
    case isFalse hf => rw [hi h, beq_eq_false_iff_ne.mpr hf, Bool.and_false, Bool.and_false]

namespace Hoisted

variable {h : Hoisted}

-- A closure that is a render function is one once it is declared, too.
theorem isRenderWithBody_declaration (hc : h.arrow.label.isClosure = true)
    (hr : h.arrow.isRenderWithBody = true) : h.declaration.isRenderWithBody = true := by
  rw [Node.isRenderWithBody_closure hc] at hr
  have ⟨body, hbody, hm⟩ := any_eq_true.mp hr
  have ⟨m, hsub, hmarkup⟩ := body.hasMarkup_iff.mp hm
  have hmem : bodyBlock body ∈ h.declaration.at .body := h.at_body_declaration ▸ mem_map_of_mem hbody
  have hblock : m ∈ (bodyBlock body).subtrees := by
    unfold bodyBlock
    split
    case isTrue  => exact hsub
    case isFalse =>
      rw [Node.subtrees_returnBlock]
      exact mem_cons_of_mem _ <| mem_cons_of_mem _ hsub
  have hdeclaration : h.declaration.hasMarkup = true := h.declaration.hasMarkup_iff.mpr
    ⟨m, Node.subtrees_trans hblock _ (Node.mem_subtrees_of_mem_at hmem), hmarkup⟩
  have hkind : h.declaration.kind? = some .functionDeclaration := rfl
  rw [Node.isRenderWithBody, Node.renderKind?, hkind]
  simpa [hdeclaration] using ne_nil_of_mem hmem

theorem renderCount_declaration (hc : h.arrow.label.isClosure = true) :
    h.declaration.renderCount = h.arrow.renderCount + [h].countP isRevealed := by
  have harrow := Node.renderCount_mk h.arrow.label h.arrow.edges
  rw [Node.mk_label_edges] at harrow
  rw [declaration_eq, Node.renderCount_mk, ← declaration_eq, renderCount_cons, renderCount_declaredEdges, harrow,
    countP_singleton, isRevealed, Node.renderCount_of_not_hasMarkup (.named h.name) rfl]
  cases hr : h.arrow.isRenderWithBody
  case false => cases h.declaration.isRenderWithBody <;> simp; omega
  case true  => simp [isRenderWithBody_declaration hc hr]

theorem lost_declaration (hc : h.arrow.label.isClosure = true) : h.declaration.lost = h.arrow.lost := by
  have harrow : h.arrow.eclipsed false =
      eclipsedOfEdges false h.arrow.isRenderWithBody h.arrow.edges := by
    have heq : (Node.mk h.arrow.label h.arrow.edges).eclipsed false = _ := Node.eclipsed_closure hc false
    rwa [Node.mk_label_edges] at heq
  have hdeclaration : h.declaration.eclipsed false =
      eclipsedOfEdges false h.declaration.isRenderWithBody h.arrow.edges := by
    rw [declaration_eq, Node.eclipsed, ← declaration_eq, eclipsedOfEdges, eclipsed_declaredEdges,
      Node.eclipsed_of_not_hasMarkup _ (.named h.name) rfl]
    rfl
  rw [Node.lost, Node.lost, harrow, hdeclaration]
  cases hr : h.arrow.isRenderWithBody
  case true  => rw [isRenderWithBody_declaration hc hr]
  case false =>
    rw [Node.isRenderWithBody_closure hc] at hr
    cases h.declaration.isRenderWithBody
    case false => rfl
    case true  => rw [eclipsedOfEdges_owned (l := h.arrow.label) (by rwa [Node.mk_label_edges])]

end Hoisted

namespace Pending

-- The render functions that a pending closure brings along, and what is not counted of them. A closure
-- that is revealed is set off where its binder stands.

def due : Pending → Nat
  | binder _  => 0
  | closure h => h.declaration.renderCount

def owed : Pending → Nat
  | binder b  => b.hoisted.countP Hoisted.isRevealed
  | closure h => h.declaration.lost

theorem total_ofBindings {bs : List Binding} (hc : ∀ b ∈ bs, ∀ h ∈ b.hoisted, h.arrow.label.isClosure = true) :
    total due (ofBindings bs) =
        total Node.renderCount (arrows bs) + (bs.flatMap Binding.hoisted).countP Hoisted.isRevealed ∧
      total owed (ofBindings bs) =
        total Node.lost (arrows bs) + (bs.flatMap Binding.hoisted).countP Hoisted.isRevealed := by
  have hhoisted (hs : List Hoisted) (hhs : ∀ h ∈ hs, h.arrow.label.isClosure = true) :
      total due (hs.map .closure) = total Node.renderCount (hs.map Hoisted.arrow) + hs.countP Hoisted.isRevealed ∧
        total owed (hs.map .closure) = total Node.lost (hs.map Hoisted.arrow) := by
    induction hs
    case nil => exact ⟨rfl, rfl⟩
    case cons h hs hi =>
      have ⟨hh, hhs⟩ := forall_mem_cons.mp hhs
      have ⟨hdue, howed⟩ := hi hhs
      have hcount := Hoisted.renderCount_declaration hh
      have hsplit : ([h] ++ hs).countP Hoisted.isRevealed = _ := countP_append
      have hlost := Hoisted.lost_declaration hh
      rw [singleton_append] at hsplit
      simp only [map_cons, total_cons, due, owed]
      omega
  induction bs
  case nil => exact ⟨rfl, rfl⟩
  case cons b bs hi =>
    have ⟨hb, hbs⟩ := forall_mem_cons.mp hc
    have ⟨hdue, howed⟩ := hhoisted b.hoisted hb
    have ⟨hdue', howed'⟩ := hi hbs
    simp only [ofBindings] at hdue' howed'
    simp only [ofBindings, flatMap_cons, cons_append, total_cons, total_append, arrows_cons, countP_append]
    rw [due, owed]
    omega

end Pending

-- What an expansion detects are the render functions of the item apart from the eclipsed ones, and the
-- closures that are render functions only once they are declared.
theorem expand_detected (dedupe : Bool) (emit : Node → Emitted) (hemit : ∀ n, (emit n).binding? = none)
    (item : Node) (names : Names) :
    (expand dedupe emit item names).detected + item.lost =
      item.renderCount + ((Emitted.bindings (expand dedupe emit item names).items).flatMap
        Binding.hoisted).countP Hoisted.isRevealed := by
  induction emit, item, names using expand_induction dedupe
    (F := fun ps names =>
      (expandPending dedupe ps names).detected + total Pending.owed ps =
        total Pending.due ps + ((Emitted.bindings (expandPending dedupe ps names).items).flatMap
          Binding.hoisted).countP Hoisted.isRevealed)
  case nil => rfl
  case binder b ps names hi =>
    simp only [expandPending, total_cons, Pending.owed, Pending.due, Emitted.bindings_cons_binder, flatMap_cons,
      countP_append]
    omega
  case closure h ps names hclosure hi =>
    have hfirst := hclosure fun _ => rfl
    simp only [expandPending, total_cons, Pending.owed, Pending.due, Emitted.bindings_append, flatMap_append,
      countP_append]
    omega
  case item emit item names hi =>
    have hvisit := item.visit_detected dedupe names
    have hclosures : ∀ b ∈ (item.visit dedupe names).bindings, ∀ h ∈ b.hoisted, h.arrow.label.isClosure = true :=
      fun b hb h hh => (Node.lifted_of_mem_visit hh item names hb).isClosure
    obtain ⟨hdue, howed⟩ := Pending.total_ofBindings hclosures
    rw [← Node.pending] at hdue howed
    rw [expand_eq]
    simp only [Emitted.bindings_append_last hemit]
    omega

theorem expandItems_detected (dedupe : Bool) (items : List Node) (names : Names) :
    (expandItems dedupe items names).detected + total Node.lost items =
      total Node.renderCount items + ((Emitted.bindings (expandItems dedupe items names).items).flatMap
        Binding.hoisted).countP Hoisted.isRevealed := by
  induction items generalizing names
  case nil => rfl
  case cons item items hi =>
    have hfirst := expand_detected dedupe .own (fun _ => rfl) item names
    have hrest := hi (expand dedupe .own item names).names
    simp only [expandItems, total_cons, Emitted.bindings_append, flatMap_append, countP_append]
    omega

-- A function that is eclipsed stands in the body of a render function, and it is a render function itself
-- only because of markup in arrow functions.
mutual

theorem Node.eclipsed_sublist (bound : Bool) : ∀ n : Node,
    n.eclipsed bound <+ n.subtrees.filter Node.isRenderWithBody
  | .mk l es => by
    have hes := eclipsedOfEdges_sublist (bound && !l.isClosure) (Node.mk l es).isRenderWithBody es
    rw [Node.eclipsed, Node.subtrees, filter_cons]
    cases hr : (Node.mk l es).isRenderWithBody
    case false => simpa [hr] using hes
    case true =>
      rw [hr] at hes
      simp only [if_true]
      split
      case isTrue  => exact hes.cons_cons _
      case isFalse => exact hes.cons _

theorem eclipsedOfEdges_sublist (bound owned : Bool) :
    ∀ es : List Edge, eclipsedOfEdges bound owned es <+ (subtreesOfEdges es).filter Node.isRenderWithBody
  | [] => .slnil
  | (_, n) :: es => by
    rw [eclipsedOfEdges, subtreesOfEdges, filter_append]
    exact (Node.eclipsed_sublist _ n).append (eclipsedOfEdges_sublist bound owned es)

end

mutual

theorem Node.not_hasOpenMarkup_of_mem_eclipsed {m : Node} (bound : Bool) : ∀ n : Node, m ∈ n.eclipsed bound →
    m.hasOpenMarkup = false
  | .mk l es, hm => by
    rw [Node.eclipsed, mem_append] at hm
    cases hm
    case inl hm =>
      split at hm
      case isTrue h =>
        rw [mem_singleton] at hm
        simp only [Bool.and_eq_true, Bool.not_eq_true'] at h
        exact hm ▸ h.2
      case isFalse => cases hm
    case inr hm => exact not_hasOpenMarkup_of_mem_eclipsedOfEdges _ _ es hm

theorem not_hasOpenMarkup_of_mem_eclipsedOfEdges {m : Node} (bound owned : Bool) :
    ∀ es : List Edge, m ∈ eclipsedOfEdges bound owned es → m.hasOpenMarkup = false
  | (_, n) :: es, hm => by
    cases mem_append.mp hm
    case inl hm => exact Node.not_hasOpenMarkup_of_mem_eclipsed _ n hm
    case inr hm => exact not_hasOpenMarkup_of_mem_eclipsedOfEdges _ _ es hm

end

mutual

theorem Node.enclosed_of_mem_eclipsed {m : Node} (bound : Bool) : ∀ n : Node, m ∈ n.eclipsed bound →
    bound = true ∨ ∃ f ∈ n.subtrees, f.isRenderWithBody = true ∧ ∃ body ∈ f.at .body, m ∈ body.subtrees
  | .mk l es, hm => by
    rw [Node.eclipsed, mem_append] at hm
    cases hm
    case inl hm =>
      split at hm
      case isTrue h =>
        simp only [Bool.and_eq_true] at h
        exact .inl h.1.1.1
      case isFalse => cases hm
    case inr hm =>
      rcases enclosed_of_mem_eclipsedOfEdges _ _ l es hm with hbound | ⟨howned, hbody⟩ | ⟨f, hf, hr⟩
      · exact .inl (Bool.and_eq_true _ _ ▸ hbound).1
      · exact .inr ⟨_, Node.mem_subtrees_self _, howned, hbody⟩
      · exact .inr ⟨f, mem_cons_of_mem _ hf, hr⟩

theorem enclosed_of_mem_eclipsedOfEdges {m : Node} (bound owned : Bool) (l : Label) :
    ∀ es : List Edge, m ∈ eclipsedOfEdges bound owned es →
      bound = true ∨ (owned = true ∧ ∃ body ∈ (Node.mk l es).at .body, m ∈ body.subtrees) ∨
      ∃ f ∈ subtreesOfEdges es, f.isRenderWithBody = true ∧ ∃ body ∈ f.at .body, m ∈ body.subtrees
  | (f, n) :: es, hm => by
    rw [Node.at_cons]
    cases mem_append.mp hm
    case inl hm =>
      rcases Node.enclosed_of_mem_eclipsed _ n hm with hflag | ⟨g, hg, hr⟩
      · simp only [Bool.or_eq_true, Bool.and_eq_true, beq_iff_eq] at hflag
        rcases hflag with hbound | ⟨howned, hf⟩
        · exact .inl hbound
        · have hsub := mem_of_mem_filter <| (Node.eclipsed_sublist _ n).subset hm
          exact .inr <| .inl ⟨howned, n, by simp [hf], hsub⟩
      · exact .inr <| .inr ⟨g, mem_append_left _ hg, hr⟩
    case inr hm =>
      rcases enclosed_of_mem_eclipsedOfEdges bound owned l es hm with
        hbound | ⟨howned, body, hb, hsub⟩ | ⟨g, hg, hr⟩
      · exact .inl hbound
      · refine .inr <| .inl ⟨howned, body, ?_, hsub⟩
        split
        case isTrue  => exact mem_cons_of_mem _ hb
        case isFalse => exact hb
      · exact .inr <| .inr ⟨g, mem_append_right _ hg, hr⟩

end

mutual

theorem Node.mem_closures_of_not_hasOpenMarkup {m : Node} (hm : m.label.isMarkup = true) :
    ∀ n : Node, n.hasOpenMarkup = false → m ∈ n.subtrees → ∃ c ∈ n.closures, m ∈ c.subtrees
  | .mk l es, h, hsub => by
    rw [Node.closures]
    split
    case isTrue         => exact ⟨_, mem_singleton_self _, hsub⟩
    case isFalse hl =>
      simp only [Node.hasOpenMarkup, hl, Bool.not_false, Bool.true_and, Bool.or_eq_false_iff] at h
      cases mem_cons.mp hsub
      case inl heq =>
        subst heq
        exact absurd hm (h.1 ▸ Bool.false_ne_true)
      case inr hsub => exact mem_closuresOfEdges_of_not_edgesHaveOpenMarkup hm es h.2 hsub

theorem mem_closuresOfEdges_of_not_edgesHaveOpenMarkup {m : Node} (hm : m.label.isMarkup = true) :
    ∀ es : List Edge, edgesHaveOpenMarkup es = false → m ∈ subtreesOfEdges es →
      ∃ c ∈ closuresOfEdges es, m ∈ c.subtrees
  | (_, n) :: es, h, hsub => by
    have ⟨hn, hes⟩ := Bool.or_eq_false_iff.mp h
    cases mem_append.mp hsub
    case inl hsub =>
      have ⟨c, hc, hmc⟩ := Node.mem_closures_of_not_hasOpenMarkup hm n hn hsub
      exact ⟨c, mem_append_left _ hc, hmc⟩
    case inr hsub =>
      have ⟨c, hc, hmc⟩ := mem_closuresOfEdges_of_not_edgesHaveOpenMarkup hm es hes hsub
      exact ⟨c, mem_append_right _ hc, hmc⟩

end

namespace Program

variable {p : Program} {c : Config}

-- The listed functions that a run does not find.
def eclipsed (p : Program) : List Node := p.body.flatMap (Node.eclipsed false)

-- The hoisted closures that are no render functions where they stand in the program.
def revealed (p : Program) (dedupe : Bool) : List Hoisted :=
  ((p.bindings dedupe).flatMap Binding.hoisted).filter Hoisted.isRevealed

-- How the number of render functions in a report compares to the list of them.
structure Surveyed (p : Program) (c : Config) : Prop where
  account :
    (p.memoize c).report.renderFunctions + p.eclipsed.length =
      p.renderNodesWithBody.length + (p.revealed c.dedupeCaptures).length
  -- The functions that are not found are listed, in the body of another function that is,
  listed : p.eclipsed <+ p.renderNodesWithBody.map Prod.fst
  enclosed : ∀ n ∈ p.eclipsed, ∃ f ∈ p.renderNodesWithBody.map Prod.fst, ∃ body ∈ f.at .body, n ∈ body.subtrees
  -- and all their markup goes away with arrow functions.
  markup :
    ∀ n ∈ p.eclipsed, ∀ m ∈ n.subtrees, m.label.isMarkup = true → ∃ arrow ∈ n.closures, m ∈ arrow.subtrees
  complete : p.eclipsed = [] → p.renderNodesWithBody.length ≤ (p.memoize c).report.renderFunctions

theorem length_renderNodesWithBody : p.renderNodesWithBody.length = total Node.renderCount p.body := by
  rw [← length_map (f := Prod.fst), map_fst_renderNodesWithBody, ← countP_eq_length_filter]
  induction p.body
  case nil => rfl
  case cons item items hi =>
    rw [flatMap_cons, countP_append, hi, ← Node.count_eq_countP]
    rfl

theorem renderFunctions_account :
    (p.memoize c).report.renderFunctions + p.eclipsed.length =
      p.renderNodesWithBody.length + (p.revealed c.dedupeCaptures).length := by
  have hlost : p.eclipsed.length = total Node.lost p.body := by
    rw [eclipsed]
    induction p.body
    case nil => rfl
    case cons item items hi =>
      rw [flatMap_cons, length_append, hi]
      rfl
  rw [hlost, length_renderNodesWithBody, revealed, ← countP_eq_length_filter]
  exact expandItems_detected ..

-- A run finds the listed functions apart from the eclipsed ones, and the revealed closures besides.
theorem surveyed (p : Program) (c : Config) : p.Surveyed c where
  account  := renderFunctions_account
  listed   := by
    rw [map_fst_renderNodesWithBody, eclipsed, filter_flatMap]
    induction p.body
    case nil              => exact .slnil
    case cons item items hi => exact (item.eclipsed_sublist false).append hi
  enclosed n hn := by
    obtain ⟨item, hitem, hn⟩ := mem_flatMap.mp hn
    rw [map_fst_renderNodesWithBody]
    cases Node.enclosed_of_mem_eclipsed false item hn
    case inl h => cases h
    case inr h =>
      obtain ⟨f, hf, hr, hbody⟩ := h
      exact ⟨f, mem_filter.mpr ⟨mem_flatMap.mpr ⟨item, hitem, hf⟩, hr⟩, hbody⟩
  markup n hn m hsub hm := by
    obtain ⟨item, _, hn⟩ := mem_flatMap.mp hn
    exact Node.mem_closures_of_not_hasOpenMarkup hm n (Node.not_hasOpenMarkup_of_mem_eclipsed false item hn) hsub
  complete h := by
    have := renderFunctions_account (p := p) (c := c)
    rw [h, length_nil] at this
    omega

-- `function A() { return function () { return () => <li/>; }; }`
def hiddenMarkup : Program where
  kind := .script
  body :=
    let element : Node := .form .jsxElement [] [(.opening, .form .jsxOpeningElement [] [(.name, .named "li")])]
    let inner : Node := .form .functionExpression [] [(.body, .returnBlock <| .arrow [] element)]
    [.form .functionDeclaration [] [(.identifier, .named "A"), (.body, .returnBlock inner)]]

-- The inner function is listed, but its markup is gone with the arrow function before it is looked at.
theorem surveyed_hiddenMarkup :
    hiddenMarkup.renderNodesWithBody.length = 3 ∧
    (hiddenMarkup.memoize .default).report.renderFunctions = 2 ∧
    hiddenMarkup.eclipsed.map Node.kind? = [some .functionExpression] := by
  decide +kernel

end Program

end RenderMemo
