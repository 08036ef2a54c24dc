import RenderMemo.Proofs.CallSites

open List

namespace RenderMemo

-- How a visit gives out binders. The bodies of a render function go through the binder of its own that it
-- gets, if anything in them goes through a binder, and its other parts are visited like any tree.
mutual

inductive Visits : List Binding → Node → Node → Prop
  | keep {bs : List Binding} {l : Label} {es es' : List Edge} :
      (Node.mk l es).isRenderWithBody = false → VisitsEdges bs es es' →
      Visits bs (.mk l es) (.mk l es')
  | bind {own bs : List Binding} {l : Label} {es es' : List Edge} :
      (Node.mk l es).isRenderWithBody = true → own.length ≤ 1 → VisitsBound own bs es es' →
      Visits (own ++ bs) (.mk l es) (.mk l es')

inductive VisitsEdges : List Binding → List Edge → List Edge → Prop
  | nil : VisitsEdges [] [] []
  | cons {bs cs : List Binding} {f : Field} {n n' : Node} {es es' : List Edge} :
      Visits bs n n' → VisitsEdges cs es es' → VisitsEdges (bs ++ cs) ((f, n) :: es) ((f, n') :: es')

inductive VisitsBound : List Binding → List Binding → List Edge → List Edge → Prop
  | nil {own : List Binding} : VisitsBound own [] [] []
  | body {own bs : List Binding} {us : List Use} {n n' : Node} {es es' : List Edge} :
      RewritesBy us n n' → us.map Use.binding ⊆ own → VisitsBound own bs es es' →
      VisitsBound own bs ((.body, n) :: es) ((.body, n') :: es')
  | part {own bs cs : List Binding} {f : Field} {n n' : Node} {es es' : List Edge} :
      f ≠ .body → Visits bs n n' → VisitsBound own cs es es' →
      VisitsBound own (bs ++ cs) ((f, n) :: es) ((f, n') :: es')

end

-- A visit gives out the bindings that it leaves behind.
mutual

theorem Node.visit_visits (dedupe : Bool) : ∀ (n : Node) (names : Names),
    Visits (n.visit dedupe names).bindings n (n.visit dedupe names).result
  | .mk l es, names => by
    cases hr : (Node.mk l es).isRenderWithBody
    case false =>
      rw [Node.visit_of_not_isRenderWithBody hr]
      exact .keep hr <| visitEdges_visits dedupe es names
    case true =>
      have hrest (own : List Binding) (hown : ((Node.mk l es).binding dedupe names).uses.map Use.binding ⊆ own) :=
        visitBound_visits dedupe l ((Node.mk l es).binding dedupe names) es
          ((Node.mk l es).binding dedupe names).hoisted ((Node.mk l es).namesOfBinding dedupe names) own
          (Subset.refl _) (Node.map_arrow_binding ..) hown
      rw [Node.visit_of_isRenderWithBody hr]
      simp only
      split
      case isTrue =>
        have hbound := hrest [(Node.mk l es).binding dedupe names] <|
          forall_mem_map.mpr fun u hu => mem_singleton.mpr <| Binding.binding_of_mem_uses hu
        have hlength : [(Node.mk l es).binding dedupe names].length ≤ 1 := Nat.le_refl 1
        exact .bind hr hlength hbound
      case isFalse hu =>
        have hbound := hrest [] <| by
          rw [Binding.uses_of_not_isUsed (Bool.not_eq_true _ ▸ hu)]
          exact Subset.refl _
        have hlength : ([] : List Binding).length ≤ 1 := Nat.zero_le 1
        exact .bind hr hlength hbound

theorem visitEdges_visits (dedupe : Bool) : ∀ (es : List Edge) (names : Names),
    VisitsEdges (visitEdges dedupe es names).bindings es (visitEdges dedupe es names).result
  | [], _ => .nil
  | (_, n) :: es, names => .cons (Node.visit_visits dedupe n names) (visitEdges_visits dedupe es _)

theorem visitBound_visits (dedupe : Bool) : ∀ (l : Label) (b : Binding) (es : List Edge) (hs : List Hoisted)
    (names : Names) (own : List Binding), hs ⊆ b.hoisted →
      hs.map Hoisted.arrow = ((Node.mk l es).at .body).flatMap Node.closures →
      (replicate (((Node.mk l es).at .body).foldr (·.bindCalls + ·) 0) (Use.bindCall b) ++
        hs.map (Use.closure b)).map Use.binding ⊆ own →
      VisitsBound own (visitBound dedupe b.binder es (hs.map (·.call b.binder)) names).bindings es
        (visitBound dedupe b.binder es (hs.map (·.call b.binder)) names).result
  | _, _, [], _, _, _, _, _, _ => .nil
  | l, b, (f, n) :: es, hs, names, own, hsub, hc, hown => by
    simp only [visitBound]
    split
    case isTrue hf =>
      subst hf
      simp only [Node.at_cons, if_true, flatMap_cons, foldr_cons] at hc hown
      obtain ⟨hs₁, hs₂, hhs, h₁, h₂⟩ := map_eq_append_iff.mp hc
      subst hhs
      obtain ⟨hsub₁, hsub₂⟩ := append_subset.mp hsub
      have hlen : n.closures.length = (hs₁.map (·.call b.binder)).length := by simp [← h₁]
      simp only [replicate_add, map_append, append_subset] at hown
      obtain ⟨⟨hsites₁, hsites₂⟩, hclosures₁, hclosures₂⟩ := hown
      simp only [map_append, hlen, take_left, drop_left]
      obtain ⟨us, hn, hp⟩ := Node.rebound_by n hs₁ hsub₁ h₁
      refine .body hn (List.Subset.trans (hp.map _).subset ?_) ?_
      · rw [map_append]
        exact append_subset.mpr ⟨hsites₁, hclosures₁⟩
      · refine visitBound_visits dedupe l b es hs₂ _ own hsub₂ h₂ ?_
        rw [map_append]
        exact append_subset.mpr ⟨hsites₂, hclosures₂⟩
    case isFalse hf =>
      simp only [Node.at_cons, hf, if_false] at hc hown
      exact .part hf (Node.visit_visits dedupe n names) (visitBound_visits dedupe l b es hs _ own hsub hc hown)

end

-- What is visited is rewritten through the binders that are given out.
mutual

theorem Visits.rewritesBy {bs : List Binding} {n n' : Node} : Visits bs n n' →
    ∃ us, RewritesBy us n n' ∧ us.map Use.binding ⊆ bs
  | .keep _ hes => by
    have ⟨us, hes, hus⟩ := hes.rewritesBy
    exact ⟨us, .keep hes, hus⟩
  | .bind _ _ hes => by
    have ⟨us, hes, hus⟩ := hes.rewritesBy
    exact ⟨us, .keep hes, hus⟩

theorem VisitsEdges.rewritesBy {bs : List Binding} {es es' : List Edge} : VisitsEdges bs es es' →
    ∃ us, RewritesEdgesBy us es es' ∧ us.map Use.binding ⊆ bs
  | .nil => ⟨[], .nil, nil_subset _⟩
  | .cons hn hes => by
    have ⟨us, hn, hus⟩ := hn.rewritesBy
    have ⟨vs, hes, hvs⟩ := hes.rewritesBy
    refine ⟨us ++ vs, .cons hn hes, ?_⟩
    rw [map_append]
    exact append_subset.mpr ⟨subset_append_of_subset_left _ hus, subset_append_of_subset_right _ hvs⟩

theorem VisitsBound.rewritesBy {own bs : List Binding} {es es' : List Edge} : VisitsBound own bs es es' →
    ∃ us, RewritesEdgesBy us es es' ∧ us.map Use.binding ⊆ own ++ bs
  | .nil => ⟨[], .nil, nil_subset _⟩
  | .body hn hown hes => by
    have ⟨vs, hes, hvs⟩ := hes.rewritesBy
    refine ⟨_, .cons hn hes, ?_⟩
    rw [map_append]
    exact append_subset.mpr ⟨subset_append_of_subset_left _ hown, hvs⟩
  | .part _ hn hes => by
    have ⟨us, hn, hus⟩ := hn.rewritesBy
    have ⟨vs, hes, hvs⟩ := hes.rewritesBy
    refine ⟨us ++ vs, .cons hn hes, ?_⟩
    rw [map_append]
    refine append_subset.mpr ⟨fun b hb => ?_, fun b hb => ?_⟩
    · exact mem_append_right _ <| mem_append_left _ <| hus hb
    · exact (mem_append.mp (hvs hb)).elim (mem_append_left _) (mem_append_right _ <| mem_append_right _ ·)

end

-- The calls of a name, wherever they stand in a tree.
def Node.callsTo (x : String) (n : Node) : List Node := n.subtrees.filter (·.callee? == some x)

def callsToOfEdges (x : String) (es : List Edge) : List Node :=
  (subtreesOfEdges es).filter (·.callee? == some x)

@[simp]
theorem callsToOfEdges_cons (x : String) (e : Edge) (es : List Edge) :
    callsToOfEdges x (e :: es) = e.2.callsTo x ++ callsToOfEdges x es :=
  filter_append ..

theorem Node.callsTo_mk {x : String} {l : Label} {es : List Edge} (h : (mk l es).callee? ≠ some x) :
    (mk l es).callsTo x = callsToOfEdges x es :=
  filter_cons_of_neg <| by simpa using h

-- Whether a node is a function of one of the shapes that a render function may have.
def Label.isFunction (l : Label) : Bool :=
  l.kind? ∈ [some .classMethod, some .methodProperty, some .functionDeclaration, some .functionExpression,
    some .arrowFunctionExpression]

section

variable {own bs : List Binding} {us : List Use} {l : Label} {es es' : List Edge} {n n' m : Node}
  {x : String}

theorem Node.isFunction_of_isRenderWithBody (h : n.isRenderWithBody = true) : n.label.isFunction = true := by
  rw [isRenderWithBody, Bool.and_eq_true] at h
  have hk := h.1
  unfold renderKind? at hk
  rw [kind?] at hk
  rw [Label.isFunction]
  split at hk
  case h_6 => cases hk
  all_goals simp_all

-- A name that the tree does not mention is called where a use of a binder of this name was made.
theorem RewritesBy.exists_binder (h : RewritesBy us n n') (hx : x ∉ n.mentions) (hm : m ∈ n'.subtrees)
    (hcallee : m.callee? = some x) : ∃ b ∈ us.map Use.binding, b.binder = x := by
  have ⟨u, hu, hstands⟩ := h.exists_use (Subset.refl _) hx hm hcallee
  exact ⟨u.binding, mem_map_of_mem hu, Option.some.inj <| hstands.callee?.symm.trans hcallee⟩

theorem RewritesBy.callsTo_eq_nil (h : RewritesBy us n n') (hx : x ∉ n.mentions)
    (hus : ∀ b ∈ us.map Use.binding, b.binder ≠ x) : n'.callsTo x = [] := by
  refine filter_eq_nil_iff.mpr fun m hm hcallee => ?_
  have ⟨b, hb, heq⟩ := h.exists_binder hx hm (eq_of_beq hcallee)
  exact hus b hb heq

theorem Visits.callsTo_eq_nil (h : Visits bs n n') (hx : x ∉ n.mentions) (hbs : ∀ b ∈ bs, b.binder ≠ x) :
    n'.callsTo x = [] := by
  have ⟨us, hn, hus⟩ := h.rewritesBy
  exact hn.callsTo_eq_nil hx fun b hb => hbs b (hus hb)

theorem RewritesEdgesBy.callee?_ne (h : RewritesEdgesBy us es es') (hx : x ∉ mentionsOfEdges es) :
    (Node.mk l es').callee? ≠ some x :=
  fun hcallee => hx <| (h.rewrites (Subset.refl _)).callee?_mem_mentions hcallee

end

theorem VisitsEdges.callsTo_eq_nil {bs : List Binding} {es es' : List Edge} {x : String} :
    VisitsEdges bs es es' → x ∉ mentionsOfEdges es → (∀ b ∈ bs, b.binder ≠ x) → callsToOfEdges x es' = []
  | .nil, _, _ => rfl
  | .cons hn hes, hx, hbs => by
    rw [mentionsOfEdges_cons, mem_append, not_or] at hx
    have ⟨hfirst, hrest⟩ := forall_mem_append.mp hbs
    rw [callsToOfEdges_cons, hn.callsTo_eq_nil hx.1 hfirst, hes.callsTo_eq_nil hx.2 hrest]
    rfl

-- A binder that is given out for a function in some other part is not called in the bodies.
theorem VisitsBound.callsTo_eq_nil {own bs : List Binding} {es es' : List Edge} {x : String} :
    VisitsBound own bs es es' → x ∉ mentionsOfEdges es → (∀ b ∈ own ++ bs, b.binder ≠ x) →
      callsToOfEdges x es' = []
  | .nil, _, _ => rfl
  | .body hn hown hes, hx, hbs => by
    rw [mentionsOfEdges_cons, mem_append, not_or] at hx
    have hfirst := hn.callsTo_eq_nil hx.1 fun b hb => hbs b <| mem_append_left _ <| hown hb
    rw [callsToOfEdges_cons, hfirst, hes.callsTo_eq_nil hx.2 hbs]
    rfl
  | .part _ hn hes, hx, hbs => by
    rw [mentionsOfEdges_cons, mem_append, not_or] at hx
    have hfirst := hn.callsTo_eq_nil hx.1 fun b hb => hbs b <| mem_append_right _ <| mem_append_left _ hb
    have hrest := hes.callsTo_eq_nil hx.2 fun b hb => hbs b <| (mem_append.mp hb).elim (mem_append_left _)
      (mem_append_right _ <| mem_append_right _ ·)
    rw [callsToOfEdges_cons, hfirst, hrest]
    rfl

-- The binder of a function itself is called in the bodies only.
theorem VisitsBound.callsTo_eq {own bs : List Binding} {l : Label} {es es' : List Edge} {x : String} :
    VisitsBound own bs es es' → x ∉ mentionsOfEdges es → (∀ b ∈ bs, b.binder ≠ x) →
      callsToOfEdges x es' = ((Node.mk l es').at .body).flatMap (Node.callsTo x)
  | .nil, _, _ => rfl
  | .body _ _ hes, hx, hbs => by
    rw [mentionsOfEdges_cons, mem_append, not_or] at hx
    rw [callsToOfEdges_cons, hes.callsTo_eq (l := l) hx.2 hbs, Node.at_cons, if_pos rfl, flatMap_cons]
  | .part hf hn hes, hx, hbs => by
    rw [mentionsOfEdges_cons, mem_append, not_or] at hx
    have ⟨hfirst, hrest⟩ := forall_mem_append.mp hbs
    rw [callsToOfEdges_cons, hn.callsTo_eq_nil hx.1 hfirst, hes.callsTo_eq (l := l) hx.2 hrest, Node.at_cons,
      if_neg hf, nil_append]

-- All calls of a binder stand in the bodies of one function.
mutual

theorem Visits.exists_function {bs : List Binding} {n n' : Node} {b : Binding} : Visits bs n n' →
    (bs.map Binding.binder).Nodup → b ∈ bs → b.binder ∉ n.mentions →
      ∃ f ∈ n'.subtrees, f.label.isFunction = true ∧
        n'.callsTo b.binder = (f.at .body).flatMap (Node.callsTo b.binder)
  | .keep _ hes, hnodup, hb, hx => by
    rw [Node.mentions_mk, mem_append, not_or] at hx
    have ⟨f, hf, hfunction, hcalls⟩ := hes.exists_function hnodup hb hx.2
    have ⟨_, hrewrites, _⟩ := hes.rewritesBy
    refine ⟨f, mem_cons_of_mem _ hf, hfunction, ?_⟩
    rw [Node.callsTo_mk (hrewrites.callee?_ne hx.2), hcalls]
  | .bind hr _ hes, hnodup, hb, hx => by
    rw [Node.mentions_mk, mem_append, not_or] at hx
    rw [map_append, nodup_append] at hnodup
    have ⟨_, hbs, hdisjoint⟩ := hnodup
    have hne := fun a ha => hdisjoint (Binding.binder a) (mem_map_of_mem ha)
    have ⟨_, hrewrites, _⟩ := hes.rewritesBy
    rw [Node.callsTo_mk (hrewrites.callee?_ne hx.2)]
    cases mem_append.mp hb
    case inl hb =>
      have hrest := fun c hc => (hne b hb (Binding.binder c) (mem_map_of_mem hc)).symm
      have hfunction := Node.isFunction_of_isRenderWithBody hr
      exact ⟨_, Node.mem_subtrees_self _, hfunction, hes.callsTo_eq hx.2 hrest⟩
    case inr hb =>
      have hown := fun a ha => hne a ha b.binder (mem_map_of_mem hb)
      have ⟨f, hf, hfunction, hcalls⟩ := hes.exists_function hbs hown hb hx.2
      exact ⟨f, mem_cons_of_mem _ hf, hfunction, hcalls⟩

theorem VisitsEdges.exists_function {bs : List Binding} {es es' : List Edge} {b : Binding} :
    VisitsEdges bs es es' → (bs.map Binding.binder).Nodup → b ∈ bs → b.binder ∉ mentionsOfEdges es →
      ∃ f ∈ subtreesOfEdges es', f.label.isFunction = true ∧
        callsToOfEdges b.binder es' = (f.at .body).flatMap (Node.callsTo b.binder)
  | .nil, _, hb, _ => nomatch hb
  | .cons hn hes, hnodup, hb, hx => by
    rw [mentionsOfEdges_cons, mem_append, not_or] at hx
    rw [map_append, nodup_append] at hnodup
    have ⟨hfirst, hrest, hdisjoint⟩ := hnodup
    rw [callsToOfEdges_cons]
    cases mem_append.mp hb
    case inl hb =>
      have ⟨f, hf, hfunction, hcalls⟩ := hn.exists_function hfirst hb hx.1
      have hnone := hes.callsTo_eq_nil hx.2 fun c hc =>
        (hdisjoint _ (mem_map_of_mem hb) c.binder (mem_map_of_mem hc)).symm
      exact ⟨f, mem_append_left _ hf, hfunction, by rw [hnone, append_nil, hcalls]⟩
    case inr hb =>
      have ⟨f, hf, hfunction, hcalls⟩ := hes.exists_function hrest hb hx.2
      have hnone := hn.callsTo_eq_nil hx.1 fun c hc =>
        hdisjoint c.binder (mem_map_of_mem hc) _ (mem_map_of_mem hb)
      exact ⟨f, mem_append_right _ hf, hfunction, by rw [hnone, nil_append, hcalls]⟩

theorem VisitsBound.exists_function {own bs : List Binding} {es es' : List Edge} {b : Binding} :
    VisitsBound own bs es es' → (bs.map Binding.binder).Nodup → (∀ a ∈ own, a.binder ≠ b.binder) → b ∈ bs →
      b.binder ∉ mentionsOfEdges es →
      ∃ f ∈ subtreesOfEdges es', f.label.isFunction = true ∧
        callsToOfEdges b.binder es' = (f.at .body).flatMap (Node.callsTo b.binder)
  | .nil, _, _, hb, _ => nomatch hb
  | .body hn hown hes, hnodup, hne, hb, hx => by
    rw [mentionsOfEdges_cons, mem_append, not_or] at hx
    have ⟨f, hf, hfunction, hcalls⟩ := hes.exists_function hnodup hne hb hx.2
    have hnone := hn.callsTo_eq_nil hx.1 fun a ha => hne a (hown ha)
    exact ⟨f, mem_append_right _ hf, hfunction, by rw [callsToOfEdges_cons, hnone, nil_append, hcalls]⟩
  | .part _ hn hes, hnodup, hne, hb, hx => by
    rw [mentionsOfEdges_cons, mem_append, not_or] at hx
    rw [map_append, nodup_append] at hnodup
    have ⟨hfirst, hrest, hdisjoint⟩ := hnodup
    rw [callsToOfEdges_cons]
    cases mem_append.mp hb
    case inl hb =>
      have ⟨f, hf, hfunction, hcalls⟩ := hn.exists_function hfirst hb hx.1
      have hnone := hes.callsTo_eq_nil hx.2 <| forall_mem_append.mpr ⟨hne, fun c hc =>
        (hdisjoint _ (mem_map_of_mem hb) c.binder (mem_map_of_mem hc)).symm⟩
      exact ⟨f, mem_append_left _ hf, hfunction, by rw [hnone, append_nil, hcalls]⟩
    case inr hb =>
      have ⟨f, hf, hfunction, hcalls⟩ := hes.exists_function hrest hne hb hx.2
      have hnone := hn.callsTo_eq_nil hx.1 fun c hc =>
        hdisjoint c.binder (mem_map_of_mem hc) _ (mem_map_of_mem hb)
      exact ⟨f, mem_append_right _ hf, hfunction, by rw [hnone, nil_append, hcalls]⟩

end

-- That no two of the given names are called in the body of a function.
def Node.CallsOne (xs : List String) (f : Node) : Prop :=
  ∀ m₁ ∈ (f.at .body).flatMap Node.subtrees, ∀ m₂ ∈ (f.at .body).flatMap Node.subtrees,
    ∀ x₁ ∈ xs, ∀ x₂ ∈ xs, m₁.callee? = some x₁ → m₂.callee? = some x₂ → x₁ = x₂

theorem Node.callsOne_of_own (own : List Binding) {xs : List String} {f : Node} (hlength : own.length ≤ 1)
    (h : ∀ m ∈ (f.at .body).flatMap Node.subtrees, ∀ x ∈ xs, m.callee? = some x →
      ∃ b ∈ own, b.binder = x) : f.CallsOne xs := by
  intro m₁ hm₁ m₂ hm₂ x₁ hx₁ x₂ hx₂ hcallee₁ hcallee₂
  have ⟨b₁, hb₁, heq₁⟩ := h m₁ hm₁ x₁ hx₁ hcallee₁
  have ⟨b₂, hb₂, heq₂⟩ := h m₂ hm₂ x₂ hx₂ hcallee₂
  have ⟨i, hi, hi₁⟩ := mem_iff_getElem.mp hb₁
  have ⟨j, hj, hj₂⟩ := mem_iff_getElem.mp hb₂
  have hij : i = j := by omega
  subst hij
  rw [← heq₁, ← heq₂, ← hi₁, ← hj₂]

theorem VisitsBound.exists_binder {own bs : List Binding} {l : Label} {es es' : List Edge} {m : Node}
    {x : String} :
    VisitsBound own bs es es' → x ∉ mentionsOfEdges es →
      m ∈ ((Node.mk l es').at .body).flatMap Node.subtrees → m.callee? = some x → ∃ b ∈ own, b.binder = x
  | .body hn hown hes, hx, hm, hcallee => by
    rw [mentionsOfEdges_cons, mem_append, not_or] at hx
    rw [Node.at_cons, if_pos rfl, flatMap_cons, mem_append] at hm
    cases hm
    case inl hm =>
      have ⟨b, hb, heq⟩ := hn.exists_binder hx.1 hm hcallee
      exact ⟨b, hown hb, heq⟩
    case inr hm => exact hes.exists_binder hx.2 hm hcallee
  | .part hf _ hes, hx, hm, hcallee => by
    rw [mentionsOfEdges_cons, mem_append, not_or] at hx
    rw [Node.at_cons, if_neg hf] at hm
    exact hes.exists_binder hx.2 hm hcallee

-- Whatever is a function in a body that goes through a binder, its own body goes through the same binder.
-- A function that is no render function with a body is none after the visit.
mutual

theorem Visits.callsOne {bs : List Binding} {n n' f : Node} {xs : List String} : Visits bs n n' →
    (∀ x ∈ xs, x ∉ n.mentions) → f ∈ n'.subtrees → f.renderKind?.isSome → f.CallsOne xs
  | .keep hr hes, hxs, hf, hk => by
    have ⟨_, hrewrites, _⟩ := hes.rewritesBy
    cases mem_cons.mp hf
    case inl heq =>
      subst heq
      have hrewrites := hrewrites.rewrites (Subset.refl _)
      intro m₁ hm₁
      have ⟨body, hbody, _⟩ := mem_flatMap.mp hm₁
      have ⟨_, hmem, _⟩ := hrewrites.exists_of_mem_at hbody
      simp only [Node.isRenderWithBody, hrewrites.renderKind? hk, Bool.true_and, Bool.not_eq_false',
        List.isEmpty_iff] at hr
      exact absurd hmem (hr ▸ not_mem_nil)
    case inr hf =>
      have hxs := fun x hx hm => hxs x hx <| Node.mentions_mk _ _ ▸ mem_append_right _ hm
      exact hes.callsOne hxs hf hk
  | .bind _ hlength hes, hxs, hf, hk => by
    have hxs := fun x hx hm => hxs x hx <| Node.mentions_mk _ _ ▸ mem_append_right _ hm
    cases mem_cons.mp hf
    case inl heq =>
      subst heq
      exact Node.callsOne_of_own _ hlength fun _ hm x hx => hes.exists_binder (hxs x hx) hm
    case inr hf => exact hes.callsOne hlength hxs hf hk

theorem VisitsEdges.callsOne {bs : List Binding} {es es' : List Edge} {f : Node} {xs : List String} :
    VisitsEdges bs es es' → (∀ x ∈ xs, x ∉ mentionsOfEdges es) → f ∈ subtreesOfEdges es' →
      f.renderKind?.isSome → f.CallsOne xs
  | .cons hn hes, hxs, hf, hk => by
    simp only [mentionsOfEdges_cons, mem_append, not_or] at hxs
    cases mem_append.mp hf
    case inl hf => exact hn.callsOne (fun x hx => (hxs x hx).1) hf hk
    case inr hf => exact hes.callsOne (fun x hx => (hxs x hx).2) hf hk

theorem VisitsBound.callsOne {own bs : List Binding} {es es' : List Edge} {f : Node} {xs : List String} :
    VisitsBound own bs es es' → own.length ≤ 1 → (∀ x ∈ xs, x ∉ mentionsOfEdges es) →
      f ∈ subtreesOfEdges es' → f.renderKind?.isSome → f.CallsOne xs
  | .body hn hown hes, hlength, hxs, hf, hk => by
    simp only [mentionsOfEdges_cons, mem_append, not_or] at hxs
    cases mem_append.mp hf
    case inl hf =>
      refine Node.callsOne_of_own _ hlength fun m hm x hx hcallee => ?_
      have ⟨body, hbody, hm⟩ := mem_flatMap.mp hm
      have hm := Node.subtrees_trans (Node.subtrees_trans hm f <| Node.mem_subtrees_of_mem_at hbody) _ hf
      have ⟨b, hb, heq⟩ := hn.exists_binder (hxs x hx).1 hm hcallee
      exact ⟨b, hown hb, heq⟩
    case inr hf => exact hes.callsOne hlength (fun x hx => (hxs x hx).2) hf hk
  | .part _ hn hes, hlength, hxs, hf, hk => by
    simp only [mentionsOfEdges_cons, mem_append, not_or] at hxs
    cases mem_append.mp hf
    case inl hf => exact hn.callsOne (fun x hx => (hxs x hx).1) hf hk
    case inr hf => exact hes.callsOne hlength (fun x hx => (hxs x hx).2) hf hk

end

-- The bindings that were made in the visit of which an item is the result.
inductive Emitted.Visited (items : List Node) : Emitted → List Binding → Prop
  | binder {b : Binding} : Visited items (.binder b) []
  | closure {h : Hoisted} {d : Node} {bs : List Binding} :
      Visits bs h.declaration d → Visited items (.closure h d) bs
  | own {item n : Node} {bs : List Binding} : item ∈ items → Visits bs item n → Visited items (.own n) bs

-- Every binding of an expansion was made in the visit of one item. The bindings of a visit are among those
-- of the expansion because their binders stand in front of the item.
theorem expand_visited {items : List Node} (dedupe : Bool) (emit : Node → Emitted) (item : Node) (names : Names)
    (hemit : ∀ n, (emit n).binding? = none)
    (hvisited : ∀ bs n, Visits bs item n → (emit n).Visited items bs) :
    ∃ made, Forall₂ (Emitted.Visited items) (expand dedupe emit item names).items made ∧
      Emitted.bindings (expand dedupe emit item names).items ~ made.flatten := by
  induction emit, item, names using expand_induction dedupe
    (F := fun ps names =>
      ∃ made, Forall₂ (Emitted.Visited items) (expandPending dedupe ps names).items made ∧
        Emitted.bindings (expandPending dedupe ps names).items ~
          ps.filterMap Pending.binding? ++ made.flatten)
  case nil => exact ⟨[], .nil, .refl _⟩
  case binder b ps names hi =>
    obtain ⟨made, hmade, hp⟩ := hi
    exact ⟨[] :: made, .cons .binder hmade, hp.cons b⟩
  case closure h ps names hclosure hi =>
    obtain ⟨made₁, hmade₁, hp₁⟩ := hclosure (fun _ => rfl) fun _ _ => .closure
    obtain ⟨made₂, hmade₂, hp₂⟩ := hi
    refine ⟨made₁ ++ made₂, rel_append hmade₁ hmade₂, ?_⟩
    rw [expandPending, Emitted.bindings_append, flatten_append]
    exact (hp₁.append hp₂).trans <| perm_append_comm_assoc ..
  case item emit item names hi =>
    obtain ⟨made, hmade, hp⟩ := hi
    have hvisit := hvisited _ _ (item.visit_visits dedupe names)
    rw [Node.pending, Pending.filterMap_ofBindings, ← Node.pending] at hp
    refine ⟨made ++ [(item.visit dedupe names).bindings], ?_, ?_⟩
    · rw [expand_eq]
      exact rel_append hmade <| .cons hvisit .nil
    · rw [expand_eq, Emitted.bindings_append_last hemit, flatten_append, flatten_singleton]
      exact hp.trans perm_append_comm

theorem expandItems_visited {dedupe : Bool} {body : List Node} (items : List Node) (names : Names)
    (hitems : items ⊆ body) :
    ∃ made, Forall₂ (Emitted.Visited body) (expandItems dedupe items names).items made ∧
      Emitted.bindings (expandItems dedupe items names).items ~ made.flatten := by
  induction items generalizing names
  case nil => exact ⟨[], .nil, .refl _⟩
  case cons item items hi =>
    have ⟨hitem, hitems⟩ := cons_subset.mp hitems
    have ⟨made₁, hmade₁, hp₁⟩ := expand_visited dedupe .own item names (fun _ => rfl) fun _ _ => .own hitem
    have ⟨made₂, hmade₂, hp₂⟩ := hi (expand dedupe .own item names).names hitems
    refine ⟨made₁ ++ made₂, rel_append hmade₁ hmade₂, ?_⟩
    rw [expandItems, Emitted.bindings_append, flatten_append]
    exact hp₁.append hp₂

namespace Program

variable {p : Program} {c : Config} {b : Binding} {y : Emitted} {bs : List Binding}

theorem nodup_binders (p : Program) (dedupe : Bool) : ((p.bindings dedupe).map Binding.binder).Nodup := by
  have hsublist (bs : List Binding) : bs.map Binding.binder <+ bs.flatMap Binding.names := by
    induction bs
    case nil          => exact .slnil
    case cons b bs hi => exact (hi.trans <| sublist_append_right ..).cons_cons _
  exact (nodup_cons.mp <| p.nodup_names dedupe).2.sublist (hsublist _)

-- The tree that an item is the visit of mentions no binder.
theorem exists_visits (hy : y ∈ (p.expansion c.dedupeCaptures).2.items) (h : y.Visited p.body bs)
    (hbinding : y.binding? = none) :
    ∃ n, Visits bs n (p.nodeOf c y) ∧ ∀ b ∈ p.bindings c.dedupeCaptures, b.binder ∉ n.mentions := by
  have hx (b : Binding) (hb : b ∈ p.bindings c.dedupeCaptures) : b.binder ∈ p.generatedNames c.dedupeCaptures :=
    names_subset_generatedNames hb mem_cons_self
  cases h
  case binder => nomatch hbinding
  case closure h d hd =>
    refine ⟨_, hd, fun b hb hm => ?_⟩
    have havoids := avoids_of_mem_expansion (hx b hb) hy
    rw [← count_pos_iff, havoids.count_declaration, count_pos_iff] at hm
    nomatch eq_of_mem_introduces (binder_mem hb) hy mem_cons_self hm
  case own item n hitem hn => exact ⟨item, hn, fun b hb => not_mem_mentions (hx b hb) hitem⟩

theorem callsTo_binderDeclaration (hb : b ∈ p.bindings c.dedupeCaptures) (binder : String) (cacheSize : UInt64) :
    (binderDeclaration binder (p.expansion c.dedupeCaptures).1 cacheSize).callsTo b.binder = [] := by
  refine filter_eq_nil_iff.mpr fun m hm hcallee => p.not_mem_names_of_memoize c ?_
  rw [← callee?_binderDeclaration hm (eq_of_beq hcallee)]
  exact mem_flatMap_of_mem hb mem_cons_self

theorem callsTo_import {n : Node} (hb : b ∈ p.bindings c.dedupeCaptures) (hn : n ∈ p.imports c) :
    n.callsTo b.binder = [] := by
  have hnames : b.binder ∈ (p.bindings c.dedupeCaptures).flatMap Binding.names :=
    mem_flatMap_of_mem hb mem_cons_self
  refine filter_eq_nil_iff.mpr fun m hm hcallee => p.not_mem_names_of_memoize c ?_
  have hx := Node.mentions_subset_of_mem_subtrees hm <| Node.callee?_mem_mentions (eq_of_beq hcallee)
  rw [← count_pos_iff, count_mentions_import hn (p.names_subset _ hnames), count_pos_iff, mem_singleton] at hx
  exact hx ▸ hnames

-- A binder is not called in an item in whose visit it was not made.
theorem callsTo_nodeOf (hb : b ∈ p.bindings c.dedupeCaptures) (hy : y ∈ (p.expansion c.dedupeCaptures).2.items)
    (h : y.Visited p.body bs) (hbs : ∀ a ∈ bs, a.binder ≠ b.binder) : (p.nodeOf c y).callsTo b.binder = [] := by
  cases hbinding : y.binding?
  case some =>
    cases y
    case binder  => exact callsTo_binderDeclaration hb ..
    case closure => nomatch hbinding
    case own     => nomatch hbinding
  case none =>
    have ⟨n, hn, hmentions⟩ := exists_visits (c := c) hy h hbinding
    exact hn.callsTo_eq_nil (hmentions b hb) hbs

theorem callsTo_nodes {ys : List Emitted} {made : List (List Binding)} (hb : b ∈ p.bindings c.dedupeCaptures)
    (hys : ys ⊆ (p.expansion c.dedupeCaptures).2.items) (h : Forall₂ (Emitted.Visited p.body) ys made)
    (hmade : ∀ a ∈ made.flatten, a.binder ≠ b.binder) :
    (ys.map (p.nodeOf c)).flatMap (Node.callsTo b.binder) = [] := by
  induction h
  case nil => rfl
  case cons y bs ys made hy _ hi =>
    have ⟨hmem, hys⟩ := cons_subset.mp hys
    rw [flatten_cons, forall_mem_append] at hmade
    rw [map_cons, flatMap_cons, callsTo_nodeOf hb hmem hy hmade.1, hi hys hmade.2]
    rfl

theorem exists_function_of_nodes {ys : List Emitted} {made : List (List Binding)}
    (hb : b ∈ p.bindings c.dedupeCaptures) (hys : ys ⊆ (p.expansion c.dedupeCaptures).2.items)
    (h : Forall₂ (Emitted.Visited p.body) ys made) (hnodup : (made.flatten.map Binding.binder).Nodup)
    (hmade : b ∈ made.flatten) :
    ∃ y ∈ ys, ∃ f ∈ (p.nodeOf c y).subtrees, f.label.isFunction = true ∧
      (ys.map (p.nodeOf c)).flatMap (Node.callsTo b.binder) =
        (f.at .body).flatMap (Node.callsTo b.binder) := by
  induction h
  case nil => nomatch hmade
  case cons y bs ys made hy hrest hi =>
    have ⟨hmem, hys⟩ := cons_subset.mp hys
    rw [flatten_cons, map_append, nodup_append] at hnodup
    have ⟨hfirst, hothers, hdisjoint⟩ := hnodup
    rw [map_cons, flatMap_cons]
    cases mem_append.mp hmade
    case inl hmade =>
      have hbinding : y.binding? = none := by
        cases hy
        case binder => nomatch hmade
        all_goals rfl
      have ⟨n, hn, hmentions⟩ := exists_visits (c := c) hmem hy hbinding
      have ⟨f, hf, hfunction, hcalls⟩ := hn.exists_function hfirst hmade (hmentions b hb)
      have hnone := callsTo_nodes hb hys hrest fun a ha =>
        (hdisjoint _ (mem_map_of_mem hmade) a.binder (mem_map_of_mem ha)).symm
      exact ⟨y, mem_cons_self, f, hf, hfunction, by rw [hnone, append_nil, hcalls]⟩
    case inr hmade =>
      have ⟨z, hz, f, hf, hfunction, hcalls⟩ := hi hys hothers hmade
      have hnone := callsTo_nodeOf hb hmem hy fun a ha =>
        hdisjoint a.binder (mem_map_of_mem ha) _ (mem_map_of_mem hmade)
      exact ⟨z, mem_cons_of_mem _ hz, f, hf, hfunction, by rw [hnone, nil_append, hcalls]⟩

theorem exists_visited (p : Program) (dedupe : Bool) :
    ∃ made, Forall₂ (Emitted.Visited p.body) (p.expansion dedupe).2.items made ∧
      p.bindings dedupe ~ made.flatten :=
  expandItems_visited p.body _ (Subset.refl _)

theorem callsOne_of_mem_renderNodes {f : Node} {i : Nat} (h : (f, i) ∈ (p.memoize c).program.renderNodes) :
    f.CallsOne ((p.bindings c.dedupeCaptures).map Binding.binder) := by
  have ⟨hk, item, hitem, hf⟩ := mem_renderNodes h
  have hnone (hcalls : ∀ b ∈ p.bindings c.dedupeCaptures, item.callsTo b.binder = []) :
      f.CallsOne ((p.bindings c.dedupeCaptures).map Binding.binder) := by
    refine Node.callsOne_of_own [] (Nat.zero_le 1) fun m hm x hx hcallee => ?_
    have ⟨body, hbody, hm⟩ := mem_flatMap.mp hm
    have ⟨b, hb, heq⟩ := mem_map.mp hx
    have hsub := Node.subtrees_trans (Node.subtrees_trans hm f <| Node.mem_subtrees_of_mem_at hbody) item hf
    have hcall : m ∈ item.callsTo b.binder := mem_filter.mpr ⟨hsub, by simp [hcallee, heq]⟩
    exact absurd hcall (hcalls b hb ▸ not_mem_nil)
  rw [memoize_body_eq, mem_append] at hitem
  cases hitem
  case inl hitem => exact hnone fun b hb => callsTo_import hb hitem
  case inr hitem =>
    have ⟨y, hy, heq⟩ := mem_map.mp hitem
    subst heq
    cases hbinding : y.binding?
    case some =>
      cases y
      case binder  => exact hnone fun b hb => callsTo_binderDeclaration hb ..
      case closure => nomatch hbinding
      case own     => nomatch hbinding
    case none =>
      have ⟨made, hmade, _⟩ := p.exists_visited c.dedupeCaptures
      have ⟨bs, _, hvisited⟩ := exists_related hmade hy
      have ⟨n, hn, hmentions⟩ := exists_visits (c := c) hy hvisited hbinding
      exact hn.callsOne (forall_mem_map.mpr hmentions) hf hk

-- How the calls of a result are divided among the binders.
structure Partitioned (p : Program) (c : Config) : Prop where
  -- The calls in the body of one listed function go through one binder.
  listed :
    ∀ f i, (f, i) ∈ (p.memoize c).program.renderNodes →
      f.CallsOne ((p.bindings c.dedupeCaptures).map Binding.binder)
  -- The calls that go through one binder are those in the body of one function.
  together :
    ∀ b ∈ p.bindings c.dedupeCaptures, ∃ n ∈ (p.memoize c).program.body, ∃ f ∈ n.subtrees,
      f.label.isFunction = true ∧
      (p.memoize c).program.body.flatMap (Node.callsTo b.binder) =
        (f.at .body).flatMap (Node.callsTo b.binder)
  -- No two binders have the same name.
  distinct : ((p.bindings c.dedupeCaptures).map Binding.binder).Nodup
  -- The listed functions are those that the query finds in the result.
  found :
    (p.memoize c).program.renderFunctions.map some =
      (p.memoize c).program.renderNodes.map fun (f, i) => f.asRenderFunction? i

-- There is one binder for each function whose body is rewritten.
theorem partitioned (p : Program) (c : Config) : p.Partitioned c where
  listed   := fun _ _ => callsOne_of_mem_renderNodes
  together := by
    obtain ⟨made, hmade, hp⟩ := p.exists_visited c.dedupeCaptures
    intro b hb
    have hnodup := (hp.map Binding.binder).nodup_iff.mp (p.nodup_binders c.dedupeCaptures)
    obtain ⟨y, hy, f, hf, hfunction, hcalls⟩ :=
      exists_function_of_nodes hb (Subset.refl _) hmade hnodup (hp.mem_iff.mp hb)
    have himports : (p.imports c).flatMap (Node.callsTo b.binder) = [] :=
      flatMap_eq_nil_iff.mpr fun _ => callsTo_import hb
    rw [memoize_body_eq, flatMap_append, himports, nil_append]
    exact ⟨_, mem_append_right _ <| mem_map_of_mem hy, f, hf, hfunction, hcalls⟩
  distinct := p.nodup_binders c.dedupeCaptures
  found    := map_renderFunctions_eq _

end Program

end RenderMemo
