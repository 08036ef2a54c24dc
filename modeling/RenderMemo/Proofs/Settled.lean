import RenderMemo.Proofs.Expansions

namespace RenderMemo

-- No render function of the tree has a site in its body.
def Node.Settled (n : Node) : Prop :=
  ∀ m ∈ n.subtrees, m.renderKind?.isSome → ∀ body ∈ m.at .body, body.Siteless

def SettledEdges (es : List Edge) : Prop := ∀ e ∈ es, e.2.Settled

@[simp]
theorem settledEdges_nil : SettledEdges [] := by
  simp [SettledEdges]

@[simp]
theorem settledEdges_cons {f : Field} {n : Node} {es : List Edge} :
    SettledEdges ((f, n) :: es) ↔ n.Settled ∧ SettledEdges es := by
  simp [SettledEdges]

namespace Node

variable {l : Label} {es : List Edge} {n m : Node}

theorem settled_mk :
    (mk l es).Settled ↔
      ((mk l es).renderKind?.isSome → ∀ body ∈ (mk l es).at .body, body.Siteless) ∧
      SettledEdges es := by
  simp only [Settled, SettledEdges, mem_subtrees_mk, forall_eq_or_imp]
  refine and_congr_right fun _ => ⟨fun h e he m hm => h m ⟨e, he, hm⟩, ?_⟩
  rintro h m ⟨e, he, hm⟩
  exact h e he m hm

theorem Siteless.settled (h : n.Siteless) : n.Settled :=
  fun _ hm _ _ hbody => (h.of_mem_subtrees hm).of_mem_subtrees <| mem_subtrees_of_mem_at hbody

-- A render function contains markup, whatever its kind.
theorem hasMarkup_of_renderKind? (h : n.renderKind?.isSome) : n.hasMarkup = true := by
  unfold renderKind? at h
  split at h
  case h_5 =>
    split at h
    case isTrue hbody =>
      have ⟨body, hbody, hm⟩ := List.any_eq_true.mp hbody
      have ⟨k, hk, hmarkup⟩ := body.hasMarkup_iff.mp hm
      exact n.hasMarkup_iff.mpr ⟨k, subtrees_trans hk n (mem_subtrees_of_mem_at hbody), hmarkup⟩
    case isFalse => simp at h
  case h_6 => simp at h
  all_goals
    split at h
    case isTrue hm  => simp_all
    case isFalse => simp at h

theorem settled_of_not_hasMarkup (h : n.hasMarkup = false) : n.Settled := by
  intro m hm hk
  have ⟨k, hkm, hmarkup⟩ := m.hasMarkup_iff.mp <| hasMarkup_of_renderKind? hk
  have := n.hasMarkup_iff.mpr ⟨k, subtrees_trans hkm n hm, hmarkup⟩
  simp [h] at this

end Node

namespace Node

variable {s : Span} {as : List (String × Json)} {es rest : List Edge} {binder : String}

-- A call of a binder is no site.
theorem siteless_bound {f : Field} {n : Node} (hes : SitelessEdges ((f, n) :: es)) :
    (mk (.form .callExpression s as) ((.callee, named binder) :: (f, n) :: es)).Siteless :=
  siteless_mk.mpr ⟨rfl, sitelessEdges_cons.mpr ⟨siteless_named _, hes⟩⟩

-- Where only a node itself is a site, there is none once it is led through a binder.
theorem siteless_throughBinder {l : Label} (hl : l.isClosure = false) (hes : SitelessEdges es) :
    ((mk l es).throughBinder binder).Siteless := by
  unfold throughBinder
  split
  case h_1 s as es' hn =>
    cases hn
    split
    case h_1 target rest hp =>
      obtain ⟨_, _, _, hes'⟩ := bindParts?_eq_some_iff.mp hp
      subst hes'
      obtain ⟨hmember, hrest⟩ := sitelessEdges_cons.mp hes
      obtain ⟨htarget, _⟩ := sitelessEdges_cons.mp (siteless_mk.mp hmember).2
      exact siteless_bound <| by simp [htarget, hrest]
    case h_2 hp => exact siteless_mk.mpr ⟨by simp [isSite, isBindCall, label, hl, hp], hes⟩
  case h_2 hcall =>
    refine siteless_mk.mpr ⟨isSite_eq_false_iff.mpr ⟨hl, ?_⟩, hes⟩
    rw [← Bool.not_eq_true, isBindCall_mk]
    intro hcallee
    have hk := hcallee.1
    cases l <;> simp_all [Label.kind?]

end Node

theorem Hoisted.siteless_call (h : Hoisted) (binder : String) : (h.call binder).Siteless := by
  refine Node.siteless_bound ?_
  simp [SitelessEdges, Function.comp_def]

-- A tree has no site left once it is led through a binder and no replacement brings one back.
mutual

theorem Node.siteless_rebound (binder : String) :
    ∀ (n : Node) (rs : List Node), rs.length = n.closures.length → (∀ r ∈ rs, r.Siteless) →
      (n.rebound binder rs).Siteless
  | .mk l es, rs, hlen, hrs => by
    simp only [Node.closures] at hlen
    simp only [Node.rebound]
    split
    case isTrue hl =>
      rw [if_pos hl, List.length_singleton, List.length_eq_one_iff] at hlen
      have ⟨r, hr⟩ := hlen
      subst hr
      exact hrs r List.mem_cons_self
    case isFalse hl =>
      rw [if_neg hl] at hlen
      exact Node.siteless_throughBinder (by simpa using hl) (siteless_reboundEdges binder es rs hlen hrs)

theorem siteless_reboundEdges (binder : String) :
    ∀ (es : List Edge) (rs : List Node), rs.length = (closuresOfEdges es).length →
      (∀ r ∈ rs, r.Siteless) → SitelessEdges (reboundEdges binder es rs)
  | [], _, _, _ => sitelessEdges_nil
  | (_, n) :: es, rs, hlen, hrs => by
    simp only [closuresOfEdges, List.length_append] at hlen
    refine sitelessEdges_cons.mpr ⟨Node.siteless_rebound binder n _ ?_ ?_,
      siteless_reboundEdges binder es _ ?_ ?_⟩
    · simp [hlen]
    · exact fun r hr => hrs r (List.mem_of_mem_take hr)
    · simp [hlen]
    · exact fun r hr => hrs r (List.mem_of_mem_drop hr)

end

section

variable {bs : List Binding}

theorem edgesHaveMarkup_eq_any (es : List Edge) : edgesHaveMarkup es = es.any (·.2.hasMarkup) := by
  induction es
  case nil => rfl
  case cons e es hi => simp [edgesHaveMarkup, hi]

theorem Hoisted.hasMarkup_call (h : Hoisted) (binder : String) : (h.call binder).hasMarkup = false := by
  have hentry (i : Ident) : (Node.entry (.ofIdent i)).hasMarkup = false := rfl
  have hnames : (Node.named binder).hasMarkup = false ∧ (Node.entry (.named h.name)).hasMarkup = false ∧
      (Node.entry .this).hasMarkup = false :=
    ⟨rfl, rfl, rfl⟩
  simp [call, Node.callAt, Node.hasMarkup, edgesHaveMarkup_eq_any, Label.isMarkup, hentry, hnames]

-- Rewriting makes no markup.
mutual

theorem Rewrites.hasMarkup {n n' : Node} : Rewrites bs n n' → n'.hasMarkup = true → n.hasMarkup = true
  | .keep hes, h => by
    simp only [Node.hasMarkup, Bool.or_eq_true] at h ⊢
    exact h.imp_right hes.hasMarkup
  | .closure _ _ _, h => by simp [Hoisted.hasMarkup_call] at h
  | .bind _ hp htarget hrest, h => by
    have ⟨_, _, _, hes⟩ := bindParts?_eq_some_iff.mp hp
    subst hes
    simp [Node.hasMarkup, edgesHaveMarkup, Node.named, Node.ofIdent, Node.entry, Node.form, Label.isMarkup] at h ⊢
    exact h.imp htarget.hasMarkup hrest.hasMarkup

theorem RewritesEdges.hasMarkup {es es' : List Edge} :
    RewritesEdges bs es es' → edgesHaveMarkup es' = true → edgesHaveMarkup es = true
  | .nil, h => h
  | .cons hn hes, h => by
    simp only [edgesHaveMarkup, Bool.or_eq_true] at h ⊢
    exact h.imp hn.hasMarkup hes.hasMarkup

end

theorem Rewrites.isRenderName {n n' : Node} (hr : Rewrites bs n n') (h : n'.isRenderName = true) :
    n.isRenderName = true := by
  cases hr
  case keep l es es' _ => cases l <;> exact h
  case bind            => simp [Node.isRenderName] at h
  case closure         => simp [Hoisted.call, Node.callAt, Node.isRenderName] at h

theorem RewritesEdges.any_at {l : Label} {es es' : List Edge} {f : Field} {P : Node → Bool}
    (h : RewritesEdges bs es es') (hP : ∀ {n n'}, Rewrites bs n n' → P n' = true → P n = true)
    (hany : ((Node.mk l es').at f).any P = true) : ((Node.mk l es).at f).any P = true := by
  have ⟨n', hn', hP'⟩ := List.any_eq_true.mp hany
  have ⟨n, hn, hr⟩ := h.exists_of_mem_at hn'
  exact List.any_eq_true.mpr ⟨n, hn, hP hr hP'⟩

-- What is a render function after its parts were rewritten was one before.
theorem RewritesEdges.renderKind? {l : Label} {es es' : List Edge} (h : RewritesEdges bs es es')
    (hk : (Node.mk l es').renderKind?.isSome) : (Node.mk l es).renderKind?.isSome := by
  have hmarkup : (Node.mk l es').hasMarkup = true → (Node.mk l es).hasMarkup = true :=
    (Rewrites.keep h).hasMarkup
  have hbody := h.any_at (l := l) (f := .body) Rewrites.hasMarkup
  have hname := h.any_at (l := l) (f := .key) Rewrites.isRenderName
  have hkind : (Node.mk l es').kind? = (Node.mk l es).kind? := rfl
  unfold Node.renderKind? at hk ⊢
  rw [hkind] at hk
  split <;> simp_all

end

-- A render function without a body has none after its parts were rewritten.
theorem RewritesEdges.settled_of_not_isRenderWithBody {bs : List Binding} {l : Label} {es es' : List Edge}
    (h : RewritesEdges bs es es') (hr : (Node.mk l es).isRenderWithBody = false)
    (hes : SettledEdges es') : (Node.mk l es').Settled := by
  refine Node.settled_mk.mpr ⟨fun hk body hbody => ?_, hes⟩
  have ⟨n, hn, _⟩ := h.exists_of_mem_at hbody
  simp only [Node.isRenderWithBody, h.renderKind? hk, Bool.true_and, Bool.not_eq_false',
    List.isEmpty_iff] at hr
  simp [hr] at hn

-- A visit leaves no site in the body of a render function. Bodies have none because every closure is
-- replaced by a call, other parts because they are visited.
mutual

theorem Node.visit_settled (dedupe : Bool) :
    ∀ (n : Node) (names : Names), (n.visit dedupe names).result.Settled
  | .mk l es, names => by
    cases hr : (Node.mk l es).isRenderWithBody
    case false =>
      rw [Node.visit_of_not_isRenderWithBody hr]
      have hes := visitEdges_rewrites dedupe es names (List.Subset.refl _)
      exact hes.settled_of_not_isRenderWithBody hr (visitEdges_settled dedupe es names)
    case true =>
      rw [Node.visit_of_isRenderWithBody hr]
      have ⟨hes, hbodies⟩ := visitBound_settled dedupe l
        ((Node.mk l es).binding dedupe names).binder es
        (((Node.mk l es).binding dedupe names).hoisted.map
          (·.call ((Node.mk l es).binding dedupe names).binder))
        ((Node.mk l es).namesOfBinding dedupe names)
        (by rw [List.length_map, Node.length_hoisted_binding])
        (by simpa using fun h _ => h.siteless_call _)
      exact Node.settled_mk.mpr ⟨fun _ => hbodies, hes⟩

theorem visitEdges_settled (dedupe : Bool) :
    ∀ (es : List Edge) (names : Names), SettledEdges (visitEdges dedupe es names).result
  | [], _ => settledEdges_nil
  | (_, n) :: es, names =>
    settledEdges_cons.mpr ⟨Node.visit_settled dedupe n names, visitEdges_settled dedupe es _⟩

theorem visitBound_settled (dedupe : Bool) (l : Label) (binder : String) :
    ∀ (es : List Edge) (rs : List Node) (names : Names),
      rs.length = (((Node.mk l es).at .body).flatMap Node.closures).length →
      (∀ r ∈ rs, r.Siteless) →
      SettledEdges (visitBound dedupe binder es rs names).result ∧
      ∀ body ∈ (Node.mk l (visitBound dedupe binder es rs names).result).at .body, body.Siteless
  | [], _, _, _, _ => ⟨settledEdges_nil, by simp [Node.mem_at, Node.edges, visitBound]⟩
  | (f, n) :: es, rs, names, hlen, hrs => by
    simp only [visitBound]
    split
    case isTrue hf =>
      simp only [Node.at_cons, hf, if_true, List.flatMap_cons, List.length_append] at hlen ⊢
      have hbody : (n.rebound binder (rs.take n.closures.length)).Siteless :=
        Node.siteless_rebound binder n _ (by simp [hlen]) fun r hr => hrs r (List.mem_of_mem_take hr)
      have ⟨hes, hbodies⟩ := visitBound_settled dedupe l binder es
        (rs.drop n.closures.length)
        (names.reserve "bindRenderFunc" (n.rebound binder (rs.take n.closures.length)).renderCount)
        (by simp [hlen]) fun r hr => hrs r (List.mem_of_mem_drop hr)
      exact ⟨settledEdges_cons.mpr ⟨hbody.settled, hes⟩, List.forall_mem_cons.mpr ⟨hbody, hbodies⟩⟩
    case isFalse hf =>
      simp only [Node.at_cons, hf, if_false] at hlen ⊢
      have ⟨hes, hbodies⟩ := visitBound_settled dedupe l binder es rs
        (n.visit dedupe names).names hlen hrs
      exact ⟨settledEdges_cons.mpr ⟨Node.visit_settled dedupe n names, hes⟩, hbodies⟩

end

-- Nothing happens to a tree in which every render function is without sites.
mutual

theorem Node.visit_of_settled (dedupe : Bool) :
    ∀ (n : Node) (names : Names), n.Settled →
      (n.visit dedupe names).result = n ∧ (n.visit dedupe names).bindings = []
  | .mk l es, names, h => by
    have ⟨hbodies, hes⟩ := Node.settled_mk.mp h
    cases hr : (Node.mk l es).isRenderWithBody
    case false =>
      rw [Node.visit_of_not_isRenderWithBody hr]
      have ⟨hresult, hbindings⟩ := visitEdges_of_settled dedupe es names hes
      simp [hresult, hbindings]
    case true =>
      have hk : (Node.mk l es).renderKind?.isSome := by
        simp only [Node.isRenderWithBody, Bool.and_eq_true] at hr
        exact hr.1
      have hu := (Node.isUsed_binding_eq_false_iff dedupe _ names).mpr (hbodies hk)
      have ⟨hresult, hbindings⟩ := visitBound_of_settled dedupe l
        ((Node.mk l es).binding dedupe names).binder es
        (((Node.mk l es).binding dedupe names).hoisted.map
          (·.call ((Node.mk l es).binding dedupe names).binder))
        ((Node.mk l es).namesOfBinding dedupe names) hes (hbodies hk)
      rw [Node.visit_of_isRenderWithBody hr]
      simp [hu, hresult, hbindings]

theorem visitEdges_of_settled (dedupe : Bool) :
    ∀ (es : List Edge) (names : Names), SettledEdges es →
      (visitEdges dedupe es names).result = es ∧ (visitEdges dedupe es names).bindings = []
  | [], _, _ => ⟨rfl, rfl⟩
  | (_, n) :: es, names, h => by
    have ⟨hn, hes⟩ := settledEdges_cons.mp h
    have ⟨hresult, hbindings⟩ := Node.visit_of_settled dedupe n names hn
    have ⟨hresults, hrest⟩ := visitEdges_of_settled dedupe es (n.visit dedupe names).names hes
    simp [visitEdges, hresult, hbindings, hresults, hrest]

theorem visitBound_of_settled (dedupe : Bool) (l : Label) (binder : String) :
    ∀ (es : List Edge) (rs : List Node) (names : Names), SettledEdges es →
      (∀ body ∈ (Node.mk l es).at .body, body.Siteless) →
      (visitBound dedupe binder es rs names).result = es ∧
      (visitBound dedupe binder es rs names).bindings = []
  | [], _, _, _, _ => ⟨rfl, rfl⟩
  | (f, n) :: es, rs, names, hes, hbodies => by
    have ⟨hn, hes⟩ := settledEdges_cons.mp hes
    simp only [visitBound]
    split
    case isTrue hf =>
      simp only [Node.at_cons, hf, if_true, List.forall_mem_cons] at hbodies
      rw [Node.rebound_of_siteless binder _ n hbodies.1]
      have ⟨hresults, hrest⟩ := visitBound_of_settled dedupe l binder es
        (rs.drop n.closures.length) (names.reserve "bindRenderFunc" n.renderCount) hes hbodies.2
      simp [hresults, hrest]
    case isFalse hf =>
      simp only [Node.at_cons, hf, if_false] at hbodies
      have ⟨hresult, hbindings⟩ := Node.visit_of_settled dedupe n names hn
      have ⟨hresults, hrest⟩ := visitBound_of_settled dedupe l binder es rs
        (n.visit dedupe names).names hes hbodies
      simp [hresult, hbindings, hresults, hrest]

end

-- In a tree without sites, a visit only counts the render functions and reserves their names.
mutual

theorem Node.visit_of_siteless (dedupe : Bool) :
    ∀ (n : Node) (names : Names), n.Siteless →
      (n.visit dedupe names).detected = n.renderCount ∧
      (n.visit dedupe names).names = names.reserve "bindRenderFunc" n.renderCount
  | .mk l es, names, h => by
    have ⟨_, hes⟩ := Node.siteless_mk.mp h
    cases hr : (Node.mk l es).isRenderWithBody
    case false =>
      have ⟨hdetected, hnames⟩ := visitEdges_of_siteless dedupe es names hes
      rw [Node.visit_of_not_isRenderWithBody hr]
      simp [Node.renderCount, Node.count, hr, hdetected, hnames]
    case true =>
      have hbodies (body : Node) (hbody : body ∈ (Node.mk l es).at .body) : body.Siteless :=
        h.of_mem_subtrees (Node.mem_subtrees_of_mem_at hbody)
      have hclosures : ((Node.mk l es).at .body).flatMap Node.closures = [] :=
        List.flatMap_eq_nil_iff.mpr fun body hbody => (body.siteless_iff.mp (hbodies body hbody)).1
      have hbinding : (Node.mk l es).namesOfBinding dedupe names = (names.generate "bindRenderFunc").2 := by
        rw [Node.namesOfBinding, hclosures]
        rfl
      have ⟨hdetected, hnames⟩ := visitBound_of_siteless dedupe
        ((Node.mk l es).binding dedupe names).binder es
        (((Node.mk l es).binding dedupe names).hoisted.map
          (·.call ((Node.mk l es).binding dedupe names).binder))
        (names.generate "bindRenderFunc").2 hes
      rw [Node.visit_of_isRenderWithBody hr]
      simp only [hbinding, hdetected, hnames, Node.renderCount, Node.count, hr, if_true, Nat.add_comm 1]
      exact ⟨trivial, rfl⟩

theorem visitEdges_of_siteless (dedupe : Bool) :
    ∀ (es : List Edge) (names : Names), SitelessEdges es →
      (visitEdges dedupe es names).detected = countEdges Node.isRenderWithBody es ∧
      (visitEdges dedupe es names).names =
        names.reserve "bindRenderFunc" (countEdges Node.isRenderWithBody es)
  | [], _, _ => ⟨rfl, rfl⟩
  | (_, n) :: es, names, h => by
    have ⟨hn, hes⟩ := sitelessEdges_cons.mp h
    have ⟨hdetected, hnames⟩ := Node.visit_of_siteless dedupe n names hn
    have ⟨hrest, hlast⟩ := visitEdges_of_siteless dedupe es (n.visit dedupe names).names hes
    rw [hnames] at hrest hlast
    simp only [visitEdges, countEdges, hdetected, hnames, hrest, hlast, Names.reserve_add]
    exact ⟨rfl, rfl⟩

theorem visitBound_of_siteless (dedupe : Bool) (binder : String) :
    ∀ (es : List Edge) (rs : List Node) (names : Names), SitelessEdges es →
      (visitBound dedupe binder es rs names).detected = countEdges Node.isRenderWithBody es ∧
      (visitBound dedupe binder es rs names).names =
        names.reserve "bindRenderFunc" (countEdges Node.isRenderWithBody es)
  | [], _, _, _ => ⟨rfl, rfl⟩
  | (f, n) :: es, rs, names, h => by
    have ⟨hn, hes⟩ := sitelessEdges_cons.mp h
    simp only [visitBound]
    split
    case isTrue =>
      rw [Node.rebound_of_siteless binder _ n hn]
      have ⟨hrest, hlast⟩ := visitBound_of_siteless dedupe binder es
        (rs.drop n.closures.length) (names.reserve "bindRenderFunc" n.renderCount) hes
      simp only [countEdges, hrest, hlast, Names.reserve_add]
      exact ⟨rfl, rfl⟩
    case isFalse =>
      have ⟨hdetected, hnames⟩ := Node.visit_of_siteless dedupe n names hn
      have ⟨hrest, hlast⟩ := visitBound_of_siteless dedupe binder es rs
        (n.visit dedupe names).names hes
      rw [hnames] at hrest hlast
      simp only [countEdges, hdetected, hnames, hrest, hlast, Names.reserve_add]
      exact ⟨rfl, rfl⟩

end

-- The body of a render function is not visited again once it is led through a binder. To visit it
-- would come to the same.
theorem visitBound_body {dedupe : Bool} {binder : String} {n : Node} {es : List Edge} {rs : List Node}
    {names : Names} (hlen : n.closures.length ≤ rs.length) (hrs : ∀ r ∈ rs, r.Siteless) :
    visitBound dedupe binder ((.body, n) :: es) rs names =
      let first := (n.rebound binder (rs.take n.closures.length)).visit dedupe names
      let rest := visitBound dedupe binder es (rs.drop n.closures.length) first.names
      { result   := (.body, first.result) :: rest.result
        bindings := first.bindings ++ rest.bindings
        detected := first.detected + rest.detected
        names    := rest.names } := by
  have hbody : (n.rebound binder (rs.take n.closures.length)).Siteless :=
    Node.siteless_rebound binder n _ (by simp [hlen]) fun r hr => hrs r (List.mem_of_mem_take hr)
  have ⟨hresult, hbindings⟩ := Node.visit_of_settled dedupe _ names hbody.settled
  have ⟨hdetected, hnames⟩ := Node.visit_of_siteless dedupe _ names hbody
  simp [visitBound, hresult, hbindings, hdetected, hnames]

theorem expand_of_settled {dedupe : Bool} {emit : Node → Emitted} {item : Node} {names : Names}
    (h : item.Settled) : (expand dedupe emit item names).items = [emit item] := by
  have ⟨hresult, hbindings⟩ := item.visit_of_settled dedupe names h
  have hpending : item.pending dedupe names = [] := by simp [Node.pending, hbindings, Pending.ofBindings]
  simp [expand_eq, hresult, hpending, expandPending]

theorem expandItems_of_settled {dedupe : Bool} {items : List Node} (names : Names)
    (h : ∀ item ∈ items, item.Settled) :
    (expandItems dedupe items names).items = items.map .own := by
  induction items generalizing names
  case nil => rfl
  case cons item items hi =>
    have ⟨hitem, hitems⟩ := List.forall_mem_cons.mp h
    simp [expandItems, expand_of_settled hitem, hi _ hitems]

theorem settled_binderDeclaration {binder memoize : String} {cacheSize : UInt64} :
    (binderDeclaration binder memoize cacheSize).Settled :=
  Node.settled_of_not_hasMarkup rfl

theorem settled_memoizeImport {kind : ProgramKind} {c : Config} {memoize : String} :
    (memoizeImport kind c memoize).Settled := by
  unfold memoizeImport
  split
  case h_1 => exact Node.settled_of_not_hasMarkup rfl
  case h_2 => exact Node.settled_of_not_hasMarkup rfl

theorem Emitted.ArisesFrom.settled {dedupe : Bool} {root : Node} {bs : List Binding} {x : Emitted}
    {memoize : String} {cacheSize : UInt64} (h : x.ArisesFrom dedupe root bs) :
    (x.node memoize cacheSize).Settled := by
  cases h
  case binder  => exact settled_binderDeclaration
  case closure => exact Node.visit_settled _ _ _
  case own     => exact Node.visit_settled _ _ _

namespace Program

variable {p : Program} {c : Config}

theorem settled_of_mem_memoize_body {item : Node} (h : item ∈ (p.memoize c).program.body) :
    item.Settled := by
  cases mem_memoize_body h
  case inl h => exact h ▸ settled_memoizeImport
  case inr h =>
    have ⟨x, hx, hitem⟩ := h
    have ⟨_, _, hx⟩ := arisesFrom_of_mem_expansion hx
    exact hitem ▸ hx.settled

-- A run does nothing to a program whose items are all settled.
theorem items_expansion_of_settled (dedupe : Bool) (h : ∀ item ∈ p.body, item.Settled) :
    (p.expansion dedupe).2.items = p.body.map .own :=
  expandItems_of_settled _ h

theorem bindings_expansion_of_settled (dedupe : Bool) (h : ∀ item ∈ p.body, item.Settled) :
    (p.expansion dedupe).2.bindings = [] := by
  simp [Expansion.bindings, items_expansion_of_settled dedupe h, Emitted.binding?]

theorem memoize_program_of_settled (h : ∀ item ∈ p.body, item.Settled) :
    (p.memoize c).program = p := by
  have hbindings := bindings_expansion_of_settled c.dedupeCaptures h
  simp [memoize, Expansion.report, hbindings, items_expansion_of_settled _ h, Emitted.node, Function.comp_def]

-- What a run leaves behind is settled: no listed function has a site in its body, and another run, with
-- any configuration, finds nothing to do.
theorem memoize_settles (p : Program) (c₁ c₂ : Config) :
    let q := (p.memoize c₁).program
    let again := q.memoize c₂
    q.renderFunctions.map some = q.renderNodes.map (fun (n, i) => n.asRenderFunction? i) ∧
    (∀ n i, (n, i) ∈ q.renderNodes → ∀ body ∈ n.at .body, ∀ m ∈ body.subtrees,
      m.label.isClosure = false ∧ m.isBindCall = false) ∧
    again.program = q ∧ again.report.isUnchanged ∧ again.report.rewrittenFunctions = 0 ∧
    again.report.bindSites = 0 ∧ again.report.hoistedClosures = 0 := by
  intro q again
  have hq : ∀ item ∈ q.body, item.Settled := fun _ => settled_of_mem_memoize_body
  have hbindings := bindings_expansion_of_settled c₂.dedupeCaptures hq
  refine ⟨map_renderFunctions_eq q, ?_, memoize_program_of_settled hq, ?_⟩
  · intro n i hn body hbody m hm
    have ⟨hk, item, hitem, hn⟩ := mem_renderNodes hn
    exact Node.isSite_eq_false_iff.mp <| hq item hitem n hn hk body hbody m hm
  · simp [again, memoize, Expansion.report, Report.isUnchanged, hbindings]

end Program

end RenderMemo
