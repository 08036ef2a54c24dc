import RenderMemo.Proofs.Layout
import RenderMemo.SourceFile

open List

namespace RenderMemo

-- To count the nodes of a tree is to go through them in the order of the visit.
mutual

theorem Node.count_eq_countP (P : Node → Bool) : ∀ n : Node, n.count P = n.subtrees.countP P
  | .mk l es => by
    rw [Node.count, Node.subtrees, countP_cons, countEdges_eq_countP P es, Nat.add_comm]

theorem countEdges_eq_countP (P : Node → Bool) :
    ∀ es : List Edge, countEdges P es = (subtreesOfEdges es).countP P
  | [] => rfl
  | (_, n) :: es => by
    rw [countEdges, subtreesOfEdges, countP_append, Node.count_eq_countP P n, countEdges_eq_countP P es]

end

-- A visit of a settled tree detects the render functions that the tree has.
mutual

theorem Node.visit_detected_of_settled (dedupe : Bool) : ∀ (n : Node) (names : Names), n.Settled →
    (n.visit dedupe names).detected = n.renderCount
  | .mk l es, names, h => by
    have ⟨hbodies, hes⟩ := Node.settled_mk.mp h
    cases hr : (Node.mk l es).isRenderWithBody
    case false =>
      have hdetected := visitEdges_detected_of_settled dedupe es names hes
      rw [Node.visit_of_not_isRenderWithBody hr]
      simp [Node.renderCount, Node.count, hr, hdetected]
    case true =>
      have hk : (Node.mk l es).renderKind?.isSome := by
        rw [Node.isRenderWithBody, Bool.and_eq_true] at hr
        exact hr.1
      have hdetected := visitBound_detected_of_settled dedupe l
        ((Node.mk l es).binding dedupe names).binder es
        (((Node.mk l es).binding dedupe names).hoisted.map
          (·.call ((Node.mk l es).binding dedupe names).binder))
        ((Node.mk l es).namesOfBinding dedupe names) hes (hbodies hk)
      rw [Node.visit_of_isRenderWithBody hr]
      simp [Node.renderCount, Node.count, hr, hdetected, Nat.add_comm]

theorem visitEdges_detected_of_settled (dedupe : Bool) : ∀ (es : List Edge) (names : Names),
    SettledEdges es →
      (visitEdges dedupe es names).detected = countEdges Node.isRenderWithBody es
  | [], _, _ => rfl
  | (_, n) :: es, names, h => by
    have ⟨hn, hes⟩ := settledEdges_cons.mp h
    rw [visitEdges, countEdges, Node.visit_detected_of_settled dedupe n names hn,
      visitEdges_detected_of_settled dedupe es _ hes]
    rfl

theorem visitBound_detected_of_settled (dedupe : Bool) (l : Label) (binder : String) :
    ∀ (es : List Edge) (rs : List Node) (names : Names), SettledEdges es →
      (∀ body ∈ (Node.mk l es).at .body, body.Siteless) →
      (visitBound dedupe binder es rs names).detected = countEdges Node.isRenderWithBody es
  | [], _, _, _, _ => rfl
  | (f, n) :: es, rs, names, hes, hbodies => by
    have ⟨hn, hes⟩ := settledEdges_cons.mp hes
    rw [visitBound, countEdges]
    by_cases hf : f = .body
    case pos =>
      rw [Node.at_cons, if_pos hf, forall_mem_cons] at hbodies
      have ⟨hbody, hbodies⟩ := hbodies
      rw [if_pos hf]
      simp only [Node.rebound_of_siteless binder _ n hbody,
        visitBound_detected_of_settled dedupe l binder es _ _ hes hbodies]
      rfl
    case neg =>
      rw [Node.at_cons, if_neg hf] at hbodies
      rw [if_neg hf]
      simp only [Node.visit_detected_of_settled dedupe n names hn,
        visitBound_detected_of_settled dedupe l binder es _ _ hes hbodies]
      rfl

end

theorem expandItems_detected_of_settled {dedupe : Bool} {items : List Node} (names : Names)
    (h : ∀ item ∈ items, item.Settled) :
    (expandItems dedupe items names).detected =
      ((items.flatMap Node.subtrees).filter Node.isRenderWithBody).length := by
  induction items generalizing names
  case nil => rfl
  case cons item items hi =>
    have ⟨hitem, hitems⟩ := forall_mem_cons.mp h
    have hpending : item.pending dedupe names = [] := by
      simp [Node.pending, (item.visit_of_settled dedupe names hitem).2, Pending.ofBindings]
    have hfirst : (expand dedupe .own item names).detected = item.renderCount := by
      simp [expand_eq, hpending, expandPending, item.visit_detected_of_settled dedupe names hitem]
    rw [expandItems, flatMap_cons, filter_append, length_append, ← countP_eq_length_filter,
      ← Node.count_eq_countP]
    simp only [hfirst, hi _ hitems]
    rfl

-- An item in front of which nothing is put has nothing to rewrite.
theorem Expands.settled {dedupe : Bool} {item : Node} {xs : List Emitted} (h : Expands dedupe .own item xs)
    (hxs : Emitted.bindings xs = []) : item.Settled := by
  cases h with
  | item hbs hbindings _ _ =>
    rw [Emitted.bindings_append_last fun _ => rfl] at hxs
    have hnone := eq_nil_of_subset_nil (hxs ▸ hbindings.subset_bindings)
    rw [hnone, forall₂_nil_left_iff] at hbs
    exact item.owners_eq_nil_iff.mp hbs

theorem settled_of_expands {dedupe : Bool} {items : List Node} {groups : List (List Emitted)}
    (h : Forall₂ (Expands dedupe .own) items groups) (hbs : Emitted.bindings groups.flatten = []) :
    ∀ item ∈ items, item.Settled := by
  induction h
  case nil => simp
  case cons item xs items groups hitem _ hi =>
    rw [flatten_cons, Emitted.bindings_append, append_eq_nil_iff] at hbs
    exact forall_mem_cons.mpr ⟨hitem.settled hbs.1, hi hbs.2⟩

namespace Program

variable {p : Program} {c : Config} {n : Node}

-- No function that is listed has a site in its body.
def Inert (p : Program) : Prop :=
  ∀ n i, (n, i) ∈ p.renderNodes → ∀ body ∈ n.at .body, ∀ m ∈ body.subtrees,
    m.label.isClosure = false ∧ m.isBindCall = false

theorem exists_mem_renderNodes {item : Node} (hitem : item ∈ p.body) (hn : n ∈ item.subtrees)
    (hk : n.renderKind?.isSome) : ∃ i, (n, i) ∈ p.renderNodes := by
  have ⟨i, hi, heq⟩ := mem_iff_getElem.mp hitem
  refine ⟨i, mem_flatMap.mpr ⟨(item, i), ?_, ?_⟩⟩
  · exact mem_zipIdx_iff_getElem?.mpr <| List.getElem?_eq_some_iff.mpr ⟨hi, heq⟩
  · exact mem_map_of_mem <| mem_filter.mpr ⟨hn, hk⟩

theorem inert_iff : p.Inert ↔ ∀ item ∈ p.body, item.Settled := by
  constructor
  case mp =>
    intro h item hitem n hn hk body hbody m hm
    have ⟨i, hi⟩ := exists_mem_renderNodes hitem hn hk
    exact Node.isSite_eq_false_iff.mpr <| h n i hi body hbody m hm
  case mpr =>
    intro h n i hn body hbody m hm
    have ⟨hk, item, hitem, hsub⟩ := mem_renderNodes hn
    exact Node.isSite_eq_false_iff.mp <| h item hitem n hsub hk body hbody m hm

-- A run makes no binding exactly if there is nothing to rewrite.
theorem bindings_eq_nil_iff (dedupe : Bool) : p.bindings dedupe = [] ↔ p.Inert := by
  rw [inert_iff]
  constructor
  case mp =>
    intro h
    have ⟨groups, hgroups, hitems⟩ := p.exists_groups dedupe
    exact settled_of_expands hgroups <| hitems ▸ h
  case mpr => exact bindings_expansion_of_settled dedupe

-- The functions that are listed and have a body.
def renderNodesWithBody (p : Program) : List (Node × Nat) :=
  p.renderNodes.filter fun listed => !(listed.1.at .body).isEmpty

theorem map_fst_renderNodesWithBody :
    p.renderNodesWithBody.map Prod.fst = (p.body.flatMap Node.subtrees).filter Node.isRenderWithBody := by
  have hrender (item : Node) :
      ((item.subtrees.filter (·.renderKind?.isSome)).filter fun n => !(n.at .body).isEmpty) =
        item.subtrees.filter Node.isRenderWithBody := by
    rw [filter_filter]
    exact filter_congr fun n _ => Bool.and_comm ..
  have hitems : p.renderNodes.map Prod.fst =
      p.body.flatMap fun item => item.subtrees.filter (·.renderKind?.isSome) := by
    have hfst := p.body.zipIdx.flatMap_map Prod.fst fun item => item.subtrees.filter (·.renderKind?.isSome)
    rw [zipIdx_map_fst] at hfst
    simp [hfst, renderNodes, map_flatMap, Function.comp_def]
  have hfilter := filter_map (f := Prod.fst) (p := fun n : Node => !(n.at .body).isEmpty) (l := p.renderNodes)
  rw [hitems, filter_flatMap, funext hrender, ← filter_flatMap] at hfilter
  exact hfilter.symm

theorem renderFunctions_of_inert (h : p.Inert) :
    (p.memoize c).report.renderFunctions = p.renderNodesWithBody.length := by
  rw [← length_map (f := Prod.fst), map_fst_renderNodesWithBody]
  exact expandItems_detected_of_settled _ (inert_iff.mp h)

theorem pos_of_not_inert (h : ¬p.Inert) :
    0 < (p.memoize c).report.rewrittenFunctions ∧
      0 < (p.memoize c).report.bindSites + (p.memoize c).report.hoistedClosures := by
  rw [← bindings_eq_nil_iff c.dedupeCaptures] at h
  have ⟨b, bs, hbs⟩ := ne_nil_iff_exists_cons.mp h
  have hused := used_of_mem_bindings (p := p) (hbs ▸ mem_cons_self)
  have hreport : (p.memoize c).report.bindSites + (p.memoize c).report.hoistedClosures =
      (p.bindings c.dedupeCaptures).foldr (·.bindSites + ·) 0 +
        (p.bindings c.dedupeCaptures).foldr (·.hoisted.length + ·) 0 :=
    rfl
  refine ⟨length_pos_of_mem (hbs ▸ mem_cons_self : b ∈ p.bindings c.dedupeCaptures), ?_⟩
  rw [hreport, hbs, foldr_cons, foldr_cons]
  omega

-- A run leaves a program as it is exactly if no function that is listed has a site in its body. A text
-- is kept to the letter then.
theorem isUnchanged_iff_inert (p : Program) (c : Config) :
    p.renderFunctions.map some = p.renderNodes.map (fun (n, i) => n.asRenderFunction? i) ∧
    ((p.memoize c).report.isUnchanged ↔ p.Inert) ∧
    (p.Inert → (p.memoize c).program = p ∧
      (p.memoize c).report.renderFunctions = p.renderNodesWithBody.length) ∧
    (¬p.Inert → (p.memoize c).program ≠ p ∧ 0 < (p.memoize c).report.rewrittenFunctions ∧
      0 < (p.memoize c).report.bindSites + (p.memoize c).report.hoistedClosures ∧
      (p.memoize c).report.importInserted) ∧
    (∀ (t : Toolchain) filename source, t.parse filename source = .ok p → p.Inert →
      (t.transform filename source c).map Transformed.code = .ok source) := by
  have hunchanged : (p.memoize c).report.isUnchanged ↔ p.Inert := by
    rw [← bindings_eq_nil_iff c.dedupeCaptures, ← List.isEmpty_iff, Report.isUnchanged]
    exact Bool.eq_iff_iff.mp <| Bool.not_not _
  refine ⟨map_renderFunctions_eq p, hunchanged, fun h => ?_, fun h => ?_, fun t filename source hp h => ?_⟩
  · exact ⟨memoize_program_of_settled (inert_iff.mp h), renderFunctions_of_inert h⟩
  · obtain ⟨hrewritten, hsites⟩ := pos_of_not_inert (c := c) h
    refine ⟨fun heq => ?_, hrewritten, hsites, ?_⟩
    · have hlength := length_memoize_body (p := p) (c := c)
      rw [heq] at hlength
      omega
    · rw [importInserted_eq, decide_eq_true hrewritten]
  · simp [Toolchain.transform, Toolchain.read, hp, hunchanged.mpr h]
    rfl

end Program

end RenderMemo
