import RenderMemo.Proofs.Declarations
import RenderMemo.Proofs.Hygiene
import RenderMemo.Proofs.Scopes

namespace RenderMemo

-- A function declaration as an arrow function: its parameters are patterns.
def Node.asClosure (d : Node) : Node :=
  .form .arrowFunctionExpression [] (d.edges.map Hoisted.undeclaredEdge)

namespace Node

-- To return a body from a block changes nothing about the variables in it.

@[simp]
theorem occurrences_bodyBlock (n : Node) : (Hoisted.bodyBlock n).occurrences = n.occurrences := by
  have hblock : Kind.blockStatement.holdsNoReference = false := rfl
  have hreturn : Kind.returnStatement.holdsNoReference = false := rfl
  unfold Hoisted.bodyBlock
  split
  case isTrue  => rfl
  case isFalse =>
    simp [returnBlock, form, occurrences, occurrencesOfEdges, Label.kind?, Label.ident?,
      Kind.holdsLabelOrTag, hblock, hreturn]

@[simp]
theorem declared_bodyBlock (n : Node) : (Hoisted.bodyBlock n).declared = n.declared := by
  unfold Hoisted.bodyBlock
  split
  case isTrue  => rfl
  case isFalse => simp [returnBlock, form, declared, declaredByEdges, Label.kind?, Kind.declares]

@[simp]
theorem inner_bodyBlock (n : Node) : (Hoisted.bodyBlock n).inner = n.inner := by
  unfold Hoisted.bodyBlock
  split
  case isTrue  => rfl
  case isFalse => simp [returnBlock, form, inner, closures, closuresOfEdges, Label.isClosure]

theorem mem_subtrees_bodyBlock {n m : Node} (hm : m ∈ (Hoisted.bodyBlock n).subtrees) :
    m ∈ n.subtrees ∨ m.label.isClosure = false ∧ m.label.ident? = none ∧ ∃ e, m.edges = [e] := by
  unfold Hoisted.bodyBlock at hm
  split at hm
  case isTrue  => exact .inl hm
  case isFalse =>
    simp only [subtrees_returnBlock, List.mem_cons] at hm
    rcases hm with rfl | rfl | hm
    · exact .inr ⟨rfl, rfl, _, rfl⟩
    · exact .inr ⟨rfl, rfl, _, rfl⟩
    · exact .inl hm

theorem Resolved.bodyBlock {n : Node} (h : n.Resolved) : (Hoisted.bodyBlock n).Resolved := by
  intro m hm
  cases mem_subtrees_bodyBlock hm
  case inl hm => exact h m hm
  case inr hm =>
    have ⟨_, _, e, he⟩ := hm
    simp [he]

theorem Untyped.bodyBlock {n : Node} (h : n.Untyped) : (Hoisted.bodyBlock n).Untyped := by
  intro m hm
  cases mem_subtrees_bodyBlock hm
  case inl hm => exact h m hm
  case inr hm =>
    have ⟨hc, hi, _⟩ := hm
    simp [hc, hi]

end Node

section

variable {e : Edge} {es : List Edge}

@[simp]
theorem Hoisted.occurrences_blockEdge : (blockEdge e).2.occurrences = e.2.occurrences := by
  cases snd_blockEdge (e := e) <;> simp_all

@[simp]
theorem Hoisted.declared_blockEdge : (blockEdge e).2.declared = e.2.declared := by
  cases snd_blockEdge (e := e) <;> simp_all

@[simp]
theorem Hoisted.inner_blockEdge : (blockEdge e).2.inner = e.2.inner := by
  cases snd_blockEdge (e := e) <;> simp_all

theorem Hoisted.keepsTo_blockEdge {e' : Edge} (h : KeepsTo (some .arrowFunctionExpression) e e') :
    KeepsTo (some .arrowFunctionExpression) (blockEdge e) (blockEdge e') := by
  simpa [KeepsTo, occurrencesOfEdges_arrow] using h

theorem ResolvedEdges.blockEdge (h : ResolvedEdges (some .arrowFunctionExpression) es) :
    ResolvedEdges (some .arrowFunctionExpression) (es.map Hoisted.blockEdge) where
  parts := by
    refine List.forall_mem_map.mpr fun e he => ?_
    cases Hoisted.snd_blockEdge (e := e)
    case inl heq => exact heq ▸ h.parts e he
    case inr heq => exact heq ▸ (h.parts e he).bodyBlock
  apart := List.pairwise_map.mpr <|
    h.apart.imp fun h => ⟨Hoisted.keepsTo_blockEdge h.1, Hoisted.keepsTo_blockEdge h.2⟩

theorem UntypedEdges.blockEdge (h : UntypedEdges es) : UntypedEdges (es.map Hoisted.blockEdge) := by
  refine List.forall_mem_map.mpr fun e he => ?_
  cases Hoisted.snd_blockEdge (e := e)
  case inl heq => exact heq ▸ h e he
  case inr heq => exact heq ▸ (h e he).bodyBlock

end

-- The variables that a closure takes along stay in front of its parameters.
theorem RewritesEdges.undeclare_captured {bs : List Binding} {es : List Edge} :
    ∀ {is : List Ident} {es' : List Edge},
      RewritesEdges bs ((is.map fun i => (.params, .parameter (.ofIdent i))) ++ es) es' →
      ∃ rest', RewritesEdges bs es rest' ∧
        es'.map Hoisted.undeclaredEdge =
          is.map (fun i => (.params, .ofIdent i)) ++ rest'.map Hoisted.undeclaredEdge
  | [], es', h => ⟨es', h, rfl⟩
  | i :: is, _, h => by
    have ⟨n', rest', heq, hn, hrest⟩ := h.exists_of_cons
    subst heq
    have ⟨_, hn', hpat⟩ := hn.keep_of_not_isSite rfl
    have ⟨_, _, heq, hident, hnil⟩ := hpat.exists_of_cons
    cases hnil
    have ⟨_, hident, hnil⟩ := hident.keep_of_not_isSite rfl
    cases hnil
    subst hident heq hn'
    have ⟨es', hes', heq⟩ := hrest.undeclare_captured
    exact ⟨es', hes', by rw [List.map_cons, heq]; rfl⟩

theorem RewritesEdges.fst_mem {bs : List Binding} {es es' : List Edge} {P : Field → Prop}
    (h : RewritesEdges bs es es') (hes : ∀ e ∈ es, P e.1) : ∀ e ∈ es', P e.1 := by
  intro e he
  have ⟨n, hn, _⟩ := h.exists_original he
  exact hes (e.1, n) hn

-- A variable that a closure does not capture is one of its parameters, `arguments`, or declared in it.
-- It is so in the closure after a rewriting as well.
theorem Hoisted.not_isFreeIn_of_rewritesEdges {a d : Node} {bs : List Binding} {es : List Edge} {i : Ident}
    (hc : a.label.isClosure = true) (hr : a.Resolved) (hu : a.Untyped)
    (hbs : ∀ b ∈ bs, ∀ h ∈ b.hoisted, h.captured ⊆ h.arrow.captured) (hgen : ∀ b ∈ bs, i.name ∉ b.names)
    (hes : RewritesEdges bs (a.edges.map blockEdge) es) (hd : es ⊆ d.edges)
    (hi : i ∈ es.flatMap (·.2.occurrences)) (hfree : a.isFreeIn i = false) :
    d.isFreeIn i = false := by
  have hparts : ∀ e ∈ a.edges.map blockEdge, e.1 = .params ∨ e.1 = .body := by
    refine List.forall_mem_map.mpr fun e he => ?_
    rw [fst_blockEdge]
    exact (hu _ a.mem_subtrees_self).2 hc e he
  rw [← Bool.not_eq_true, Node.isFreeIn_iff] at hfree ⊢
  intro ⟨hbound, harguments, hdeclared⟩
  refine hfree ⟨fun m hm j hj => ?_, harguments, fun m hm hb => ?_⟩
  · have ⟨m', hm', hrewrites⟩ := hes.exists_rewritten <| List.mem_map_of_mem (f := blockEdge) hm
    exact hbound m' (hd hm') j (hrewrites.bound_eq ▸ hj)
  · have hk : a.kind? = some .arrowFunctionExpression := Label.kind?_of_isClosure hc
    have hb : i.BoundBy (declaredByEdges a.kind? (a.edges.map blockEdge)) := by
      have ⟨f, hm⟩ : ∃ f, (f, m) ∈ a.edges :=
        (Node.mem_functionParts.mp hm).elim (fun hm => ⟨_, hm⟩) fun hm => ⟨_, hm⟩
      refine hb.mono fun j hj => mem_declaredByEdges.mpr ?_
      exact ⟨blockEdge (f, m), List.mem_map_of_mem hm, .inr <| by simpa using hj⟩
    have hb := hes.boundBy_of_occurs hbs hgen (hk ▸ hr.edges).blockEdge hu.edges.blockEdge
      (occurrencesOfEdges_arrow es ▸ hi) (hk ▸ hb)
    have ⟨j, hj, heq⟩ := List.mem_map.mp hb
    have ⟨e, he, hj⟩ := mem_declaredByEdges.mp hj
    cases hj
    case inl hj =>
      have ⟨hf, hj⟩ := hj
      have hf := (Kind.declares_arrowFunctionExpression e.1).mp hf
      exact hbound e.2 (hd <| hf ▸ he) j hj (Ident.binding_eq_iff.mp heq).1
    case inr hj =>
      have hfield := hes.fst_mem (P := fun f => f = .params ∨ f = .body) hparts e he
      have hpart := Node.mem_functionParts_of_mem_edges (hd he) hfield
      exact hdeclared e.2 hpart <| List.mem_map.mpr ⟨j, hj, heq⟩

-- The parts of a declaration, whatever is rewritten in it: its name, the variables that the closure
-- takes along, and the parts of the closure.
theorem Rewrites.edges_asClosure {h : Hoisted} {d : Node} {bs : List Binding}
    (hd : Rewrites bs h.declaration d) :
    ∃ rest, RewritesEdges bs (h.arrow.edges.map Hoisted.blockEdge) rest ∧
      d.asClosure.edges =
        (.identifier, .named h.name) :: (h.captured.map fun i => (.params, .ofIdent i)) ++ rest := by
  have ⟨es, hn, hes⟩ := hd.of_declaration
  have ⟨rest, hrest, heq⟩ := hes.undeclare_captured
  refine ⟨_, hrest.undeclare, ?_⟩
  rw [hn, List.cons_append, ← heq]
  rfl

-- A variable that is free in a declaration stands in a part of the closure, as those that the closure
-- takes along are parameters of the declaration.
theorem Hoisted.mem_occurrences_of_mem_captured {h : Hoisted} {d : Node} {rest : List Edge} {i : Ident}
    (hedges : d.asClosure.edges =
      (.identifier, .named h.name) :: (h.captured.map fun i => (.params, .ofIdent i)) ++ rest)
    (hi : i ∈ d.asClosure.captured) :
    (∀ j ∈ h.captured, j.name ≠ i.name) ∧ i ∈ rest.flatMap (·.2.occurrences) := by
  have ⟨hoccurs, hfree⟩ := Node.mem_captured.mp hi
  have hbound := (Node.isFreeIn_iff.mp hfree).1
  have hcaptured (j : Ident) (hj : j ∈ h.captured) : j.name ≠ i.name := by
    refine hbound (.ofIdent j) ?_ j List.mem_cons_self
    rw [hedges]
    exact List.mem_append_left _ <| List.mem_cons_of_mem _ <| List.mem_map.mpr ⟨j, hj, rfl⟩
  refine ⟨hcaptured, ?_⟩
  obtain ⟨m, hm, hoccurs⟩ := hoccurs
  have ⟨f, hf, hm⟩ : ∃ f, f ≠ .identifier ∧ (f, m) ∈ d.asClosure.edges :=
    (Node.mem_functionParts.mp hm).elim (fun hm => ⟨_, by simp, hm⟩) fun hm => ⟨_, by simp, hm⟩
  simp only [hedges, List.cons_append, List.mem_cons, List.mem_append, List.mem_map, Prod.mk.injEq, hf,
    false_and, false_or] at hm
  cases hm
  case inl hm =>
    obtain ⟨j, hj, _, hm⟩ := hm
    rw [← hm, Node.occurrences_ofIdent, List.mem_singleton] at hoccurs
    exact absurd (congrArg Ident.name hoccurs).symm (hcaptured j hj)
  case inr hm => exact List.mem_flatMap.mpr ⟨_, hm, hoccurs⟩

-- The declaration of a closure, whatever is rewritten in it, takes nothing from its surroundings but
-- names of the bindings that were made.
theorem Hoisted.name_mem_of_mem_captured {h : Hoisted} {dedupe : Bool} {root d : Node} {bs : List Binding}
    {i : Ident} (lifted : h.LiftedFrom dedupe root) (hr : root.Resolved) (hu : root.Untyped)
    (hbs : ∀ b ∈ bs, ∀ h ∈ b.hoisted, h.captured ⊆ h.arrow.captured) (hd : Rewrites bs h.declaration d)
    (hi : i ∈ d.asClosure.captured) : ∃ b ∈ bs, i.name ∈ b.names := by
  obtain ⟨rest, hrest, hedges⟩ := hd.edges_asClosure
  have hfree := (Node.mem_captured.mp hi).2
  have ⟨hcaptured, hi⟩ := mem_occurrences_of_mem_captured hedges hi
  have hr := hr.of_mem_subtrees lifted.mem
  have hu := hu.of_mem_subtrees lifted.mem
  cases hfreeIn : h.arrow.isFreeIn i
  case true =>
    refine (hrest.mem_occurrences hbs (occurrencesOfEdges_arrow _ ▸ hi)).resolve_right fun hoccurs => ?_
    -- what is free in the closure is among the variables that it takes along
    rw [occurrencesOfEdges_arrow, List.flatMap_map] at hoccurs
    obtain ⟨e, he, hoccurs⟩ := List.mem_flatMap.mp hoccurs
    rw [occurrences_blockEdge] at hoccurs
    have hpart := Node.mem_functionParts_of_mem_edges he <|
      (hu _ h.arrow.mem_subtrees_self).2 lifted.isClosure e he
    obtain ⟨j, hj, hbinding⟩ :=
      lifted.exists_mem_captured <| Node.mem_captured.mpr ⟨⟨e.2, hpart, hoccurs⟩, hfreeIn⟩
    exact hcaptured j hj (Ident.binding_eq_iff.mp hbinding).1
  case false =>
    by_contra hgen
    have hgen : ∀ b ∈ bs, i.name ∉ b.names := fun b hb hname => hgen ⟨b, hb, hname⟩
    have hsub : rest ⊆ d.asClosure.edges := hedges ▸ List.subset_append_right ..
    have := not_isFreeIn_of_rewritesEdges lifted.isClosure hr hu hbs hgen hrest hsub hi hfreeIn
    rw [hfree] at this
    exact Bool.noConfusion this

namespace Program

-- The functions of the result that were made of closures: their names were handed out for that.
def IsHoisted (p : Program) (c : Config) (d : Node) : Prop :=
  d ∈ (p.memoize c).program.body ∧ d.kind? = some .functionDeclaration ∧
    ∃ b ∈ p.bindings c.dedupeCaptures, ∃ h ∈ b.hoisted, d.introduced? = some h.name

-- A function that was made of a closure is the visited declaration of a closure.
theorem IsHoisted.exists_closure {p : Program} {c : Config} {d : Node} (hd : p.IsHoisted c d) :
    ∃ item ∈ p.body, ∃ h : Hoisted, ∃ names,
      h.LiftedFrom c.dedupeCaptures item ∧
      (h.declaration.visit c.dedupeCaptures names).bindings ⊆ p.bindings c.dedupeCaptures ∧
      d = (h.declaration.visit c.dedupeCaptures names).result := by
  have ⟨hmem, hk, b, hb, h, hh, hname⟩ := hd
  cases mem_memoize_body hmem
  case inl heq =>
    rw [heq] at hk
    unfold memoizeImport at hk
    split at hk <;> cases hk
  case inr hx =>
    have ⟨x, hx, heq⟩ := hx
    have ⟨item, hitem, harises⟩ := arisesFrom_of_mem_expansion hx
    subst heq
    cases harises
    case binder => cases hk
    case closure h names lifted _ hbs _ => exact ⟨item, hitem, h, names, lifted, hbs, rfl⟩
    case own names hbs _ =>
      -- the program has no item of a name that was handed out
      have hname := (item.visit_rewrites _ names hbs).nonReferences_subset <|
        Node.introduced?_mem_nonReferences hname
      have ⟨i, hi, hname⟩ := List.mem_map.mp <| item.nonReferences_subset hname
      have hgenerated := names_subset_generatedNames hb <| List.mem_cons_of_mem _ <| List.mem_map_of_mem hh
      rw [← hname] at hgenerated
      exact absurd hgenerated <| not_mem_generatedNames <| List.mem_flatMap.mpr ⟨item, hitem, hi⟩

theorem hoisted_closed (p : Program) (c : Config) (hr : ∀ item ∈ p.body, item.Resolved)
    (hu : ∀ item ∈ p.body, item.Untyped) :
    ∀ d, p.IsHoisted c d → ∀ i ∈ d.asClosure.captured,
      ∃ b ∈ p.bindings c.dedupeCaptures, i.name ∈ b.names := by
  intro d hd i hi
  have ⟨item, hitem, h, names, lifted, hbs, heq⟩ := hd.exists_closure
  have hcaptured (b : Binding) (hb : b ∈ (h.declaration.visit c.dedupeCaptures names).bindings)
      (g : Hoisted) (hg : g ∈ b.hoisted) : g.captured ⊆ g.arrow.captured :=
    (Node.lifted_of_mem_visit hg _ _ hb).captured_subset
  have hrewrites := h.declaration.visit_rewrites c.dedupeCaptures names (List.Subset.refl _)
  rw [← heq] at hrewrites
  have ⟨b, hb, hname⟩ :=
    Hoisted.name_mem_of_mem_captured lifted (hr item hitem) (hu item hitem) hcaptured hrewrites hi
  exact ⟨b, hbs hb, hname⟩

-- `function App(x) { return <a>{(e) => <b>{() => x(e)}</b>}</a>; }`
def nestedClosures : Program where
  kind := .script
  body :=
    let x : Node := .ofIdent { name := "x", scope := 2 }
    let e : Node := .ofIdent { name := "e", scope := 3 }
    let element (tag : String) (child : Node) : Node :=
      .form .jsxElement [] [(.opening, .form .jsxOpeningElement [] [(.name, .named tag)]),
        (.children, .form .jsxExpressionContainer [] [(.expression, child)])]
    let handler := Node.arrow [e] <| element "b" <| .arrow [] <| .call x [.entry e]
    [.form .functionDeclaration [] [(.identifier, .named "App"), (.params, .parameter x),
      (.body, .returnBlock <| element "a" handler)]]

-- The inner closure is called through the binder of the outer one, which has become a render function.
theorem hoisted_closed_nestedClosures :
    (∃ d ∈ (nestedClosures.memoize .default).program.body,
      d.introduced? = some "_hoistedFunc" ∧
      d.asClosure.captured.map Ident.name = ["_bindRenderFunc2", "_hoistedFunc2"]) ∧
    ∀ d, nestedClosures.IsHoisted .default d → ∀ i ∈ d.asClosure.captured,
      ∃ b ∈ nestedClosures.bindings Config.default.dedupeCaptures, i.name ∈ b.names :=
  ⟨by decide +kernel, hoisted_closed nestedClosures .default (by decide) (by decide)⟩

end Program

end RenderMemo
