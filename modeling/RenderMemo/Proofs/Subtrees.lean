import RenderMemo.Closure
import RenderMemo.Program

namespace RenderMemo

-- All nodes of a tree in the order of the visit, a node before its parts.
mutual

def Node.subtrees : Node → List Node
  | .mk l es => .mk l es :: subtreesOfEdges es

def subtreesOfEdges : List Edge → List Node
  | [] => []
  | (_, n) :: es => n.subtrees ++ subtreesOfEdges es

end

-- What holds of a node if it holds of the parts of the node holds of every tree.
mutual

@[elab_as_elim]
theorem Node.partsInduction {motive : Node → Prop}
    (step : ∀ l es, (∀ e ∈ es, motive e.2) → motive (.mk l es)) : ∀ n, motive n
  | .mk l es => step l es (partsInductionOfEdges step es)

theorem partsInductionOfEdges {motive : Node → Prop}
    (step : ∀ l es, (∀ e ∈ es, motive e.2) → motive (.mk l es)) :
    ∀ es : List Edge, ∀ e ∈ es, motive e.2
  | [] => by simp
  | (_, n) :: es =>
    List.forall_mem_cons.mpr ⟨Node.partsInduction step n, partsInductionOfEdges step es⟩

end

@[simp]
theorem mem_subtreesOfEdges {m : Node} {es : List Edge} :
    m ∈ subtreesOfEdges es ↔ ∃ e ∈ es, m ∈ e.2.subtrees := by
  induction es with
  | nil => simp [subtreesOfEdges]
  | cons e es ih => simp [subtreesOfEdges, ih]

namespace Node

@[simp]
theorem mem_subtrees_self (n : Node) : n ∈ n.subtrees := by
  cases n; simp [subtrees]

theorem mem_subtrees_mk {m : Node} {l : Label} {es : List Edge} :
    m ∈ (mk l es).subtrees ↔ m = mk l es ∨ ∃ e ∈ es, m ∈ e.2.subtrees := by
  simp [subtrees]

theorem mem_at {n m : Node} {f : Field} : m ∈ n.at f ↔ (f, m) ∈ n.edges := by
  simp only [«at», List.mem_filterMap, Option.ite_none_right_eq_some, Option.some.injEq]
  constructor
  case mp =>
    rintro ⟨e, he, rfl, rfl⟩
    exact he
  case mpr => exact fun h => ⟨_, h, rfl, rfl⟩

theorem at_cons {l : Label} {f g : Field} {m : Node} {es : List Edge} :
    (mk l ((g, m) :: es)).at f = if g = f then m :: (mk l es).at f else (mk l es).at f := by
  simp only [«at», edges, List.filterMap_cons]
  split <;> simp_all

theorem mem_subtrees_of_mem_at {n m : Node} {f : Field} (h : m ∈ n.at f) : m ∈ n.subtrees := by
  obtain ⟨l, es⟩ := n
  exact mem_subtrees_mk.mpr <| .inr ⟨_, mem_at.mp h, mem_subtrees_self m⟩

end Node

-- The nodes that are made around the parts of a closure.

namespace Node

@[simp]
theorem subtrees_ofIdent (i : Ident) : (ofIdent i).subtrees = [ofIdent i] :=
  rfl

@[simp]
theorem subtrees_named (name : String) : (named name).subtrees = [named name] :=
  rfl

@[simp]
theorem subtrees_parameter (n : Node) : (parameter n).subtrees = parameter n :: n.subtrees := by
  simp [parameter, form, subtrees, subtreesOfEdges]

@[simp]
theorem subtrees_entry (n : Node) : (entry n).subtrees = entry n :: n.subtrees := by
  simp [entry, form, subtrees, subtreesOfEdges]

theorem subtrees_returnBlock (n : Node) :
    (returnBlock n).subtrees =
      returnBlock n :: form .returnStatement [] [(.argument, n)] :: n.subtrees := by
  simp [returnBlock, form, subtrees, subtreesOfEdges]

end Node

mutual

theorem Node.subtrees_trans {k m : Node} (hk : k ∈ m.subtrees) :
    ∀ n : Node, m ∈ n.subtrees → k ∈ n.subtrees
  | .mk l es, h => by
    cases Node.mem_subtrees_mk.mp h
    case inl heq =>
      subst heq
      exact hk
    case inr h =>
      have ⟨e, he, hm⟩ := h
      have := subtreesOfEdges_trans hk es (mem_subtreesOfEdges.mpr ⟨e, he, hm⟩)
      exact List.mem_cons_of_mem _ this

theorem subtreesOfEdges_trans {k m : Node} (hk : k ∈ m.subtrees) :
    ∀ es : List Edge, m ∈ subtreesOfEdges es → k ∈ subtreesOfEdges es
  | [], h => by simp at h
  | (_, n) :: es, h => by
    simp only [subtreesOfEdges, List.mem_append] at h ⊢
    exact h.imp (Node.subtrees_trans hk n) (subtreesOfEdges_trans hk es)

end

-- A closure that a visit meets is a part of the tree.
mutual

theorem Node.closures_subset : ∀ n : Node, n.closures ⊆ n.subtrees
  | .mk l es => by
    simp only [Node.closures, Node.subtrees]
    split
    case isTrue => simp
    case isFalse => exact List.subset_cons_of_subset _ (closuresOfEdges_subset es)

theorem closuresOfEdges_subset : ∀ es : List Edge, closuresOfEdges es ⊆ subtreesOfEdges es
  | [] => by simp [closuresOfEdges]
  | (_, n) :: es => by
    simp only [closuresOfEdges, subtreesOfEdges]
    exact List.append_subset.mpr ⟨
      List.subset_append_of_subset_left _ (Node.closures_subset n),
      List.subset_append_of_subset_right _ (closuresOfEdges_subset es)⟩

end

mutual

theorem Node.idents_subset_of_mem_subtrees {m : Node} :
    ∀ n : Node, m ∈ n.subtrees → m.idents ⊆ n.idents
  | .mk l es, h => by
    cases Node.mem_subtrees_mk.mp h
    case inl heq =>
      subst heq
      exact List.Subset.refl _
    case inr h =>
      have ⟨e, he, hm⟩ := h
      have := identsOfEdges_subset_of_mem_subtrees es (mem_subtreesOfEdges.mpr ⟨e, he, hm⟩)
      simp only [Node.idents]
      exact List.subset_append_of_subset_right _ this

theorem identsOfEdges_subset_of_mem_subtrees {m : Node} :
    ∀ es : List Edge, m ∈ subtreesOfEdges es → m.idents ⊆ identsOfEdges es
  | [], h => by simp at h
  | (_, n) :: es, h => by
    simp only [subtreesOfEdges, List.mem_append] at h
    simp only [identsOfEdges]
    cases h
    case inl h => exact List.subset_append_of_subset_left _ (Node.idents_subset_of_mem_subtrees n h)
    case inr h => exact List.subset_append_of_subset_right _ (identsOfEdges_subset_of_mem_subtrees es h)

end

-- The declaration made of a closure contains no closure and no bind call that was not a part of that
-- closure.

namespace Hoisted

-- What the declaration of a closure says of itself.
def declarationLabel (h : Hoisted) : Label :=
  .form .functionDeclaration .generated
    (("declare", .bool false) :: ("generator", .bool false) ::
      h.arrow.attrs.filter (·.1 == "async"))

-- The parts of the declaration of a closure apart from its name.
def declaredEdges (h : Hoisted) : List Edge :=
  (h.captured.map fun i => (.params, .parameter (.ofIdent i))) ++ h.arrow.edges.map declaredEdge

theorem declaration_eq (h : Hoisted) :
    h.declaration = .mk h.declarationLabel ((.identifier, .named h.name) :: h.declaredEdges) :=
  rfl

-- The parts of a declaration: its name, the variables that the closure takes along, and the parts of
-- the closure.
theorem mem_edges_declaration {h : Hoisted} {e : Edge} :
    e ∈ h.declaration.edges ↔ e = (.identifier, .named h.name) ∨
      (∃ i ∈ h.captured, e = (.params, .parameter (.ofIdent i))) ∨
      ∃ a ∈ h.arrow.edges, e = declaredEdge a := by
  simp only [declaration, Node.form, Node.edges, List.cons_append, List.mem_cons, List.mem_append,
    List.mem_map, eq_comm]

theorem fst_declaredEdge (e : Edge) : (declaredEdge e).1 = e.1 := by
  unfold declaredEdge
  split <;> rfl

-- The parts of a declaration in one place. The variables that the closure takes along are parameters, in
-- front of those of the closure.
theorem at_declaration (h : Hoisted) {f : Field} (hf : f ≠ .identifier) :
    h.declaration.at f =
      (if f = .params then h.captured.map fun i => .parameter (.ofIdent i) else []) ++
        (h.arrow.at f).map fun n => (declaredEdge (f, n)).2 := by
  have hparts (e : Edge) : (if (declaredEdge e).1 = f then some (declaredEdge e).2 else none) =
      (if e.1 = f then some e.2 else none).map fun n => (declaredEdge (f, n)).2 := by
    rw [fst_declaredEdge]
    split
    case isTrue hf  => rw [Option.map_some, ← hf]
    case isFalse hf => rfl
  rw [declaration_eq, Node.at_cons, if_neg hf.symm, declaredEdges]
  simp only [Node.at, Node.edges, List.filterMap_append, List.filterMap_map, List.map_filterMap]
  congr 1
  · show h.captured.filterMap (fun i =>
      if Field.params = f then some (Node.parameter (.ofIdent i)) else none) = _
    by_cases hf : f = .params
    case pos => simp [hf]
    case neg => simp [hf, Ne.symm hf]
  · exact congrArg (List.filterMap · _) (funext hparts)

theorem mem_subtrees_of_declaredEdge {m : Node} {e : Edge} (hm : m ∈ (declaredEdge e).2.subtrees)
    (hs : (m.label.isClosure || m.isBindCall) = true) : m ∈ e.2.subtrees := by
  unfold declaredEdge at hm
  split at hm
  case h_1 n =>
    simp only [Node.subtrees_parameter, List.mem_cons] at hm
    cases hm
    case inl hm => simp [hm, Node.parameter, Node.form, Node.label, Label.isClosure, Node.isBindCall] at hs
    case inr hm => exact hm
  case h_2 n =>
    unfold bodyBlock at hm
    split at hm
    case isTrue => exact hm
    case isFalse =>
      simp only [Node.subtrees_returnBlock, List.mem_cons] at hm
      rcases hm with rfl | rfl | hm
      · simp [Node.returnBlock, Node.form, Node.label, Label.isClosure, Node.isBindCall] at hs
      · simp [Node.form, Node.label, Label.isClosure, Node.isBindCall] at hs
      · exact hm
  case h_3 => exact hm

theorem mem_subtrees_of_declaration {m : Node} {h : Hoisted} (hm : m ∈ h.declaration.subtrees)
    (hs : (m.label.isClosure || m.isBindCall) = true) : m ∈ h.arrow.subtrees := by
  cases Node.mem_subtrees_mk.mp hm
  case inl heq =>
    subst heq
    simp [Node.label, Label.isClosure, Node.isBindCall] at hs
  case inr hm =>
    obtain ⟨e, he, hm⟩ := hm
    rcases mem_edges_declaration.mp he with rfl | ⟨i, _, rfl⟩ | ⟨a, ha, rfl⟩
    · simp only [Node.subtrees_named, List.mem_singleton] at hm
      simp [hm, Node.named, Node.ofIdent, Node.label, Label.isClosure, Node.isBindCall] at hs
    · simp only [Node.subtrees_parameter, Node.subtrees_ofIdent, List.mem_cons, List.not_mem_nil,
        or_false] at hm
      cases hm
      case inl hm => simp [hm, Node.parameter, Node.form, Node.label, Label.isClosure, Node.isBindCall] at hs
      case inr hm => simp [hm, Node.ofIdent, Node.label, Label.isClosure, Node.isBindCall] at hs
    · rw [← h.arrow.mk_label_edges]
      exact Node.mem_subtrees_mk.mpr <| .inr ⟨a, ha, mem_subtrees_of_declaredEdge hm hs⟩

end Hoisted

-- Markup is contained exactly if some node of the tree is markup.
mutual

theorem Node.hasMarkup_iff : ∀ n : Node, n.hasMarkup ↔ ∃ m ∈ n.subtrees, m.label.isMarkup
  | .mk l es => by
    simp only [Node.hasMarkup, Bool.or_eq_true, edgesHaveMarkup_iff es, Node.subtrees,
      List.mem_cons, exists_eq_or_imp]
    rfl

theorem edgesHaveMarkup_iff :
    ∀ es : List Edge, edgesHaveMarkup es ↔ ∃ m ∈ subtreesOfEdges es, m.label.isMarkup
  | [] => by simp [edgesHaveMarkup]
  | (_, n) :: es => by
    simp only [edgesHaveMarkup, Bool.or_eq_true, Node.hasMarkup_iff n, edgesHaveMarkup_iff es,
      subtreesOfEdges, List.mem_append, or_and_right, exists_or]

end

-- The list of render functions goes through the nodes of a tree in order.
mutual

theorem Node.renderFunctions_eq_filterMap (i : Nat) :
    ∀ n : Node, n.renderFunctions i = n.subtrees.filterMap (·.asRenderFunction? i)
  | .mk l es => by
    simp only [Node.renderFunctions, Node.subtrees, List.filterMap_cons,
      renderFunctionsOfEdges_eq_filterMap i es]
    cases (Node.mk l es).asRenderFunction? i <;> rfl

theorem renderFunctionsOfEdges_eq_filterMap (i : Nat) :
    ∀ es : List Edge,
      renderFunctionsOfEdges i es = (subtreesOfEdges es).filterMap (·.asRenderFunction? i)
  | [] => rfl
  | (_, n) :: es => by
    simp only [renderFunctionsOfEdges, subtreesOfEdges, List.filterMap_append,
      Node.renderFunctions_eq_filterMap i n, renderFunctionsOfEdges_eq_filterMap i es]

end

namespace Program

-- The nodes that are listed as render functions, each with the index of its top-level item.
def renderNodes (p : Program) : List (Node × Nat) :=
  p.body.zipIdx.flatMap fun (item, i) =>
    (item.subtrees.filter (·.renderKind?.isSome)).map (·, i)

theorem map_renderFunctions_eq (p : Program) :
    p.renderFunctions.map some = p.renderNodes.map fun (n, i) => n.asRenderFunction? i := by
  simp only [renderFunctions, renderNodes, List.map_flatMap, List.map_map]
  congr 1
  funext ⟨item, i⟩
  simp only [Node.renderFunctions_eq_filterMap]
  induction item.subtrees with
  | nil => rfl
  | cons m ms ih =>
    rw [List.filterMap_cons, List.filter_cons]
    cases hm : m.renderKind?
    case none => simpa [Node.asRenderFunction?, hm] using ih
    case some => simpa [Node.asRenderFunction?, hm] using ih

theorem mem_renderNodes {p : Program} {n : Node} {i : Nat} (h : (n, i) ∈ p.renderNodes) :
    n.renderKind?.isSome ∧ ∃ item ∈ p.body, n ∈ item.subtrees := by
  simp only [renderNodes, List.mem_flatMap, List.mem_map, List.mem_filter, Prod.mk.injEq] at h
  obtain ⟨⟨item, j⟩, hitem, m, ⟨hm, hk⟩, rfl, rfl⟩ := h
  exact ⟨hk, item, List.fst_mem_of_mem_zipIdx hitem, hm⟩

end Program

end RenderMemo
