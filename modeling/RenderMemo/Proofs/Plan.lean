import RenderMemo.Proofs.Options

open List

namespace RenderMemo

-- A measure that no node has less of than its parts has, none of the nodes inside has more of either.
mutual

theorem Node.le_of_mem_subtrees {μ : Node → Nat} (hμ : ∀ l es, ∀ e ∈ es, μ e.2 ≤ μ (.mk l es)) {m : Node} :
    ∀ n : Node, m ∈ n.subtrees → μ m ≤ μ n
  | .mk l es, h => by
    cases mem_cons.mp h
    case inl heq => exact heq ▸ Nat.le_refl _
    case inr h =>
      have ⟨e, he, hle⟩ := le_of_mem_subtreesOfEdges hμ es h
      exact Nat.le_trans hle <| hμ l es e he

theorem le_of_mem_subtreesOfEdges {μ : Node → Nat} (hμ : ∀ l es, ∀ e ∈ es, μ e.2 ≤ μ (.mk l es)) {m : Node} :
    ∀ es : List Edge, m ∈ subtreesOfEdges es → ∃ e ∈ es, μ m ≤ μ e.2
  | [], h => nomatch h
  | (f, n) :: es, h => by
    cases mem_append.mp h
    case inl h => exact ⟨_, mem_cons_self, Node.le_of_mem_subtrees hμ n h⟩
    case inr h =>
      have ⟨e, he, hle⟩ := le_of_mem_subtreesOfEdges hμ es h
      exact ⟨e, mem_cons_of_mem _ he, hle⟩

end

namespace Node

-- What goes through the binder of a function: the closures of its body, and the bind calls of its body.

def ownClosures (f : Node) : List Node := (f.at .body).flatMap closures

def ownBindCalls (f : Node) : Nat := total bindCalls (f.at .body)

-- The declaration that is made of a closure, apart from its name and the variables that it takes along.
def lifted (arrow : Node) : Node := (Hoisted.mk "" [] arrow).declaration

variable {n f a : Node}

theorem mem_subtrees_of_mem_ownClosures (ha : a ∈ f.ownClosures) :
    a ∈ f.subtrees ∧ a.label.isClosure = true := by
  have ⟨body, hbody, ha⟩ := mem_flatMap.mp ha
  exact ⟨subtrees_trans (closures_subset body ha) f (mem_subtrees_of_mem_at hbody), (mem_closures body ha).1⟩

theorem arrowCount_le_mk (l : Label) (es : List Edge) (e : Edge) (he : e ∈ es) :
    e.2.arrowCount ≤ (mk l es).arrowCount := by
  have hle : e.2.arrowCount ≤ arrowCountOfEdges es := arrowCount_le_of_mem_at (l := l) (mem_at.mpr he)
  exact Nat.le_add_left_of_le hle

theorem arrowCount_lifted_lt (hf : f ∈ n.owners) (ha : a ∈ f.ownClosures) :
    a.lifted.arrowCount < n.arrowCount := by
  have ⟨hmem, hc⟩ := mem_subtrees_of_mem_ownClosures ha
  have hsub := subtrees_trans hmem n (n.owners_sublist.subset hf)
  have hlt : a.lifted.arrowCount < a.arrowCount := Hoisted.arrowCount_declaration_lt hc
  exact Nat.lt_of_lt_of_le hlt <| le_of_mem_subtrees arrowCount_le_mk n hsub

-- The functions that are given a binder when a tree is expanded, in that order: each function of the tree,
-- followed by those of the declarations that are made of its closures.
def plan (n : Node) : List Node :=
  n.owners.attach.flatMap fun f => f.1 :: f.1.ownClosures.attach.flatMap fun a => a.1.lifted.plan
termination_by n.arrowCount
decreasing_by exact arrowCount_lifted_lt f.2 a.2

-- What becomes of one function of a plan, with the closures that it hands on.
def planOfOwner (f : Node) : List Node := f :: f.ownClosures.flatMap fun a => a.lifted.plan

theorem plan_eq (n : Node) : n.plan = n.owners.flatMap planOfOwner := by
  have hattach {α β : Type} (xs : List α) (g : α → List β) :
      xs.attach.flatMap (fun x => g x.1) = xs.flatMap g := by
    rw [← flatMap_map, attach_map_subtype_val]
  rw [plan, hattach n.owners fun f => f :: f.ownClosures.attach.flatMap fun a => a.1.lifted.plan]
  exact flatMap_congr fun f _ => congrArg (f :: ·) <| hattach f.ownClosures fun a => a.lifted.plan

-- Every function of a plan is a render function with something to lead through its binder.
theorem render_of_mem_plan (n : Node) (hf : f ∈ n.plan) :
    f.isRenderWithBody = true ∧ ∃ body ∈ f.at .body, body.hasSite = true := by
  rw [plan_eq] at hf
  obtain ⟨g, hg, hf⟩ := mem_flatMap.mp hf
  cases mem_cons.mp hf
  case inl heq => exact heq ▸ render_of_mem_owners n hg
  case inr hf =>
    obtain ⟨a, ha, hf⟩ := mem_flatMap.mp hf
    exact a.lifted.render_of_mem_plan hf
termination_by n.arrowCount
decreasing_by exact arrowCount_lifted_lt hg ha

-- Two functions to which the same bindings belong.
structure Twins (m n : Node) : Prop where
  span : m.span = n.span
  body : m.at .body = n.at .body

end Node

namespace Binding.BelongsTo

variable {dedupe : Bool} {b : Binding} {m n : Node}

theorem twin (h : b.BelongsTo dedupe m) (hmn : m.Twins n) : b.BelongsTo dedupe n where
  span     := h.span.trans hmn.span
  sites    := hmn.body ▸ h.sites
  closures := hmn.body ▸ h.closures
  captured := h.captured

theorem bindSites_eq (h : b.BelongsTo dedupe n) : b.bindSites = n.ownBindCalls :=
  h.sites.trans (total_eq_foldr ..).symm

theorem length_hoisted (h : b.BelongsTo dedupe n) : b.hoisted.length = n.ownClosures.length := by
  rw [Node.ownClosures, ← h.closures, length_map]

end Binding.BelongsTo

namespace Hoisted

-- A binder is given to none of the parts in front of those of the closure.
theorem owners_declared (h : Hoisted) (es : List Edge) :
    (h.declared es).owners =
      if (h.declared es).isRenderWithBody then
        (if ((Node.mk h.declarationLabel es).at .body).any Node.hasSite then [h.declared es] else []) ++
          ownersBesideBody es
      else ownersOfEdges es := by
  have hcaptured (is : List Ident) :
      ownersOfEdges ((is.map fun i => (.params, .parameter (.ofIdent i))) ++ es) = ownersOfEdges es ∧
        ownersBesideBody ((is.map fun i => (.params, .parameter (.ofIdent i))) ++ es) = ownersBesideBody es := by
    induction is
    case nil          => exact ⟨rfl, rfl⟩
    case cons i is hi => exact hi
  have hbody : (h.declared es).at .body = (Node.mk h.declarationLabel es).at .body :=
    at_body_inert _ _ (h.inert_front false)
  have hedges : ownersOfEdges (h.front ++ es) = ownersOfEdges es := (hcaptured h.captured).1
  have hbeside : ownersBesideBody (h.front ++ es) = ownersBesideBody es := (hcaptured h.captured).2
  rw [← hbody, ← hedges, ← hbeside]
  rfl

-- The name of a declaration, and the variables that it takes along, do not matter for what is bound in it.
theorem owners_twins {h g : Hoisted} (harrow : h.arrow = g.arrow) :
    Forall₂ Node.Twins h.declaration.owners g.declaration.owners := by
  have hlabel : h.declarationLabel = g.declarationLabel := by rw [declarationLabel, declarationLabel, harrow]
  have hsame (ns : List Node) : Forall₂ Node.Twins ns ns := forall₂_same.mpr fun _ _ => ⟨rfl, rfl⟩
  have htwins (es : List Edge) : (h.declared es).Twins (g.declared es) := by
    refine ⟨rfl, ?_⟩
    rw [declared, declared, at_body_inert _ h.declarationLabel (h.inert_front false),
      at_body_inert _ h.declarationLabel (g.inert_front false)]
  rw [declaration_eq_declared, declaration_eq_declared, ← harrow, owners_declared, owners_declared,
    isRenderWithBody_declared, isRenderWithBody_declared, ← hlabel]
  split
  case isFalse => exact hsame _
  case isTrue =>
    refine rel_append ?_ (hsame _)
    split
    case isTrue  => exact .cons (htwins _) .nil
    case isFalse => exact .nil

theorem owners_declaration (h : Hoisted) : Forall₂ Node.Twins h.declaration.owners h.arrow.lifted.owners :=
  owners_twins rfl

end Hoisted

-- The bindings of an expansion belong to the functions of the plan, one by one. The plan does not depend on
-- the names that are handed out.
section

variable {dedupe : Bool}

mutual

theorem Expands.belongsTo_plan {emit : Node → Emitted} {m n : Node} {xs : List Emitted}
    (hemit : ∀ n, (emit n).binding? = none) (hmn : Forall₂ Node.Twins m.owners n.owners) :
    Expands dedupe emit m xs → Forall₂ (Binding.BelongsTo dedupe) (Emitted.bindings xs) n.plan
  | .item hbs hbindings _ _ => by
    rw [Emitted.bindings_append_last hemit, Node.plan_eq]
    exact hbindings.belongsTo_plan <| forall₂_comp (fun _ _ _ hb => hb.twin) hbs hmn

theorem ExpandsBindings.belongsTo_plan {bs : List Binding} {xs : List Emitted} {fs : List Node} :
    ExpandsBindings dedupe bs xs → Forall₂ (Binding.BelongsTo dedupe) bs fs →
      Forall₂ (Binding.BelongsTo dedupe) (Emitted.bindings xs) (fs.flatMap Node.planOfOwner)
  | .nil, .nil => .nil
  | .cons hclosures hbindings, .cons hb hbs => by
    have hfirst := hclosures.belongsTo_plan
    rw [hb.closures] at hfirst
    rw [cons_append, Emitted.bindings_cons_binder, Emitted.bindings_append, flatMap_cons, Node.planOfOwner,
      cons_append]
    exact .cons hb <| rel_append hfirst (hbindings.belongsTo_plan hbs)

theorem ExpandsClosures.belongsTo_plan {hs : List Hoisted} {xs : List Emitted} :
    ExpandsClosures dedupe hs xs →
      Forall₂ (Binding.BelongsTo dedupe) (Emitted.bindings xs)
        ((hs.map Hoisted.arrow).flatMap fun a => a.lifted.plan)
  | .nil => .nil
  | .cons hclosure hclosures => by
    rw [Emitted.bindings_append, map_cons, flatMap_cons]
    exact rel_append (hclosure.belongsTo_plan (fun _ => rfl) (Hoisted.owners_declaration _))
      hclosures.belongsTo_plan

end

theorem belongsTo_plan_of_expands {items : List Node} {groups : List (List Emitted)}
    (h : Forall₂ (Expands dedupe .own) items groups) :
    Forall₂ (Binding.BelongsTo dedupe) (Emitted.bindings groups.flatten) (items.flatMap Node.plan) := by
  induction h
  case nil => exact .nil
  case cons item xs items groups hitem _ hi =>
    rw [flatten_cons, Emitted.bindings_append, flatMap_cons]
    exact rel_append (hitem.belongsTo_plan (fun _ => rfl) <| forall₂_same.mpr fun _ _ => ⟨rfl, rfl⟩) hi

end

-- Whether a closure is a render function only once it is declared.
def Node.isRevealed (arrow : Node) : Bool := arrow.lifted.isRenderWithBody && !arrow.isRenderWithBody

theorem Hoisted.isRevealed_eq (h : Hoisted) : h.isRevealed = h.arrow.isRevealed := by
  rw [isRevealed, Node.isRevealed, Node.lifted, declaration_eq_declared, declaration_eq_declared,
    isRenderWithBody_declared, isRenderWithBody_declared]
  rfl

namespace Program

variable {p : Program} {c : Config}

-- The functions of a program that are given a binder in a run, in that order.
def plan (p : Program) : List Node := p.body.flatMap Node.plan

theorem belongsTo_plan (p : Program) (dedupe : Bool) :
    Forall₂ (Binding.BelongsTo dedupe) (p.bindings dedupe) p.plan := by
  have ⟨groups, hgroups, hitems⟩ := p.exists_groups dedupe
  rw [bindings, Expansion.bindings, hitems]
  exact belongsTo_plan_of_expands hgroups

-- The closures that are hoisted in a run, in that order.
theorem arrows_bindings (p : Program) (dedupe : Bool) :
    arrows (p.bindings dedupe) = p.plan.flatMap Node.ownClosures := by
  have h := p.belongsTo_plan dedupe
  generalize p.bindings dedupe = bs, p.plan = fs at h
  induction h
  case nil          => rfl
  case cons hb _ hi => rw [arrows_cons, hb.closures, hi, flatMap_cons, Node.ownClosures]

-- What a report says can be read off the plan.

theorem rewrittenFunctions_eq : (p.memoize c).report.rewrittenFunctions = p.plan.length :=
  (p.belongsTo_plan c.dedupeCaptures).length_eq

theorem bindSites_eq : (p.memoize c).report.bindSites = total Node.ownBindCalls p.plan :=
  (p.bindSites_eq_total c).trans <| total_eq_of_forall₂ <|
    (p.belongsTo_plan c.dedupeCaptures).imp fun _ _ hb => hb.bindSites_eq

theorem hoistedClosures_eq :
    (p.memoize c).report.hoistedClosures = total (fun f => f.ownClosures.length) p.plan :=
  (p.hoistedClosures_eq_total c).trans <| total_eq_of_forall₂ <|
    (p.belongsTo_plan c.dedupeCaptures).imp fun _ _ hb => hb.length_hoisted

theorem length_revealed (p : Program) (dedupe : Bool) :
    (p.revealed dedupe).length = (p.plan.flatMap Node.ownClosures).countP Node.isRevealed := by
  rw [revealed, ← countP_eq_length_filter, ← p.arrows_bindings dedupe, arrows, countP_map]
  exact countP_congr fun h _ => by rw [Function.comp_apply, h.isRevealed_eq]

end Program

end RenderMemo
