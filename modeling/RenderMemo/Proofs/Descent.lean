import RenderMemo.Proofs.Prelude
import RenderMemo.Proofs.Progress

open List Relation

namespace RenderMemo

-- How deep the arrow functions of a tree stand one inside the other.
mutual

def Node.arrowDepth : Node → Nat
  | .mk l es => (if l.isClosure then 1 else 0) + arrowDepthOfEdges es

def arrowDepthOfEdges : List Edge → Nat
  | [] => 0
  | (_, n) :: es => max n.arrowDepth (arrowDepthOfEdges es)

end

-- All arrow functions of a tree in the order of the visit, also those inside others.
def Node.arrowNodes (n : Node) : List Node := n.subtrees.filter (·.label.isClosure)

def arrowNodesOfEdges (es : List Edge) : List Node := (subtreesOfEdges es).filter (·.label.isClosure)

theorem arrowDepth_le_arrowDepthOfEdges {e : Edge} :
    ∀ es : List Edge, e ∈ es → e.2.arrowDepth ≤ arrowDepthOfEdges es
  | [], h => nomatch h
  | _ :: es, h => by
    cases mem_cons.mp h
    case inl heq => exact heq ▸ Nat.le_max_left ..
    case inr h   => exact Nat.le_trans (arrowDepth_le_arrowDepthOfEdges es h) (Nat.le_max_right ..)

theorem Node.arrowDepth_le_mk (l : Label) (es : List Edge) (e : Edge) (he : e ∈ es) :
    e.2.arrowDepth ≤ (mk l es).arrowDepth :=
  Nat.le_add_left_of_le <| arrowDepth_le_arrowDepthOfEdges es he

theorem arrowNodesOfEdges_cons (f : Field) (n : Node) (es : List Edge) :
    arrowNodesOfEdges ((f, n) :: es) = n.arrowNodes ++ arrowNodesOfEdges es :=
  filter_append ..

theorem Node.arrowNodes_mk (l : Label) (es : List Edge) :
    (mk l es).arrowNodes = if l.isClosure then .mk l es :: arrowNodesOfEdges es else arrowNodesOfEdges es := by
  rw [arrowNodes, subtrees, filter_cons]
  rfl

namespace Hoisted

-- The declaration of a closure goes as deep as the parts of the closure do.
theorem arrowDepth_declaration (h : Hoisted) : h.declaration.arrowDepth = arrowDepthOfEdges h.arrow.edges := by
  have hwrapper (k : Kind) (hk : k ∈ [.parameter, .blockStatement, .returnStatement]) (f : Field) (n : Node) :
      (Node.form k [] [(f, n)]).arrowDepth = n.arrowDepth := by
    simp [Node.form, Node.arrowDepth, arrowDepthOfEdges, not_isClosure_wrapper hk]
  have hedges : arrowDepthOfEdges h.declaredEdges = arrowDepthOfEdges h.arrow.edges := by
    refine h.declaredEdges_eq (fun i es => Nat.zero_max _) fun e es es' hi => ?_
    rw [arrowDepthOfEdges, arrowDepthOfEdges, hi, declaredEdge_eq e hwrapper]
  have hname : (Node.named h.name).arrowDepth = 0 := rfl
  rw [declaration_eq, Node.arrowDepth, arrowDepthOfEdges, hedges, hname, Nat.zero_max]
  exact Nat.zero_add _

theorem arrowDepth_declaration_lt {h : Hoisted} (hc : h.arrow.label.isClosure = true) :
    h.declaration.arrowDepth < h.arrow.arrowDepth := by
  have harrow : (Node.mk h.arrow.label h.arrow.edges).arrowDepth = 1 + arrowDepthOfEdges h.arrow.edges := by
    rw [Node.arrowDepth, if_pos hc]
  rw [Node.mk_label_edges] at harrow
  rw [arrowDepth_declaration, harrow]
  exact Nat.lt_add_of_pos_left Nat.one_pos

-- A closure that becomes a declaration is gone, and the arrow functions inside it are still there.
theorem arrowNodes_declaration (h : Hoisted) : h.declaration.arrowNodes = arrowNodesOfEdges h.arrow.edges := by
  have hwrapper (k : Kind) (hk : k ∈ [.parameter, .blockStatement, .returnStatement]) (f : Field) (n : Node) :
      (Node.form k [] [(f, n)]).arrowNodes = n.arrowNodes := by
    rw [Node.form, Node.arrowNodes_mk, not_isClosure_wrapper hk, if_neg Bool.false_ne_true,
      arrowNodesOfEdges_cons]
    exact append_nil _
  have hedges : arrowNodesOfEdges h.declaredEdges = arrowNodesOfEdges h.arrow.edges := by
    refine h.declaredEdges_eq (fun i es => rfl) fun e es es' hi => ?_
    rw [arrowNodesOfEdges_cons, arrowNodesOfEdges_cons, hi, declaredEdge_eq e hwrapper]
  have hname : (Node.named h.name).arrowNodes = [] := rfl
  have hlabel : h.declarationLabel.isClosure = false := rfl
  rw [declaration_eq, Node.arrowNodes_mk, hlabel, if_neg Bool.false_ne_true, arrowNodesOfEdges_cons, hname,
    nil_append, hedges]

end Hoisted

-- A closure is the first of its own arrow functions, and the others are in what is lifted.
theorem Node.arrowNodes_closure {a : Node} (hc : a.label.isClosure = true) :
    a.arrowNodes = a :: a.lifted.arrowNodes := by
  have harrow := arrowNodes_mk a.label a.edges
  rw [if_pos hc, mk_label_edges] at harrow
  rw [harrow, lifted, Hoisted.arrowNodes_declaration]

-- The arrow functions of a tree are those of its outermost ones.
mutual

theorem Node.flatMap_closures : ∀ n : Node, n.closures.flatMap Node.arrowNodes = n.arrowNodes
  | .mk l es => by
    rw [Node.closures, Node.arrowNodes_mk]
    split
    case isTrue hl => rw [flatMap_singleton, Node.arrowNodes_mk, if_pos hl]
    case isFalse   => exact flatMap_closuresOfEdges es

theorem flatMap_closuresOfEdges :
    ∀ es : List Edge, (closuresOfEdges es).flatMap Node.arrowNodes = arrowNodesOfEdges es
  | []           => rfl
  | (f, n) :: es => by
    rw [closuresOfEdges, flatMap_append, arrowNodesOfEdges_cons, Node.flatMap_closures n,
      flatMap_closuresOfEdges es]

end

-- The bodies of the functions that get a binder do not overlap.
mutual

theorem Node.flatMap_owners_subperm : ∀ n : Node,
    n.owners.flatMap (fun f => (f.at .body).flatMap Node.arrowNodes) <+~ n.arrowNodes
  | .mk l es => by
    have hes : arrowNodesOfEdges es <+ (Node.mk l es).arrowNodes := by
      rw [Node.arrowNodes_mk]
      split
      case isTrue  => exact sublist_cons_self ..
      case isFalse => exact .refl _
    refine Subperm.trans ?_ hes.subperm
    rw [Node.owners]
    split
    case isFalse => exact flatMap_ownersOfEdges_subperm es
    case isTrue  =>
      refine Subperm.trans ?_ (flatMap_ownersBesideBody_subperm l es)
      rw [flatMap_append]
      split
      case isTrue  => rw [flatMap_singleton]
      case isFalse => exact (sublist_append_right ..).subperm

theorem flatMap_ownersOfEdges_subperm : ∀ es : List Edge,
    (ownersOfEdges es).flatMap (fun f => (f.at .body).flatMap Node.arrowNodes) <+~ arrowNodesOfEdges es
  | []           => .refl _
  | (_, n) :: es => by
    rw [ownersOfEdges, flatMap_append, arrowNodesOfEdges_cons]
    exact (Node.flatMap_owners_subperm n).append (flatMap_ownersOfEdges_subperm es)

theorem flatMap_ownersBesideBody_subperm (l : Label) : ∀ es : List Edge,
    ((Node.mk l es).at .body).flatMap Node.arrowNodes ++
      (ownersBesideBody es).flatMap (fun f => (f.at .body).flatMap Node.arrowNodes) <+~ arrowNodesOfEdges es
  | []           => .refl _
  | (f, n) :: es => by
    have hes := flatMap_ownersBesideBody_subperm l es
    rw [Node.at_cons, ownersBesideBody, flatMap_append, arrowNodesOfEdges_cons]
    split
    case isTrue =>
      rw [flatMap_cons, flatMap_nil, nil_append, append_assoc]
      exact (Subperm.refl _).append hes
    case isFalse =>
      exact (perm_append_comm_assoc ..).subperm.trans <| (Node.flatMap_owners_subperm n).append hes

end

-- No arrow function is hoisted more often than it stands in the tree. The closures of a function are hoisted
-- out of its body, and what is hoisted out of their declarations is what they contain.
theorem Node.flatMap_plan_subperm (n : Node) : n.plan.flatMap ownClosures <+~ n.arrowNodes := by
  rw [plan_eq, flatMap_assoc]
  refine Subperm.trans (subperm_flatMap fun f hf => ?_) n.flatMap_owners_subperm
  have hlifted : f.ownClosures.flatMap (fun a => a.lifted.plan.flatMap ownClosures) <+~
      f.ownClosures.flatMap fun a => a.lifted.arrowNodes :=
    subperm_flatMap fun a ha => a.lifted.flatMap_plan_subperm
  have hsplit : f.ownClosures ++ f.ownClosures.flatMap (fun a => a.lifted.arrowNodes) ~
      f.ownClosures.flatMap fun a => a :: a.lifted.arrowNodes := by
    simpa using map_append_flatMap_perm f.ownClosures id fun a => a.lifted.arrowNodes
  have hbodies : (f.ownClosures.flatMap fun a => a :: a.lifted.arrowNodes) =
      (f.at .body).flatMap arrowNodes := by
    rw [ownClosures, flatMap_assoc]
    refine flatMap_congr fun body _ => ?_
    rw [← body.flatMap_closures]
    exact flatMap_congr fun a ha => (arrowNodes_closure (mem_closures body ha).1).symm
  rw [planOfOwner, flatMap_cons, flatMap_assoc, ← hbodies]
  exact ((Subperm.refl _).append hlifted).trans hsplit.subperm
termination_by n.arrowCount
decreasing_by exact arrowCount_lifted_lt hf ha

-- A declaration that a visit of a tree lifts out of it.
def Node.LiftsOut (dedupe : Bool) (n d : Node) : Prop :=
  ∃ names, ∃ b ∈ (n.visit dedupe names).bindings, ∃ h ∈ b.hoisted, d = h.declaration

theorem Node.LiftsOut.arrowCount_lt {dedupe : Bool} {n d : Node} :
    n.LiftsOut dedupe d → d.arrowCount < n.arrowCount
  | ⟨names, _, hb, _, hh, heq⟩ => heq ▸ n.visit_arrowCount_lt names hb hh

-- What is lifted out is less deep, too.
theorem Node.LiftsOut.arrowDepth_lt {dedupe : Bool} {n d : Node} (h : n.LiftsOut dedupe d) :
    d.arrowDepth < n.arrowDepth := by
  have ⟨names, _, hb, h, hh, heq⟩ := h
  have lifted := lifted_of_mem_visit hh n names hb
  have hle := le_of_mem_subtrees arrowDepth_le_mk n lifted.mem
  exact heq ▸ Nat.lt_of_lt_of_le (Hoisted.arrowDepth_declaration_lt lifted.isClosure) hle

-- Items stand open one inside the other in such a way that what is still to be opened inside them stays within
-- a depth.
def Nested (depth : Nat) : List Opened → Prop
  | [] => True
  | o :: os =>
    (∀ h, .closure h ∈ o.pending → h.declaration.arrowDepth + os.length < depth) ∧ os.length ≤ depth ∧
      Nested depth os

namespace Nested

variable {depth : Nat}

theorem length_le : ∀ {os : List Opened}, Nested depth os → os.length ≤ 1 + depth
  | [],     _ => Nat.zero_le _
  | _ :: _, h => by
    rw [length_cons, Nat.add_comm]
    exact Nat.add_le_add_left h.2.1 1

theorem drop {next : Pending} {ps : List Pending} {last : Emitted} {os : List Opened}
    (h : Nested depth (⟨next :: ps, last⟩ :: os)) : Nested depth (⟨ps, last⟩ :: os) :=
  ⟨fun g hg => h.1 g (mem_cons_of_mem _ hg), h.2⟩

-- A visited item can be opened inside the others if it goes no deeper than they leave room for.
theorem cons_visit {dedupe : Bool} {n : Node} {names : Names} {x : Emitted} {os : List Opened}
    (h : Nested depth os) (hn : n.arrowDepth + os.length ≤ depth) :
    Nested depth (⟨Pending.ofBindings (n.visit dedupe names).bindings, x⟩ :: os) := by
  refine ⟨fun g hg => ?_, Nat.le_of_add_left_le hn, h⟩
  have ⟨b, hb, hg⟩ := Pending.exists_of_closure_mem hg
  have hlifts : n.LiftsOut dedupe g.declaration := ⟨names, b, hb, g, hg, rfl⟩
  have := hlifts.arrowDepth_lt
  omega

end Nested

namespace Progress

variable {depth : Nat} {dedupe : Bool} {s t : Progress}

-- How deep a run can still go.
structure Shallow (depth : Nat) (s : Progress) : Prop where
  ahead  : ∀ n ∈ s.ahead, n.arrowDepth ≤ depth
  opened : Nested depth s.opened

theorem Step.preserves_shallow (h : Step dedupe s t) (hs : s.Shallow depth) : t.Shallow depth := by
  have hopened := hs.opened
  cases h with
  | item hnone hnext =>
    have hahead := hs.ahead
    rw [hnext, forall_mem_cons] at hahead
    rw [hnone] at hopened
    exact ⟨hahead.2, hnone ▸ hopened.cons_visit hahead.1⟩
  | binder heq =>
    rw [heq] at hopened
    exact ⟨hs.ahead, hopened.drop⟩
  | closure heq =>
    rw [heq] at hopened
    exact ⟨hs.ahead, hopened.drop.cons_visit <| hopened.1 _ mem_cons_self⟩
  | close heq =>
    rw [heq] at hopened
    exact ⟨hs.ahead, hopened.2.2⟩

theorem Steps.preserves_shallow (h : Steps dedupe s t) : s.Shallow depth → t.Shallow depth :=
  h.preserves Step.preserves_shallow

end Progress

namespace Program

open Progress

variable {p : Program} {c : Config} {dedupe : Bool} {s : Progress}

-- How deep the arrow functions of a program stand one inside the other.
def arrowDepth (p : Program) : Nat := p.body.foldr (fun n depth => max n.arrowDepth depth) 0

-- All arrow functions of a program.
def arrowNodes (p : Program) : List Node := p.body.flatMap Node.arrowNodes

theorem shallow_start (p : Program) : p.start.Shallow p.arrowDepth := by
  have hle (ns : List Node) : ∀ n ∈ ns, n.arrowDepth ≤ ns.foldr (fun n depth => max n.arrowDepth depth) 0 := by
    induction ns
    case nil          => exact nofun
    case cons n ns hi =>
      exact forall_mem_cons.mpr ⟨Nat.le_max_left .., fun m hm => Nat.le_trans (hi m hm) (Nat.le_max_right ..)⟩
  exact ⟨hle p.body, trivial⟩

theorem arrows_subperm (p : Program) (dedupe : Bool) : arrows (p.bindings dedupe) <+~ p.arrowNodes := by
  rw [arrows_bindings, plan, flatMap_assoc]
  exact subperm_flatMap fun n _ => n.flatMap_plan_subperm

-- Where no two arrow functions are the same, none is hoisted twice.
theorem nodup_arrows (h : p.arrowNodes.Nodup) : (arrows (p.bindings dedupe)).Nodup :=
  have ⟨_, hperm, hsublist⟩ := p.arrows_subperm dedupe
  hperm.nodup_iff.mp <| h.sublist hsublist

theorem length_arrowNodes (p : Program) : p.arrowNodes.length = p.tally .closure := by
  rw [arrowNodes, tally]
  induction p.body
  case nil          => rfl
  case cons n ns hi =>
    rw [flatMap_cons, length_append, hi, total_cons, Node.arrowNodes, ← countP_eq_length_filter, Node.tally,
      Node.count_eq_countP]
    rfl

theorem hoistedClosures_le_tally : (p.memoize c).report.hoistedClosures ≤ p.tally .closure := by
  have hlength (bs : List Binding) : (arrows bs).length = total (·.hoisted.length) bs := by
    induction bs
    case nil          => rfl
    case cons b bs hi => rw [arrows_cons, length_append, length_map, hi, total_cons]
  have hle := (p.arrows_subperm c.dedupeCaptures).length_le
  rwa [hlength, length_arrowNodes, ← hoistedClosures_eq_total] at hle

-- Every binder is declared with a bind call of its own.
theorem rewrittenFunctions_le_tally :
    (p.memoize c).report.rewrittenFunctions ≤ (p.memoize c).program.tally .bindCall := by
  have hbinders (xs : List Emitted) : (Emitted.bindings xs).length ≤ total (Emitted.tally .bindCall) xs := by
    induction xs
    case nil => exact Nat.le_refl _
    case cons x xs hi =>
      rw [total_cons]
      cases x
      case binder  => exact Nat.add_comm 1 _ ▸ Nat.succ_le_succ hi
      case closure => exact Nat.le_add_left_of_le hi
      case own     => exact Nat.le_add_left_of_le hi
  rw [tally_result]
  exact hbinders _

-- That a run comes to its end, and what limits it.
structure Limited (p : Program) (c : Config) : Prop where
  -- A declaration that is lifted out of an item has fewer arrow functions than the item, so this does not go on
  -- for ever.
  fewer : ∀ n d : Node, n.LiftsOut c.dedupeCaptures d → d.arrowCount < n.arrowCount
  wellFounded : WellFounded fun d n : Node => n.LiftsOut c.dedupeCaptures d
  -- However far a run has come, it comes to its end, and its result is that of the program.
  ends :
    ∀ s, Steps c.dedupeCaptures p.start s →
      Steps c.dedupeCaptures s (p.finish c.dedupeCaptures) ∧ Acc (flip (Step c.dedupeCaptures)) s
  result : p.EndsAs c (p.finish c.dedupeCaptures)
  -- No more items are open at a time than arrow functions stand one inside the other, and one.
  depth : ∀ s, Steps c.dedupeCaptures p.start s → s.opened.length ≤ 1 + p.arrowDepth
  -- Every arrow function is hoisted at most once.
  once : arrows (p.bindings c.dedupeCaptures) <+~ p.arrowNodes
  distinct : p.arrowNodes.Nodup → (arrows (p.bindings c.dedupeCaptures)).Nodup
  closures : (p.memoize c).report.hoistedClosures ≤ p.tally .closure
  bindCalls : (p.memoize c).report.bindSites ≤ p.tally .bindCall

-- The closures that are hoisted are not searched for ever, and none of them twice.
theorem limited (p : Program) (c : Config) : p.Limited c where
  fewer       := fun _ _ h => h.arrowCount_lt
  wellFounded := Subrelation.wf Node.LiftsOut.arrowCount_lt (measure Node.arrowCount).wf
  ends        := fun _ h => ⟨steps_finish_of_steps h, acc_of_steps_finish <| steps_finish_of_steps h⟩
  result      := p.endsAs_finish c
  depth       := fun _ h => (h.preserves_shallow p.shallow_start).opened.length_le
  once        := p.arrows_subperm _
  distinct    := nodup_arrows
  closures    := hoistedClosures_le_tally
  bindCalls   := by
    have hbalance := tally_memoize .bindCall p c
    have hbinders := rewrittenFunctions_le_tally (p := p) (c := c)
    simp only [Tally.perClosure, Tally.perBindCall, Tally.perBinder, Tally.perDeclaration] at hbalance
    omega

end Program

end RenderMemo
