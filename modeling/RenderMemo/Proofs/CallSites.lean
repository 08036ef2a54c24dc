import RenderMemo.Proofs.References

open List

namespace RenderMemo

section

variable {dedupe : Bool} {bs : List Binding}

-- What a part of a tree becomes when it is visited on its own.
def Node.VisitedAs (dedupe : Bool) (bs : List Binding) (n n' : Node) : Prop :=
  ∃ names, (n.visit dedupe names).bindings ⊆ bs ∧ n' = (n.visit dedupe names).result

theorem Node.VisitedAs.keptAs {n n' : Node} (h : n.VisitedAs dedupe bs n') : n.KeptAs bs n' := by
  have ⟨names, hbs, heq⟩ := h
  subst heq
  constructor
  case rewrites => exact n.visit_rewrites dedupe names hbs
  case untouched =>
    intro i hi
    exact (n.visit_of_settled dedupe names <| settled_of_renderFunctions_eq_nil hi).1

-- The parts of a tree are visited one by one, apart from a body that goes through a binder.

theorem visitEdges_at (l : Label) (f : Field) : ∀ (es : List Edge) (names : Names),
    (visitEdges dedupe es names).bindings ⊆ bs →
      Forall₂ (Node.VisitedAs dedupe bs) ((Node.mk l es).at f)
        ((Node.mk l (visitEdges dedupe es names).result).at f)
  | [], _, _ => .nil
  | (g, n) :: es, names, hbs => by
    have ⟨hn, hes⟩ := append_subset.mp hbs
    have hrest := visitEdges_at l f es (n.visit dedupe names).names hes
    rw [visitEdges, Node.at_cons, Node.at_cons]
    split
    case isTrue  => exact .cons ⟨names, hn, rfl⟩ hrest
    case isFalse => exact hrest

theorem visitBound_at (l : Label) (binder : String) {f : Field} (hf : f ≠ .body) :
    ∀ (es : List Edge) (rs : List Node) (names : Names),
      (visitBound dedupe binder es rs names).bindings ⊆ bs →
        Forall₂ (Node.VisitedAs dedupe bs) ((Node.mk l es).at f)
          ((Node.mk l (visitBound dedupe binder es rs names).result).at f)
  | [], _, _, _ => .nil
  | (g, n) :: es, rs, names, hbs => by
    rw [visitBound] at hbs ⊢
    split at hbs
    case isTrue hg =>
      have hne : g ≠ f := fun heq => hf (heq ▸ hg)
      rw [if_pos hg, Node.at_cons, Node.at_cons, if_neg hne, if_neg hne]
      exact visitBound_at l binder hf es _ _ hbs
    case isFalse hg =>
      have ⟨hn, hes⟩ := append_subset.mp hbs
      have hrest := visitBound_at l binder hf es rs _ hes
      rw [if_neg hg, Node.at_cons, Node.at_cons]
      split
      case isTrue  => exact .cons ⟨names, hn, rfl⟩ hrest
      case isFalse => exact hrest

theorem Node.visit_at (n : Node) (names : Names) {f : Field} (hf : f ≠ .body)
    (hbs : (n.visit dedupe names).bindings ⊆ bs) :
    Forall₂ (VisitedAs dedupe bs) (n.at f) ((n.visit dedupe names).result.at f) := by
  cases n
  case mk l es =>
    cases hr : (mk l es).isRenderWithBody
    case false =>
      rw [visit_of_not_isRenderWithBody hr] at hbs ⊢
      exact visitEdges_at l f es names hbs
    case true =>
      rw [visit_of_isRenderWithBody hr] at hbs ⊢
      refine visitBound_at l _ hf es _ _ <| List.Subset.trans ?_ hbs
      simp only
      split
      case isTrue  => exact subset_cons_self ..
      case isFalse => exact Subset.refl _

end

namespace Hoisted

theorem at_params_declaration (h : Hoisted) :
    h.declaration.at .params =
      (h.captured.map fun i => .parameter (.ofIdent i)) ++ (h.arrow.at .params).map .parameter :=
  h.at_declaration nofun

-- How a closure is declared in the end: the variables that it takes along are its first parameters, and
-- behind them stand the parameters of the closure. A parameter without render functions stays as it is.
structure DeclaredAs (h : Hoisted) (bs : List Binding) (d : Node) : Prop where
  label      : d.label = h.declarationLabel
  introduced : d.introduced? = some h.name
  params :
    ∃ ps, d.at .params = (h.captured.map fun i => .parameter (.ofIdent i)) ++ ps ∧
      Forall₂ (Node.KeptAs bs) ((h.arrow.at .params).map .parameter) ps

theorem keptAs_captured {bs : List Binding} {is : List Ident} {ns ns' : List Node}
    (h : Forall₂ (Node.KeptAs bs) ((is.map fun i => .parameter (.ofIdent i)) ++ ns) ns') :
    ∃ ps, ns' = (is.map fun i => .parameter (.ofIdent i)) ++ ps ∧ Forall₂ (Node.KeptAs bs) ns ps := by
  induction is generalizing ns'
  case nil => exact ⟨ns', rfl, h⟩
  case cons i is hi =>
    cases h with
    | cons hkept hrest =>
      have ⟨ps, heq, hps⟩ := hi hrest
      exact ⟨ps, by rw [hkept.untouched 0 rfl, heq]; rfl, hps⟩

-- A visit of the declaration keeps it a declaration of the closure, though the closure may be a render
-- function itself.
theorem declaredAs_visit {dedupe : Bool} {bs : List Binding} (h : Hoisted) (names : Names)
    (hbs : (h.declaration.visit dedupe names).bindings ⊆ bs) :
    h.DeclaredAs bs (h.declaration.visit dedupe names).result := by
  have ⟨_, hn, _⟩ := (h.declaration.visit_rewrites dedupe names hbs).of_declaration
  have hvisited := h.declaration.visit_at names (by decide : Field.params ≠ .body) hbs
  have hparams := hvisited.imp fun _ _ => Node.VisitedAs.keptAs
  rw [at_params_declaration] at hparams
  rw [hn] at hparams ⊢
  exact ⟨rfl, rfl, keptAs_captured hparams⟩

end Hoisted

namespace Program

variable {p : Program} {c : Config} {b : Binding} {h : Hoisted} {x : String} {k : Nat} {n m : Node}
  {y : Emitted}

-- Of the items of a program, only one declares a name that is provided.
theorem Provides.filter_introduced? (hx : p.Provides x k) (hn : n ∈ p.body) (hi : n.introduced? = some x) :
    p.body.filter (·.introduced? == some x) = [n] := by
  have ⟨front, d, rest, hbody, hd⟩ := hx
  have hfront : front.filter (·.introduced? == some x) = [] := by
    refine filter_eq_nil_iff.mpr fun n hn heq => hd.front n hn ?_
    exact n.nonReferences_subset <| Node.introduced?_mem_nonReferences (eq_of_beq heq)
  have hrest : rest.filter (·.introduced? == some x) = [] := by
    refine filter_eq_nil_iff.mpr fun n hn heq => hd.undeclared n hn ?_
    exact Node.introduced?_mem_nonReferences (eq_of_beq heq)
  have hfilter : p.body.filter (·.introduced? == some x) = [d] := by
    rw [hbody, filter_append, filter_cons_of_pos (by simp [hd.introduced]), hfront, hrest, nil_append]
  have hn : n ∈ p.body.filter (·.introduced? == some x) := mem_filter.mpr ⟨hn, beq_iff_eq.mpr hi⟩
  rw [hfilter] at hn ⊢
  rw [mem_singleton.mp hn]

theorem exists_closure_mem (hb : b ∈ p.bindings c.dedupeCaptures) (hh : h ∈ b.hoisted) :
    ∃ d, .closure h d ∈ (p.expansion c.dedupeCaptures).2.items := by
  have hu : .closure b h ∈ (p.expansion c.dedupeCaptures).2.items.flatMap Emitted.opens := by
    rw [Emitted.flatMap_opens]
    exact mem_flatMap_of_mem hb <| mem_append_right _ (mem_map_of_mem hh)
  have ⟨_, _, _, _, hu, hready⟩ := (p.scheduled c.dedupeCaptures).exists_made hu
  exact (hready _ hu).2

-- A closure is lifted out of the program, and one item is what is left of its declaration by a visit.
theorem exists_declared (hb : b ∈ p.bindings c.dedupeCaptures) (hh : h ∈ b.hoisted) :
    (∃ root ∈ p.body, h.LiftedFrom c.dedupeCaptures root) ∧
    ∃ names, (h.declaration.visit c.dedupeCaptures names).bindings ⊆ p.bindings c.dedupeCaptures ∧
      (p.memoize c).program.body.filter (·.introduced? == some h.name) =
        [(h.declaration.visit c.dedupeCaptures names).result] := by
  have ⟨d, hd⟩ := exists_closure_mem hb hh
  have ⟨root, hroot, harises⟩ := arisesFrom_of_mem_expansion hd
  have hprovides := provides_of_mem_binding hb <| mem_cons_of_mem _ (mem_map_of_mem hh)
  cases harises with
  | closure lifted _ hbs =>
    have hdeclared := h.declaredAs_visit _ hbs
    refine ⟨⟨root, hroot, lifted⟩, _, hbs, hprovides.filter_introduced? ?_ hdeclared.introduced⟩
    rw [memoize_body_eq]
    exact mem_append_right _ <| mem_map.mpr ⟨_, hd, rfl⟩

-- That item is the declaration of the closure with its sites rewritten.
theorem exists_rewrites (hb : b ∈ p.bindings c.dedupeCaptures) (hh : h ∈ b.hoisted) :
    (∃ root ∈ p.body, h.LiftedFrom c.dedupeCaptures root) ∧
    ∃ d, (p.memoize c).program.body.filter (·.introduced? == some h.name) = [d] ∧
      Rewrites (p.bindings c.dedupeCaptures) h.declaration d := by
  have ⟨hlifted, names, hbs, hitem⟩ := exists_declared hb hh
  exact ⟨hlifted, _, hitem, h.declaration.visit_rewrites c.dedupeCaptures names hbs⟩

-- It declares the closure as it is to be called.
theorem exists_declaredAs (hb : b ∈ p.bindings c.dedupeCaptures) (hh : h ∈ b.hoisted) :
    (∃ root ∈ p.body, h.LiftedFrom c.dedupeCaptures root) ∧
    ∃ d, (p.memoize c).program.body.filter (·.introduced? == some h.name) = [d] ∧
      h.DeclaredAs (p.bindings c.dedupeCaptures) d := by
  have ⟨hlifted, names, hbs, hitem⟩ := exists_declared hb hh
  exact ⟨hlifted, _, hitem, h.declaredAs_visit names hbs⟩

theorem exists_makes (hy : y ∈ (p.expansion c.dedupeCaptures).2.items) :
    ∃ us, y.Makes p.body us ∧ ∀ u ∈ us, u.Ready (p.expansion c.dedupeCaptures).2.items := by
  have ⟨front, rest, hitems⟩ := append_of_mem hy
  have ⟨us, hmakes, hready⟩ := (hitems ▸ p.scheduled c.dedupeCaptures).exists_makes
  refine ⟨us, hmakes, fun u hu => (hready u hu).mono ?_⟩
  rw [hitems, append_nil]
  exact reverse_subset.mpr <| subset_append_left ..

theorem binder_mem (hb : b ∈ p.bindings c.dedupeCaptures) :
    .binder b ∈ (p.expansion c.dedupeCaptures).2.items :=
  Expansion.mem_bindings.mp hb

-- The declaration of a binder calls the memoize function only.
theorem callee?_binderDeclaration {binder memoize : String} {cacheSize : UInt64}
    (hm : m ∈ (binderDeclaration binder memoize cacheSize).subtrees) (hcallee : m.callee? = some x) :
    x = memoize := by
  have hcallees : (binderDeclaration binder memoize cacheSize).subtrees.filterMap Node.callee? = [memoize] :=
    rfl
  exact mem_singleton.mp <| hcallees ▸ mem_filterMap.mpr ⟨m, hm, hcallee⟩

-- A call of a binder in an item was put there by a use that is made in the item.
theorem exists_use_of_makes {us : List Use} (h : y.Makes p.body us)
    (hy : y ∈ (p.expansion c.dedupeCaptures).2.items)
    (hready : ∀ u ∈ us, u.Ready (p.expansion c.dedupeCaptures).2.items)
    (hb : b ∈ p.bindings c.dedupeCaptures) (hm : m ∈ (p.nodeOf c y).subtrees)
    (hcallee : m.callee? = some b.binder) :
    ∃ u ∈ us, ∃ root ∈ p.body, u.Stands (p.bindings c.dedupeCaptures) root m := by
  have hnames : b.binder ∈ (p.bindings c.dedupeCaptures).flatMap Binding.names :=
    mem_flatMap_of_mem hb mem_cons_self
  cases hbinding : y.binding?
  case some b' =>
    cases y
    case binder =>
      have hmemoize := callee?_binderDeclaration hm hcallee
      exact absurd (hmemoize ▸ hnames) (p.not_mem_names_of_memoize c)
    case closure => nomatch hbinding
    case own     => nomatch hbinding
  case none =>
    have ⟨n, hn, hmentions, root, hroot, hstands⟩ := exists_root h hy hbinding
    have hx : b.binder ∉ n.mentions := by
      refine hmentions _ (p.names_subset _ hnames) fun hm => ?_
      rw [eq_of_mem_introduces (binder_mem hb) hy mem_cons_self hm] at hbinding
      nomatch hbinding
    have ⟨u, hu, hm⟩ := hn.exists_use (bindings_subset_of_ready hready) hx hm hcallee
    exact ⟨u, hu, root, hroot, hstands _ u m hm⟩

-- Every call through a binder was put there by a use of the binder.
theorem exists_use (hb : b ∈ p.bindings c.dedupeCaptures) (hn : n ∈ (p.memoize c).program.body)
    (hm : m ∈ n.subtrees) (hcallee : m.callee? = some b.binder) :
    ∃ u : Use, u.binding = b ∧ ∃ root ∈ p.body, u.Stands (p.bindings c.dedupeCaptures) root m := by
  rw [memoize_body_eq, mem_append] at hn
  cases hn
  case inl hn =>
    have hnames : b.binder ∈ (p.bindings c.dedupeCaptures).flatMap Binding.names :=
      mem_flatMap_of_mem hb mem_cons_self
    have hx := Node.mentions_subset_of_mem_subtrees hm <| Node.callee?_mem_mentions hcallee
    rw [← count_pos_iff, count_mentions_import hn (p.names_subset _ hnames), count_pos_iff,
      mem_singleton] at hx
    exact absurd (hx ▸ hnames) (p.not_mem_names_of_memoize c)
  case inr hn =>
    have ⟨y, hy, heq⟩ := mem_map.mp hn
    subst heq
    have ⟨us, hmakes, hready⟩ := exists_makes hy
    have ⟨u, hu, root, hroot, hstands⟩ := exists_use_of_makes hmakes hy hready hb hm hcallee
    have hbinder : u.binding.binder = b.binder := Option.some.inj <| hstands.callee?.symm.trans hcallee
    have heq := eq_of_mem_introduces (binder_mem hb) (binder_mem (hready u hu).binding_mem) mem_cons_self
      (mem_singleton.mpr hbinder.symm)
    exact ⟨u, Emitted.binder.inj heq, root, hroot, hstands⟩

end Program

end RenderMemo
