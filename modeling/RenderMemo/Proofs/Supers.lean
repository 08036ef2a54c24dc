import RenderMemo.Proofs.CallSites
import RenderMemo.Proofs.Plan
import RenderMemo.Proofs.Scopes

open List

namespace RenderMemo

-- Whether `super` may stand in a place of a form, given whether it may stand where the form stands. It
-- belongs to the nearest method, accessor, field or constructor around it. An arrow function does not get
-- in between, whereas any other function does.
def Kind.homes (k : Kind) (f : Field) (homed : Bool) : Bool :=
  match k with
  | classMethod | privateMethod | methodProperty | classConstructor => f == .params || f == .body || homed
  | getterProperty | staticBlock => f == .body || homed
  | setterProperty => f == .thisParam || f == .param || f == .body || homed
  | classProperty | privateProperty | autoAccessor => f == .value || homed
  | functionDeclaration | functionExpression => f != .params && f != .body && homed
  | _ => homed

namespace Label

def homes (l : Label) (f : Field) (homed : Bool) : Bool := l.kind?.elim homed (·.homes f homed)

def isSuper : Label → Bool
  | form .superReference _ _ => true
  | _ => false

end Label

-- The occurrences of `super` in a tree that belong to nothing, neither in the tree nor, if the tree stands
-- where `super` may, around it.
mutual

def Node.strays (homed : Bool) : Node → List Label
  | .mk l es => (if l.isSuper && !homed then [l] else []) ++ straysOfEdges homed l es

def straysOfEdges (homed : Bool) (l : Label) : List Edge → List Label
  | [] => []
  | (f, n) :: es => n.strays (l.homes f homed) ++ straysOfEdges homed l es

end

theorem Kind.homes_mono (k : Kind) {f : Field} (h : k.homes f false = true) : k.homes f true = true := by
  unfold homes at h ⊢
  split at h <;> simp_all

theorem Label.homes_mono (l : Label) {f : Field} (h : l.homes f false = true) : l.homes f true = true := by
  unfold homes at h ⊢
  cases hk : l.kind?
  case none => rfl
  case some k =>
    rw [hk] at h
    exact k.homes_mono h

section

variable {homed : Bool} {l : Label} {es : List Edge} {n : Node}

-- Fewer occurrences belong to nothing where `super` may stand.
mutual

theorem Node.strays_true_sublist : ∀ n : Node, n.strays true <+ n.strays false
  | .mk l es => by
    rw [Node.strays, Node.strays, Bool.not_true, Bool.and_false, if_neg Bool.false_ne_true, nil_append]
    exact (straysOfEdges_true_sublist l es).trans <| sublist_append_right ..

theorem straysOfEdges_true_sublist (l : Label) :
    ∀ es : List Edge, straysOfEdges true l es <+ straysOfEdges false l es
  | [] => .slnil
  | (f, n) :: es => by
    refine Sublist.append ?_ <| straysOfEdges_true_sublist l es
    cases hfalse : l.homes f false
    case true => rw [l.homes_mono hfalse]
    case false =>
      cases l.homes f true
      case true  => exact n.strays_true_sublist
      case false => exact .refl _

end

theorem Node.strays_sublist (homed : Bool) (n : Node) : n.strays homed <+ n.strays false := by
  cases homed
  case true  => exact n.strays_true_sublist
  case false => exact .refl _

-- Most forms change nothing for their parts.

theorem straysOfEdges_of_passes (hl : ∀ f, l.homes f homed = homed) (es : List Edge) :
    straysOfEdges homed l es = es.flatMap (·.2.strays homed) := by
  induction es
  case nil => rfl
  case cons e es hi => rw [straysOfEdges, hl, hi, flatMap_cons]

theorem Node.strays_of_passes (hs : l.isSuper = false) (hl : ∀ f, l.homes f homed = homed) :
    (mk l es).strays homed = es.flatMap (·.2.strays homed) := by
  rw [strays, hs, straysOfEdges_of_passes hl]
  rfl

theorem Node.strays_of_single {f : Field} (hs : l.isSuper = false) (hl : ∀ f, l.homes f homed = homed) :
    (mk l [(f, n)]).strays homed = n.strays homed :=
  (strays_of_passes hs hl).trans <| flatMap_singleton ..

-- The nodes that are made around the parts of a tree.

@[simp]
theorem Node.strays_ofIdent (i : Ident) : (ofIdent i).strays homed = [] :=
  rfl

@[simp]
theorem Node.strays_named (name : String) : (named name).strays homed = [] :=
  rfl

@[simp]
theorem Node.strays_entry (n : Node) : (entry n).strays homed = n.strays homed :=
  strays_of_single rfl fun _ => rfl

theorem Node.strays_bindCall {s : Span} {as : List (String × Json)} {rest : List Edge} {target : Node}
    (hp : bindParts? es = some (target, rest)) :
    (mk (.form .callExpression s as) es).strays homed =
      target.strays homed ++ straysOfEdges homed (.form .callExpression s as) rest := by
  obtain ⟨ms, mas, ps, hes⟩ := bindParts?_eq_some_iff.mp hp
  have hmember : (mk (.form .memberExpression ms mas)
      [(.object, target), (.property, mk (.name "bind" ps) [])]).strays homed = target.strays homed :=
    (strays_of_passes rfl fun _ => rfl).trans <| append_nil _
  exact hes ▸ congrArg (· ++ _) hmember

theorem Node.strays_boundCall {s : Span} {as : List (String × Json)} {rest : List Edge} {target : Node}
    {binder : String} :
    (mk (.form .callExpression s as)
      ((.callee, named binder) :: (.arguments, entry target) :: rest)).strays homed =
      target.strays homed ++ straysOfEdges homed (.form .callExpression s as) rest :=
  congrArg (· ++ _) <| strays_entry target

namespace Hoisted

theorem strays_call (h : Hoisted) (binder : String) : (h.call binder).strays homed = [] := by
  refine (Node.strays_of_passes rfl fun _ => rfl).trans <| flatMap_eq_nil_iff.mpr fun e he => ?_
  simp only [map_cons, map_map, mem_cons, mem_map] at he
  rcases he with rfl | rfl | rfl | ⟨i, _, rfl⟩
  all_goals simp
  rfl

theorem strays_declaredEdge (e : Edge) : (declaredEdge e).2.strays homed = e.2.strays homed := by
  unfold declaredEdge
  split
  case h_1 n => exact Node.strays_of_single rfl fun _ => rfl
  case h_2 n =>
    unfold bodyBlock
    split
    case isTrue => rfl
    case isFalse =>
      have hreturn : (Node.form .returnStatement [] [(.argument, n)]).strays homed = n.strays homed :=
        Node.strays_of_single rfl fun _ => rfl
      exact (Node.strays_of_single rfl fun _ => rfl).trans hreturn
  case h_3 => rfl

theorem strays_of_isClosure (hl : l.isClosure = true) :
    (Node.mk l es).strays homed = es.flatMap (·.2.strays homed) := by
  cases l
  case form k s as =>
    have hk : k = .arrowFunctionExpression := Option.some.inj <| Label.kind?_of_isClosure hl
    subst hk
    exact Node.strays_of_passes rfl fun _ => rfl
  all_goals nomatch hl

-- What belongs to something around a closure belongs to nothing in its declaration.
theorem strays_declaration (h : Hoisted) (hc : h.arrow.label.isClosure = true) :
    h.declaration.strays false = h.arrow.strays false := by
  have hcaptured : (h.captured.map fun i => ((.params, .parameter (.ofIdent i)) : Edge)).flatMap
      (·.2.strays false) = [] := by
    rw [flatMap_map]
    exact flatMap_eq_nil_iff.mpr fun i _ => strays_declaredEdge (.params, .ofIdent i)
  have hpasses (f : Field) : h.declarationLabel.homes f false = false := by
    show (f != .params && f != .body && false) = false
    exact Bool.and_false _
  have hparts : h.declaredEdges.flatMap (·.2.strays false) = h.arrow.edges.flatMap (·.2.strays false) := by
    rw [declaredEdges, flatMap_append, hcaptured, flatMap_map]
    exact flatMap_congr fun e _ => strays_declaredEdge e
  rw [declaration_eq, Node.strays_of_passes rfl hpasses, flatMap_cons, hparts, Node.strays_named, nil_append]
  rw [← strays_of_isClosure hc, h.arrow.mk_label_edges]

end Hoisted

end

variable {bs : List Binding}

-- A rewriting makes no occurrence of `super`, and leaves every one that it keeps where it belongs.
mutual

theorem Rewrites.strays_sublist {homed : Bool} {n n' : Node} :
    Rewrites bs n n' → n'.strays homed <+ n.strays homed
  | .keep (l := l) hes => (hes.strays_sublist l).append_left _
  | .bind _ hp htarget hrest => by
    rw [Node.strays_bindCall hp, Node.strays_boundCall]
    exact htarget.strays_sublist.append <| hrest.strays_sublist _
  | .closure _ _ _ => by
    rw [Hoisted.strays_call]
    exact nil_sublist _

theorem RewritesEdges.strays_sublist {homed : Bool} {es es' : List Edge} (l : Label) :
    RewritesEdges bs es es' → straysOfEdges homed l es' <+ straysOfEdges homed l es
  | .nil => .slnil
  | .cons hn hes => hn.strays_sublist.append <| hes.strays_sublist l

end

-- That an occurrence of `super` is taken out of a tree with a closure in which it belongs to nothing.
def Label.TakenFrom (bs : List Binding) (n : Node) (s : Label) : Prop :=
  ∃ b ∈ bs, ∃ h ∈ b.hoisted, h.arrow ∈ n.subtrees ∧ s ∈ h.arrow.strays false

theorem Label.TakenFrom.mono {n m : Node} {s : Label} (h : s.TakenFrom bs m) (hm : m ∈ n.subtrees) :
    s.TakenFrom bs n := by
  have ⟨b, hb, c, hc, hmem, hs⟩ := h
  exact ⟨b, hb, c, hc, Node.subtrees_trans hmem n hm, hs⟩

-- What is not kept by a rewriting was taken out.
mutual

theorem Rewrites.mem_strays {homed : Bool} {n n' : Node} {s : Label} :
    Rewrites bs n n' → s ∈ n.strays homed → s ∈ n'.strays homed ∨ s.TakenFrom bs n
  | .keep (l := l) hes, hs => by
    cases mem_append.mp hs
    case inl hs => exact .inl <| mem_append_left _ hs
    case inr hs =>
      refine (hes.mem_strays l hs).imp (mem_append_right _) fun ⟨e, he, h⟩ => h.mono ?_
      exact Node.mem_subtrees_mk.mpr <| .inr ⟨e, he, Node.mem_subtrees_self _⟩
  | .bind _ hp htarget hrest, hs => by
    rw [Node.strays_bindCall hp, mem_append] at hs
    rw [Node.strays_boundCall, mem_append]
    have ⟨htarget', hrest'⟩ := subtrees_subset_of_bindParts? hp
    cases hs
    case inl hs =>
      refine (htarget.mem_strays hs).imp .inl fun h => h.mono ?_
      exact mem_cons_of_mem _ <| htarget' <| Node.mem_subtrees_self _
    case inr hs =>
      refine (hrest.mem_strays _ hs).imp .inr fun ⟨e, he, h⟩ => h.mono ?_
      exact Node.mem_subtrees_mk.mpr <| .inr ⟨e, hrest' he, Node.mem_subtrees_self _⟩
  | .closure hb hh _, hs =>
    .inr ⟨_, hb, _, hh, Node.mem_subtrees_self _, (Node.strays_sublist ..).subset hs⟩

theorem RewritesEdges.mem_strays {homed : Bool} {es es' : List Edge} {s : Label} (l : Label) :
    RewritesEdges bs es es' → s ∈ straysOfEdges homed l es →
      s ∈ straysOfEdges homed l es' ∨ ∃ e ∈ es, s.TakenFrom bs e.2
  | .nil, hs => nomatch hs
  | .cons hn hes, hs => by
    cases mem_append.mp hs
    case inl hs => exact (hn.mem_strays hs).imp (mem_append_left _) fun h => ⟨_, mem_cons_self, h⟩
    case inr hs =>
      exact (hes.mem_strays l hs).imp (mem_append_right _) fun ⟨e, he, h⟩ => ⟨e, mem_cons_of_mem _ he, h⟩

end

namespace Program

variable {p : Program} {c : Config} {s : Label}

-- The occurrences of `super` in a program that belong to nothing.
def strays (p : Program) : List Label := p.body.flatMap (Node.strays false)

theorem strays_import {d : Node} (hd : d ∈ p.imports c) : d.strays false = [] := by
  rw [eq_of_mem_imports hd]
  unfold memoizeImport
  split <;> rfl

-- What belongs to nothing in a hoisted closure belongs to nothing in the result. If it is not in the
-- declaration of the closure, it is in that of a closure that was hoisted out of it, with fewer closures in it.
theorem mem_strays_of_hoisted {b : Binding} {h : Hoisted} (hb : b ∈ p.bindings c.dedupeCaptures)
    (hh : h ∈ b.hoisted) (hs : s ∈ h.arrow.strays false) : s ∈ (p.memoize c).program.strays := by
  have ⟨⟨_, _, lifted⟩, d, hitem, hrewrites⟩ := exists_rewrites hb hh
  rw [← h.strays_declaration lifted.isClosure] at hs
  cases hrewrites.mem_strays hs
  case inl hs =>
    exact mem_flatMap_of_mem (mem_of_mem_filter <| hitem ▸ mem_singleton_self _) hs
  case inr htaken =>
    have ⟨_, hb, g, hg, hmem, hs⟩ := htaken
    have hlt : g.arrow.arrowCount < h.arrow.arrowCount :=
      Nat.lt_of_le_of_lt (Node.le_of_mem_subtrees Node.arrowCount_le_mk _ hmem) <|
        Hoisted.arrowCount_declaration_lt lifted.isClosure
    exact mem_strays_of_hoisted hb hg hs
termination_by h.arrow.arrowCount

theorem mem_strays_of_mem (hs : s ∈ p.strays) : s ∈ (p.memoize c).program.strays := by
  have ⟨item, hitem, hs⟩ := mem_flatMap.mp hs
  have ⟨n, hn, hkept⟩ := exists_related (p.placed c).kept hitem
  cases hkept.rewrites.mem_strays hs
  case inl hs => exact mem_flatMap_of_mem (mem_of_mem_filter hn) hs
  case inr htaken =>
    have ⟨_, hb, _, hh, _, hs⟩ := htaken
    exact mem_strays_of_hoisted hb hh hs

theorem mem_strays_of_nodeOf {y : Emitted} (hy : y ∈ (p.expansion c.dedupeCaptures).2.items)
    (hs : s ∈ (p.nodeOf c y).strays false) :
    s ∈ p.strays ∨ ∃ b ∈ p.bindings c.dedupeCaptures, ∃ h ∈ b.hoisted, s ∈ h.arrow.strays false := by
  have ⟨item, hitem, harises⟩ := arisesFrom_of_mem_expansion hy
  cases harises with
  | binder => nomatch hs
  | closure lifted hused hbs =>
    have ⟨b, hb, hh⟩ := hused
    have hs := (Node.visit_rewrites c.dedupeCaptures _ _ hbs).strays_sublist.subset hs
    exact .inr ⟨b, hb, _, hh, Hoisted.strays_declaration _ lifted.isClosure ▸ hs⟩
  | own hbs =>
    have hs := (Node.visit_rewrites c.dedupeCaptures _ _ hbs).strays_sublist.subset hs
    exact .inl <| mem_flatMap_of_mem hitem hs

theorem mem_strays_memoize :
    s ∈ (p.memoize c).program.strays ↔
      s ∈ p.strays ∨ ∃ b ∈ p.bindings c.dedupeCaptures, ∃ h ∈ b.hoisted, s ∈ h.arrow.strays false := by
  constructor
  case mp =>
    intro hs
    have ⟨n, hn, hs⟩ := mem_flatMap.mp hs
    rw [memoize_body_eq, mem_append] at hn
    cases hn
    case inl hn => nomatch strays_import hn ▸ hs
    case inr hn =>
      have ⟨y, hy, heq⟩ := mem_map.mp hn
      subst heq
      exact mem_strays_of_nodeOf hy hs
  case mpr =>
    rintro (hs | ⟨b, hb, h, hh, hs⟩)
    · exact mem_strays_of_mem hs
    · exact mem_strays_of_hoisted hb hh hs

theorem strays_memoize_eq_nil_iff :
    (p.memoize c).program.strays = [] ↔
      p.strays = [] ∧ ∀ b ∈ p.bindings c.dedupeCaptures, ∀ h ∈ b.hoisted, h.arrow.strays false = [] := by
  constructor
  case mp =>
    intro hnil
    have hnone (s : Label) := hnil ▸ not_mem_nil (a := s)
    refine ⟨eq_nil_iff_forall_not_mem.mpr fun s hs => ?_, fun b hb h hh => ?_⟩
    · exact hnone s <| mem_strays_memoize.mpr <| .inl hs
    · refine eq_nil_iff_forall_not_mem.mpr fun s hs => ?_
      exact hnone s <| mem_strays_memoize.mpr <| .inr ⟨b, hb, h, hh, hs⟩
  case mpr =>
    intro ⟨hp, hclosures⟩
    refine eq_nil_iff_forall_not_mem.mpr fun s hs => ?_
    rcases mem_strays_memoize.mp hs with hs | ⟨b, hb, h, hh, hs⟩
    · nomatch hp ▸ hs
    · nomatch hclosures b hb h hh ▸ hs

-- What becomes of `super`.
structure MovesSupers (p : Program) (c : Config) : Prop where
  -- In a result, those occurrences belong to nothing that did so before, and those that are hoisted with a
  -- closure though they belong to something around it.
  strays : ∀ s, s ∈ (p.memoize c).program.strays ↔
    s ∈ p.strays ∨ ∃ b ∈ p.bindings c.dedupeCaptures, ∃ h ∈ b.hoisted, s ∈ h.arrow.strays false
  -- The latter stand in the declarations of closures.
  kept : Forall₂ (fun item n => n.strays false <+ item.strays false) p.body (p.withoutGenerated c)
  declared : ∀ b ∈ p.bindings c.dedupeCaptures, ∀ h ∈ b.hoisted,
    ∃ d, (p.memoize c).program.body.filter (·.introduced? == some h.name) = [d] ∧
      d.strays false <+ h.arrow.strays false
  -- A program in which every occurrence belongs to something is kept so exactly if every closure that is
  -- hoisted holds what its occurrences belong to.
  clean_iff : p.strays = [] →
    ((p.memoize c).program.strays = [] ↔
      ∀ b ∈ p.bindings c.dedupeCaptures, ∀ h ∈ b.hoisted, h.arrow.strays false = [])
  clean : p.strays = [] →
    (∀ item ∈ p.body, ∀ n ∈ item.subtrees, n.label.isClosure = true → n.strays false = []) →
      (p.memoize c).program.strays = []

theorem movesSupers (p : Program) (c : Config) : p.MovesSupers c where
  strays _ := mem_strays_memoize
  kept     := (p.placed c).kept.imp fun _ _ h => h.rewrites.strays_sublist
  declared b hb h hh := by
    have ⟨⟨_, _, lifted⟩, d, hitem, hrewrites⟩ := exists_rewrites hb hh
    refine ⟨d, hitem, ?_⟩
    rw [← h.strays_declaration lifted.isClosure]
    exact hrewrites.strays_sublist
  clean_iff hp := strays_memoize_eq_nil_iff.trans <| and_iff_right hp
  clean hp hclosures := by
    refine strays_memoize_eq_nil_iff.mpr ⟨hp, fun b hb h hh => ?_⟩
    have ⟨⟨root, hroot, lifted⟩, _⟩ := exists_rewrites hb hh
    exact hclosures root hroot h.arrow lifted.mem lifted.isClosure

-- `class A extends B { render() { return <a onClick={() => super.f()}/>; } }`
def inheriting : Program where
  kind := .script
  body :=
    let inherited : Node := .form .superPropExpression []
      [(.obj, .form .superReference [] []), (.property, .propertyName "f")]
    let handler : Node := .arrow [] (.call inherited [])
    let element : Node := .form .jsxElement [] [(.opening, .form .jsxOpeningElement [] [(.name, .named "a"),
      (.attributes, .form .jsxAttribute [] [(.name, .propertyName "onClick"),
        (.value, .form .jsxExpressionContainer [] [(.expression, handler)])])])]
    [.form .classDeclaration [] [(.identifier, .named "A"),
      (.body, .form .classMethod [] [(.key, .propertyName "render"), (.body, .returnBlock element)]),
      (.superClass, .named "B")]]

-- A closure is hoisted though its `super` belongs to the method around it.
theorem not_clean_inheriting :
    ¬ (inheriting.strays = [] → (inheriting.memoize .default).program.strays = []) := by
  decide +kernel

end Program

end RenderMemo
