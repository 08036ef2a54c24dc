import RenderMemo.Memoize
import RenderMemo.Proofs.Rewriting

namespace RenderMemo

-- Adds what becomes of a binder or a closure to what is done.
def Expansion.add (dedupe : Bool) (done : Expansion) : Pending → Expansion
  | .binder b => { done with items := done.items ++ [.binder b] }
  | .closure h =>
    let closure := expand dedupe (.closure h) h.declaration done.names
    { items    := done.items ++ closure.items
      detected := done.detected + closure.detected
      names    := closure.names }

-- Expands the binders and closures in front of an item.
def expandPending (dedupe : Bool) : List Pending → Names → Expansion
  | [], names => ⟨[], 0, names⟩
  | .binder b :: ps, names =>
    let rest := expandPending dedupe ps names
    { rest with items := .binder b :: rest.items }
  | .closure h :: ps, names =>
    let first := expand dedupe (.closure h) h.declaration names
    let rest := expandPending dedupe ps first.names
    ⟨first.items ++ rest.items, first.detected + rest.detected, rest.names⟩

theorem foldl_add_eq (dedupe : Bool) (ps : List Pending) (done : Expansion) :
    ps.foldl (Expansion.add dedupe) done =
      let front := expandPending dedupe ps done.names
      ⟨done.items ++ front.items, done.detected + front.detected, front.names⟩ := by
  induction ps generalizing done
  case nil => simp [expandPending]
  case cons p ps hi => cases p <;> simp [expandPending, Expansion.add, hi, Nat.add_assoc]

-- The binders and closures that a visit puts in front of a tree.
def Node.pending (dedupe : Bool) (n : Node) (names : Names) : List Pending :=
  Pending.ofBindings (n.visit dedupe names).bindings

section

variable {dedupe : Bool} {emit : Node → Emitted} {item : Node} {names : Names}

theorem expand_eq_foldl :
    expand dedupe emit item names =
      let done := (item.pending dedupe names).foldl (Expansion.add dedupe)
        ⟨[], (item.visit dedupe names).detected, (item.visit dedupe names).names⟩
      { done with items := done.items ++ [emit (item.visit dedupe names).result] } := by
  have hattach (ps : List Pending) (step : Expansion → { p // p ∈ ps } → Expansion)
      (hstep : ∀ done p, step done p = Expansion.add dedupe done p.1) (done : Expansion) :
      ps.attach.foldl step done = ps.foldl (Expansion.add dedupe) done := by
    rw [← List.foldl_attach (f := Expansion.add dedupe), funext₂ hstep]
  rw [expand, hattach]
  case hstep =>
    rintro done ⟨_ | _, _⟩ <;> rfl
  rfl

theorem expand_eq :
    expand dedupe emit item names =
      let visit := item.visit dedupe names
      let front := expandPending dedupe (item.pending dedupe names) visit.names
      ⟨front.items ++ [emit visit.result], visit.detected + front.detected, front.names⟩ := by
  rw [expand_eq_foldl, foldl_add_eq]
  simp

end

-- What holds of an item as soon as it holds of the closures that a visit lifts out of it holds of
-- every item. The closures are expanded in order, each one with the names that the others left.
theorem expand_induction (dedupe : Bool) {P : (Node → Emitted) → Node → Names → Prop}
    {F : List Pending → Names → Prop}
    (nil : ∀ names, F [] names)
    (binder : ∀ b ps names, F ps names → F (.binder b :: ps) names)
    (closure : ∀ h ps names, P (.closure h) h.declaration names →
      F ps (expand dedupe (.closure h) h.declaration names).names → F (.closure h :: ps) names)
    (item : ∀ emit item names,
      F (item.pending dedupe names) (item.visit dedupe names).names → P emit item names)
    (emit : Node → Emitted) (n : Node) (names : Names) : P emit n names := by
  have hfront (ps : List Pending) (names : Names)
      (hclosure : ∀ h, .closure h ∈ ps → ∀ names, P (.closure h) h.declaration names) :
      F ps names := by
    induction ps generalizing names
    case nil => exact nil names
    case cons p ps hi =>
      have hrest names := hi names fun h hm => hclosure h (List.mem_cons_of_mem _ hm)
      cases p
      case binder b  => exact binder b ps names (hrest names)
      case closure h => exact closure h ps names (hclosure h List.mem_cons_self names) (hrest _)
  refine item emit n names (hfront _ _ fun h hm closureNames => ?_)
  have ⟨b, hb, hh⟩ := Pending.exists_of_closure_mem hm
  have := Node.visit_arrowCount_lt n names hb hh
  exact expand_induction dedupe nil binder closure item (.closure h) h.declaration closureNames
termination_by n.arrowCount

theorem Expansion.mem_bindings {e : Expansion} {b : Binding} :
    b ∈ e.bindings ↔ .binder b ∈ e.items := by
  simp only [bindings, List.mem_filterMap]
  constructor
  case mp =>
    intro ⟨x, hx, hb⟩
    cases x <;> simp [Emitted.binding?] at hb
    exact hb ▸ hx
  case mpr => exact fun h => ⟨_, h, rfl⟩

namespace Pending

variable {bs : List Binding} {b : Binding}

theorem binder_mem_ofBindings : .binder b ∈ ofBindings bs ↔ b ∈ bs := by
  simp [ofBindings]

theorem closure_mem_ofBindings {h : Hoisted} : .closure h ∈ ofBindings bs ↔ ∃ b ∈ bs, h ∈ b.hoisted := by
  simp [ofBindings]

theorem binder_mem_expandPending {dedupe : Bool} {ps : List Pending} {names : Names}
    (h : .binder b ∈ ps) : .binder b ∈ (expandPending dedupe ps names).items := by
  induction ps generalizing names
  case nil => simp at h
  case cons p ps hi =>
    cases p
    case binder =>
      simp only [expandPending, List.mem_cons, binder.injEq, Emitted.binder.injEq] at h ⊢
      exact h.imp_right (hi ·)
    case closure =>
      simp only [expandPending, List.mem_cons, reduceCtorEq, false_or, List.mem_append] at h ⊢
      exact .inr (hi h)

end Pending

-- An item of the result comes from an item of the program: it is the binder of one of the bindings, a
-- visited closure that was lifted out of the item, or the visited item itself.
inductive Emitted.ArisesFrom (dedupe : Bool) (root : Node) (bs : List Binding) : Emitted → Prop
  | binder {b : Binding} : b ∈ bs → ArisesFrom dedupe root bs (.binder b)
  | closure {h : Hoisted} {names : Names} :
      h.LiftedFrom dedupe root → (∃ b ∈ bs, h ∈ b.hoisted) →
      (h.declaration.visit dedupe names).bindings ⊆ bs →
      ArisesFrom dedupe root bs (.closure h (h.declaration.visit dedupe names).result)
  | own {names : Names} :
      (root.visit dedupe names).bindings ⊆ bs →
      ArisesFrom dedupe root bs (.own (root.visit dedupe names).result)

theorem Hoisted.LiftedFrom.of_declaration {h g : Hoisted} {dedupe : Bool} {n : Node}
    (lifted : h.LiftedFrom dedupe n) (hg : g.LiftedFrom dedupe h.declaration) :
    g.LiftedFrom dedupe n where
  mem         := by
    have hs : (g.arrow.label.isClosure || g.arrow.isBindCall) = true := by rw [hg.isClosure, Bool.true_or]
    exact Node.subtrees_trans (mem_subtrees_of_declaration hg.mem hs) n lifted.mem
  isClosure   := hg.isClosure
  captured_eq := hg.captured_eq

-- The items in front of an item are carried through the induction with the item that it is about:
-- what is lifted out of a closure is lifted out of the item that the closure was lifted out of.
theorem arisesFrom_of_mem_expand {dedupe : Bool} {root : Node} {bs : List Binding} {emit : Node → Emitted}
    {item : Node} {names : Names} {x : Emitted}
    (hlift : ∀ h : Hoisted, h.LiftedFrom dedupe item → h.LiftedFrom dedupe root)
    (hlast : ∀ names, (item.visit dedupe names).bindings ⊆ bs →
      (emit (item.visit dedupe names).result).ArisesFrom dedupe root bs)
    (hbs : ∀ b, .binder b ∈ (expand dedupe emit item names).items → b ∈ bs)
    (hx : x ∈ (expand dedupe emit item names).items) : x.ArisesFrom dedupe root bs := by
  induction emit, item, names using expand_induction dedupe
    (F := fun ps names =>
      (∀ h, .closure h ∈ ps → h.LiftedFrom dedupe root ∧ ∃ b ∈ bs, h ∈ b.hoisted) →
      (∀ b, .binder b ∈ (expandPending dedupe ps names).items → b ∈ bs) →
      x ∈ (expandPending dedupe ps names).items → x.ArisesFrom dedupe root bs)
  case nil hx => simp [expandPending] at hx
  case binder b ps names hi hps hbs hx =>
    simp only [expandPending, List.mem_cons] at hps hbs hx
    cases hx
    case inl hx => exact hx ▸ .binder (hbs b (.inl rfl))
    case inr hx => exact hi (fun h hm => hps h (.inr hm)) (fun b hm => hbs b (.inr hm)) hx
  case closure h ps names hclosure hi hps hbs hx =>
    simp only [expandPending, List.mem_cons, List.mem_append] at hps hbs hx
    obtain ⟨lifted, hused⟩ := hps h (.inl rfl)
    cases hx
    case inl hx =>
      refine hclosure (fun _ => lifted.of_declaration) (fun _ => .closure lifted hused) ?_ hx
      exact fun b hm => hbs b (.inl hm)
    case inr hx => exact hi (fun h hm => hps h (.inr hm)) (fun b hm => hbs b (.inr hm)) hx
  case item emit item names hi =>
    simp only [expand_eq, List.mem_append, List.mem_singleton] at hbs hx
    have hvisit : (item.visit dedupe names).bindings ⊆ bs := fun b hb =>
      hbs b <| .inl <| Pending.binder_mem_expandPending <| Pending.binder_mem_ofBindings.mpr hb
    cases hx
    case inl hx =>
      refine hi (fun h hm => ?_) (fun b hm => hbs b (.inl hm)) hx
      obtain ⟨b, hb, hh⟩ := Pending.exists_of_closure_mem hm
      exact ⟨hlift h (Node.lifted_of_mem_visit hh item names hb), b, hvisit hb, hh⟩
    case inr hx => exact hx ▸ hlast names hvisit

namespace Program

-- All bindings of a run.
def bindings (p : Program) (dedupe : Bool) : List Binding := (p.expansion dedupe).2.bindings

theorem arisesFrom_of_mem_expandItems {dedupe : Bool} {x : Emitted} {bs : List Binding}
    {items : List Node} {names : Names}
    (hbs : ∀ b, .binder b ∈ (expandItems dedupe items names).items → b ∈ bs)
    (hx : x ∈ (expandItems dedupe items names).items) :
    ∃ item ∈ items, x.ArisesFrom dedupe item bs := by
  induction items generalizing names
  case nil => simp [expandItems] at hx
  case cons item items hi =>
    simp only [expandItems, List.mem_append] at hbs hx
    cases hx
    case inl hx =>
      refine ⟨item, List.mem_cons_self, ?_⟩
      exact arisesFrom_of_mem_expand (fun _ h => h) (fun _ => .own) (fun b hb => hbs b (.inl hb)) hx
    case inr hx =>
      obtain ⟨n, hn, h⟩ := hi (fun b hb => hbs b (.inr hb)) hx
      exact ⟨n, List.mem_cons_of_mem _ hn, h⟩

-- Every item of the result of a run comes from an item of the program.
theorem arisesFrom_of_mem_expansion {p : Program} {dedupe : Bool} {x : Emitted}
    (hx : x ∈ (p.expansion dedupe).2.items) :
    ∃ item ∈ p.body, x.ArisesFrom dedupe item (p.bindings dedupe) :=
  arisesFrom_of_mem_expandItems (fun _ => Expansion.mem_bindings.mpr) hx

section

variable {p : Program} {c : Config} {n : Node}

-- The item that brings the memoize function into scope, if anything goes through a binder.
def imports (p : Program) (c : Config) : List Node :=
  if (p.memoize c).report.importInserted then
    [memoizeImport p.kind c (p.expansion c.dedupeCaptures).1]
  else []

theorem memoize_body_eq :
    (p.memoize c).program.body =
      p.imports c ++
        (p.expansion c.dedupeCaptures).2.items.map (·.node (p.expansion c.dedupeCaptures).1 c.cacheSize) := by
  simp only [memoize, imports]
  split
  case isTrue h  => simp [h]
  case isFalse h => simp [h]

theorem mem_memoize_body (h : n ∈ (p.memoize c).program.body) :
    n = memoizeImport p.kind c (p.expansion c.dedupeCaptures).1 ∨
    ∃ x ∈ (p.expansion c.dedupeCaptures).2.items,
      x.node (p.expansion c.dedupeCaptures).1 c.cacheSize = n := by
  rw [memoize_body_eq, List.mem_append] at h
  refine h.imp (fun h => ?_) List.mem_map.mp
  simp only [imports] at h
  split at h
  case isTrue  => exact List.mem_singleton.mp h
  case isFalse => simp at h

end

end Program

end RenderMemo
