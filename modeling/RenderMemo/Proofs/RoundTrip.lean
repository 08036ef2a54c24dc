import RenderMemo.Proofs.Hygiene
import RenderMemo.Proofs.Inlining

namespace RenderMemo

-- The names that a run puts into a program.
structure Generated where
  memoize   : String
  binders   : List String
  functions : List String

namespace Generated

def names (g : Generated) : List String := g.memoize :: g.binders ++ g.functions

-- Of the items that a run made, the declarations of closures are called in others.
def learn (g : Generated) (x : String) (declaration : Node) (cs : Closures) : Closures :=
  if g.functions.contains x then (x, declaration) :: cs else cs

end Generated

-- The items without those that a run made. The declarations of closures become known on the way, as
-- they stand in front of the items that they are called in.
def inlineItems (g : Generated) : Closures → List Node → List Node
  | _, [] => []
  | cs, item :: items =>
    let inlined := item.inlined g.binders cs
    match item.introduced?.filter g.names.contains with
    | some x => inlineItems g (g.learn x inlined cs) items
    | none   => inlined :: inlineItems g cs items

namespace Program

-- The names that a run generates and uses.
def generated (p : Program) (dedupe : Bool) : Generated where
  memoize   := (p.expansion dedupe).1
  binders   := (p.bindings dedupe).map Binding.binder
  functions := (p.bindings dedupe).flatMap fun b => b.hoisted.map Hoisted.name

-- The program with everything in place again that goes through a binder.
def inline (g : Generated) (q : Program) : Program :=
  { q with body := inlineItems g [] q.body }

-- What a program is restored to: its items, one by one.
structure Restored (p q : Program) : Prop where
  kind        : q.kind = p.kind
  span        : q.span = p.span
  interpreter : q.interpreter = p.interpreter
  body        : List.Forall₂ RenderMemo.Restored p.body q.body

end Program

-- The items of a result in an order in which they can be undone: when an item is reached, all closures
-- that are called in it are done.
inductive InOrder (bs : List Binding) : List Hoisted → List Emitted → List Node → Prop
  | nil {done : List Hoisted} : InOrder bs done [] []
  | binder {b : Binding} {done : List Hoisted} {xs : List Emitted} {items : List Node} :
      b ∈ bs → InOrder bs done xs items → InOrder bs done (.binder b :: xs) items
  | closure {h : Hoisted} {d : Node} {made : List Binding} {done : List Hoisted} {xs : List Emitted}
      {items : List Node} :
      Rewrites made h.declaration d → made ⊆ bs → (∀ b ∈ made, b.hoisted ⊆ done) →
      InOrder bs (h :: done) xs items → InOrder bs done (.closure h d :: xs) items
  | own {item n : Node} {made : List Binding} {done : List Hoisted} {xs : List Emitted}
      {items : List Node} :
      Rewrites made item n → made ⊆ bs → (∀ b ∈ made, b.hoisted ⊆ done) →
      InOrder bs done xs items → InOrder bs done (.own n :: xs) (item :: items)

-- An expansion is in order, if its own item is in order after everything in front of it.
theorem InOrder.expand {bs : List Binding} {dedupe : Bool} {emit : Node → Emitted} {item : Node}
    {names : Names} {xs : List Emitted} {items : List Node} {done : List Hoisted}
    (hbs : ∀ b, .binder b ∈ (RenderMemo.expand dedupe emit item names).items → b ∈ bs)
    (hlast : ∀ done', done ⊆ done' → (item.visit dedupe names).bindings ⊆ bs →
      (∀ b ∈ (item.visit dedupe names).bindings, b.hoisted ⊆ done') →
      InOrder bs done' (emit (item.visit dedupe names).result :: xs) items) :
    InOrder bs done ((RenderMemo.expand dedupe emit item names).items ++ xs) items := by
  induction emit, item, names using expand_induction dedupe
    (F := fun ps names => ∀ done xs,
      (∀ b, .binder b ∈ (expandPending dedupe ps names).items → b ∈ bs) →
      (∀ done', done ⊆ done' → (∀ h, .closure h ∈ ps → h ∈ done') → InOrder bs done' xs items) →
      InOrder bs done ((expandPending dedupe ps names).items ++ xs) items) generalizing done xs
  case nil done xs _ hxs => exact hxs done (List.Subset.refl _) (by simp)
  case binder b ps names hi done xs hbs hxs =>
    simp only [expandPending, List.mem_cons] at hbs
    refine .binder (hbs b (.inl rfl)) <| hi done xs (fun b hb => hbs b (.inr hb)) ?_
    exact fun done' hdone hps => hxs done' hdone fun h hh => hps h (by simpa using hh)
  case closure h ps names hclosure hi done xs hbs hxs =>
    simp only [expandPending, List.mem_append, List.append_assoc] at hbs ⊢
    refine hclosure (fun b hb => hbs b (.inl hb)) fun done₁ hdone₁ hvisit hhoisted => ?_
    refine .closure (h.declaration.visit_rewrites dedupe names (List.Subset.refl _)) hvisit hhoisted ?_
    refine hi _ xs (fun b hb => hbs b (.inr hb)) fun done₂ hdone₂ hps => ?_
    obtain ⟨hh, hdone₂⟩ := List.cons_subset.mp hdone₂
    refine hxs done₂ (List.Subset.trans hdone₁ hdone₂) fun g hg => ?_
    cases List.mem_cons.mp hg
    case inl heq => exact Pending.closure.inj heq ▸ hh
    case inr hg  => exact hps g hg
  case item emit item names hi =>
    rw [expand_eq] at hbs ⊢
    simp only [List.mem_append, List.append_assoc, List.singleton_append] at hbs ⊢
    have hvisit : (item.visit dedupe names).bindings ⊆ bs := fun b hb =>
      hbs b <| .inl <| Pending.binder_mem_expandPending <| Pending.binder_mem_ofBindings.mpr hb
    refine hi done _ (fun b hb => hbs b (.inl hb)) fun done' hdone hps => ?_
    refine hlast done' hdone hvisit fun b hb h hh => hps h ?_
    exact Pending.closure_mem_ofBindings.mpr ⟨b, hb, hh⟩

theorem InOrder.expandItems {bs : List Binding} {dedupe : Bool} {items : List Node} {names : Names}
    {done : List Hoisted} (hbs : ∀ b, .binder b ∈ (RenderMemo.expandItems dedupe items names).items → b ∈ bs) :
    InOrder bs done (RenderMemo.expandItems dedupe items names).items items := by
  induction items generalizing names done
  case nil => exact .nil
  case cons item items hi =>
    simp only [RenderMemo.expandItems, List.mem_append] at hbs ⊢
    refine .expand (fun b hb => hbs b (.inl hb)) fun done' _ hvisit hhoisted => ?_
    exact .own (item.visit_rewrites dedupe names (List.Subset.refl _)) hvisit hhoisted <|
      hi fun b hb => hbs b (.inr hb)

section

variable {g : Generated} {cs : Closures} {done : List Hoisted} {item declaration : Node} {items : List Node}
  {x y : String}

theorem inlineItems_of_generated (hi : item.introduced? = some x) (hx : x ∈ g.names) :
    inlineItems g cs (item :: items) =
      inlineItems g (g.learn x (item.inlined g.binders cs) cs) items := by
  rw [inlineItems, hi, Option.filter_some_pos (by simpa using hx)]

theorem inlineItems_of_own (hi : ∀ x, item.introduced? = some x → x ∉ g.names) :
    inlineItems g cs (item :: items) = item.inlined g.binders cs :: inlineItems g cs items := by
  have hnone : item.introduced?.filter g.names.contains = none := by
    cases hx : item.introduced?
    case none   => rfl
    case some x => exact Option.filter_some_neg (by simpa using hi x hx)
  rw [inlineItems, hnone]

theorem Generated.lookup_learn_of_ne (hy : y ≠ x) :
    (g.learn x declaration cs).lookup y = cs.lookup y := by
  unfold learn
  split
  case isTrue  => rw [List.lookup_cons, beq_false_of_ne hy]
  case isFalse => rfl

theorem Generated.lookup_learn_self (hx : x ∈ g.functions) :
    (g.learn x declaration cs).lookup x = some declaration := by
  simp [learn, hx]

-- What is known while items are undone: the closures that are done, and only names of the run.
structure Generated.Knows (g : Generated) (cs : Closures) (done : List Hoisted) : Prop where
  closure : ∀ h ∈ done, h.KnownIn cs
  only    : ∀ x, x ∉ g.names → cs.lookup x = none

namespace Generated.Knows

theorem learn (h : g.Knows cs done) (hx : x ∈ g.names) (hdone : x ∉ done.map Hoisted.name) :
    g.Knows (g.learn x declaration cs) done where
  closure := by
    intro c hc
    obtain ⟨d, hd, hrestored⟩ := h.closure c hc
    have hne : c.name ≠ x := fun heq => hdone <| List.mem_map.mpr ⟨c, hc, heq⟩
    exact ⟨d, (lookup_learn_of_ne hne).trans hd, hrestored⟩
  only := by
    intro y hy
    have hne : y ≠ x := fun heq => hy (heq ▸ hx)
    exact (lookup_learn_of_ne hne).trans (h.only y hy)

theorem learn_closure {c : Hoisted} (h : g.Knows cs done) (hx : c.name ∈ g.functions)
    (hdone : c.name ∉ done.map Hoisted.name)
    (hc : Restored c.arrow (declaration.arrowOf c.arrow.span c.captured.length)) :
    g.Knows (g.learn c.name declaration cs) (c :: done) where
  closure := by
    intro c' hc'
    cases List.mem_cons.mp hc'
    case inl heq =>
      subst heq
      exact ⟨declaration, lookup_learn_self hx, hc⟩
    case inr hc' => exact (h.learn (List.mem_append_right _ hx) hdone).closure c' hc'
  only := (h.learn (List.mem_append_right _ hx) hdone).only

theorem foreignTo {i : Ident} (h : g.Knows cs done) (hi : i.name ∉ g.names) : i.ForeignTo g.binders cs where
  left  := fun hm => hi <| List.mem_append_left _ <| List.mem_cons_of_mem _ hm
  right := h.only _ hi

theorem undoes {made : List Binding} (h : g.Knows cs done) (hbinders : ∀ b ∈ made, b.binder ∈ g.binders)
    (hdone : ∀ b ∈ made, b.hoisted ⊆ done) : Undoes g.binders cs made where
  binder  := hbinders
  closure := fun b hb _ hh => h.closure _ <| hdone b hb hh

end Generated.Knows

end

namespace Program

variable {p : Program} {dedupe : Bool} {b : Binding} {h : Hoisted}

theorem binder_mem_generated (hb : b ∈ p.bindings dedupe) : b.binder ∈ (p.generated dedupe).binders :=
  List.mem_map_of_mem hb

theorem name_mem_generated (hb : b ∈ p.bindings dedupe) (hh : h ∈ b.hoisted) :
    h.name ∈ (p.generated dedupe).functions :=
  List.mem_flatMap.mpr ⟨b, hb, List.mem_map_of_mem hh⟩

theorem names_generated_subset : (p.generated dedupe).names ⊆ p.generatedNames dedupe := by
  have ⟨_, _, hp, _⟩ := p.generatedNames_account dedupe
  refine List.append_subset.mpr ⟨List.cons_subset.mpr ⟨?_, ?_⟩, ?_⟩
  · exact hp.mem_iff.mpr List.mem_cons_self
  · exact List.forall_mem_map.mpr fun b hb => names_subset_generatedNames hb List.mem_cons_self
  · intro x hx
    have ⟨b, hb, hx⟩ := List.mem_flatMap.mp hx
    exact names_subset_generatedNames hb <| List.mem_cons_of_mem _ hx

theorem not_mem_names_generated {item : Node} {i : Ident} (hitem : item ∈ p.body) (hi : i ∈ item.idents) :
    i.name ∉ (p.generated dedupe).names :=
  fun hm => not_mem_generatedNames (List.mem_flatMap.mpr ⟨item, hitem, hi⟩) (names_generated_subset hm)

end Program

theorem InOrder.restored {p : Program} {dedupe : Bool} {done : List Hoisted} {xs : List Emitted}
    {items : List Node} {cs : Closures} (memoize : String) (cacheSize : UInt64)
    (h : InOrder (p.bindings dedupe) done xs items) (hknows : (p.generated dedupe).Knows cs done)
    (hnodup : (xs.flatMap Emitted.introduces ++ done.map Hoisted.name).Nodup)
    (hxs : ∀ x ∈ xs, ∃ item ∈ p.body, x.ArisesFrom dedupe item (p.bindings dedupe))
    (hitems : items ⊆ p.body) :
    List.Forall₂ Restored items (inlineItems (p.generated dedupe) cs (xs.map (·.node memoize cacheSize))) := by
  induction h generalizing cs
  case nil => exact .nil
  case binder b done xs items hb _ hi =>
    have hx : b.binder ∈ (p.generated dedupe).names :=
      List.mem_append_left _ <| List.mem_cons_of_mem _ <| Program.binder_mem_generated hb
    have ⟨hdone, hnodup⟩ := List.nodup_cons.mp hnodup
    rw [List.map_cons, inlineItems_of_generated (x := b.binder) rfl hx]
    refine hi (hknows.learn hx fun hm => hdone <| List.mem_append_right _ hm) hnodup ?_ hitems
    exact fun x hx => hxs x <| List.mem_cons_of_mem _ hx
  case closure h d made done xs items hd hmade hhoisted _ hi =>
    have ⟨item, hitem, harises⟩ := hxs _ List.mem_cons_self
    have ⟨es, hn, _⟩ := hd.of_declaration
    have hname : d.introduced? = some h.name := hn ▸ rfl
    cases harises
    case closure lifted hused _ =>
      have ⟨b, hb, hh⟩ := hused
      have hx := Program.name_mem_generated hb hh
      have hdone : h.name ∉ done.map Hoisted.name :=
        fun hm => (List.nodup_cons.mp hnodup).1 <| List.mem_append_right _ hm
      have hundoes := hknows.undoes (fun b hb => Program.binder_mem_generated (hmade hb)) hhoisted
      have hrestored := hd.restored_arrow lifted.isClosure hundoes fun i hi =>
        hknows.foreignTo <| Program.not_mem_names_generated hitem <| lifted.idents_declaredEdges_subset hi
      rw [List.map_cons, Emitted.node, inlineItems_of_generated hname (List.mem_append_right _ hx)]
      refine hi (hknows.learn_closure hx hdone hrestored) (List.perm_middle.nodup_iff.mpr hnodup) ?_ hitems
      exact fun x hx => hxs x <| List.mem_cons_of_mem _ hx
  case own item n made done xs items hn hmade hhoisted _ hi =>
    have ⟨hitem, hitems⟩ := List.cons_subset.mp hitems
    rw [List.map_cons, inlineItems_of_own]
    · refine .cons ?_ <| hi hknows hnodup (fun x hx => hxs x <| List.mem_cons_of_mem _ hx) hitems
      refine hn.restored (hknows.undoes (fun b hb => Program.binder_mem_generated (hmade hb)) hhoisted) ?_
      exact fun i hi => hknows.foreignTo <| Program.not_mem_names_generated hitem hi
    · intro x hx
      have hx := hn.nonReferences_subset <| Node.introduced?_mem_nonReferences hx
      have ⟨i, hi, hname⟩ := List.mem_map.mp <| item.nonReferences_subset hx
      exact hname ▸ Program.not_mem_names_generated hitem hi

namespace Program

variable {p : Program} {dedupe : Bool}

-- No two items of a result bring the same generated name into scope.
theorem nodup_introduces : ((p.expansion dedupe).2.items.flatMap Emitted.introduces).Nodup := by
  have ⟨hands, _, hp, _⟩ := p.generatedNames_account dedupe
  have hnodup := (List.nodup_cons.mp <| hp.nodup_iff.mp hands.nodup).2
  exact (expandItems_introduces ..).nodup_iff.mpr hnodup.of_append_left

-- The items of a result are undone with any knowledge of names that no closure has.
theorem restored_inlineItems {memoize : String} {cacheSize : UInt64} {cs : Closures}
    (h : (p.generated dedupe).Knows cs []) :
    List.Forall₂ RenderMemo.Restored p.body
      (inlineItems (p.generated dedupe) cs
        ((p.expansion dedupe).2.items.map (·.node memoize cacheSize))) := by
  have horder : InOrder (p.bindings dedupe) [] (p.expansion dedupe).2.items p.body :=
    .expandItems fun _ => Expansion.mem_bindings.mpr
  refine horder.restored memoize cacheSize h ?_ (fun _ => arisesFrom_of_mem_expansion) (List.Subset.refl _)
  simpa using nodup_introduces

theorem introduced?_memoizeImport {kind : ProgramKind} {c : Config} {memoize : String} :
    (memoizeImport kind c memoize).introduced? = some memoize := by
  unfold memoizeImport
  split <;> rfl

-- To undo a run is to restore the program.
theorem restored_inline (p : Program) (c : Config) :
    p.Restored ((p.memoize c).program.inline (p.generated c.dedupeCaptures)) where
  kind        := rfl
  span        := rfl
  interpreter := rfl
  body        := by
    have hknows : (p.generated c.dedupeCaptures).Knows [] [] := ⟨by simp, by simp⟩
    have hmemoize : (p.expansion c.dedupeCaptures).1 ∈ (p.generated c.dedupeCaptures).names :=
      List.mem_cons_self
    rw [inline, memoize_body_eq, imports]
    split
    case isTrue =>
      rw [List.singleton_append, inlineItems_of_generated introduced?_memoizeImport hmemoize]
      exact restored_inlineItems <| hknows.learn hmemoize (by simp)
    case isFalse => exact restored_inlineItems hknows

end Program

end RenderMemo
