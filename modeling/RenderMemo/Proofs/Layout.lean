import RenderMemo.Proofs.Hygiene
import RenderMemo.Proofs.Owners
import RenderMemo.Proofs.Uses

open List

namespace RenderMemo

-- What a top-level item is expanded to. In front of the item itself stand the binders of its functions,
-- and behind each binder the closures that go through it. A closure is a top-level item of its own, so
-- it stands behind everything that it is expanded to.
mutual

inductive Expands (dedupe : Bool) : (Node → Emitted) → Node → List Emitted → Prop
  | item {emit : Node → Emitted} {n n' : Node} {bs : List Binding} {us : List Use}
      {front : List Emitted} :
      Forall₂ (Binding.BelongsTo dedupe) bs n.owners → ExpandsBindings dedupe bs front →
      RewritesBy us n n' → us ~ bs.flatMap Binding.uses →
      Expands dedupe emit n (front ++ [emit n'])

inductive ExpandsBindings (dedupe : Bool) : List Binding → List Emitted → Prop
  | nil : ExpandsBindings dedupe [] []
  | cons {b : Binding} {bs : List Binding} {xs ys : List Emitted} :
      ExpandsClosures dedupe b.hoisted xs → ExpandsBindings dedupe bs ys →
      ExpandsBindings dedupe (b :: bs) (.binder b :: xs ++ ys)

inductive ExpandsClosures (dedupe : Bool) : List Hoisted → List Emitted → Prop
  | nil : ExpandsClosures dedupe [] []
  | cons {h : Hoisted} {hs : List Hoisted} {xs ys : List Emitted} :
      Expands dedupe (.closure h) h.declaration xs → ExpandsClosures dedupe hs ys →
      ExpandsClosures dedupe (h :: hs) (xs ++ ys)

end

-- The pending closures of a binder that was already put out come before the other binders.
theorem expand_expands (dedupe : Bool) (emit : Node → Emitted) (item : Node) (names : Names) :
    Expands dedupe emit item (expand dedupe emit item names).items := by
  induction emit, item, names using expand_induction dedupe
    (F := fun ps names => ∀ hs bs, ps = hs.map .closure ++ Pending.ofBindings bs →
      ∃ xs ys, (expandPending dedupe ps names).items = xs ++ ys ∧
        ExpandsClosures dedupe hs xs ∧ ExpandsBindings dedupe bs ys)
  case nil hs bs hps =>
    obtain ⟨hhs, hbs⟩ := append_eq_nil_iff.mp hps.symm
    cases map_eq_nil_iff.mp hhs
    cases bs
    case nil  => exact ⟨[], [], rfl, .nil, .nil⟩
    case cons => simp [Pending.ofBindings] at hbs
  case binder b ps names hi hs bs hps =>
    cases hs
    case cons => simp at hps
    case nil =>
      cases bs
      case nil => simp [Pending.ofBindings] at hps
      case cons b' bs =>
        simp only [Pending.ofBindings, flatMap_cons, map_nil, nil_append, cons_append, cons.injEq,
          Pending.binder.injEq] at hps
        obtain ⟨hb, hps⟩ := hps
        subst hb
        obtain ⟨xs, ys, hitems, hclosures, hbindings⟩ := hi b.hoisted bs hps
        exact ⟨[], _, by simp [expandPending, hitems], .nil, .cons hclosures hbindings⟩
  case closure h ps names hclosure hi hs bs hps =>
    cases hs
    case nil => cases bs <;> simp [Pending.ofBindings] at hps
    case cons h' hs =>
      simp only [map_cons, cons_append, cons.injEq, Pending.closure.injEq] at hps
      obtain ⟨hh, hps⟩ := hps
      subst hh
      obtain ⟨xs, ys, hitems, hclosures, hbindings⟩ := hi hs bs hps
      exact ⟨_, ys, by simp [expandPending, hitems], .cons hclosure hclosures, hbindings⟩
  case item emit item names hi =>
    obtain ⟨xs, ys, hitems, hclosures, hbindings⟩ := hi [] (item.visit dedupe names).bindings rfl
    obtain ⟨us, hrewrites, hp⟩ := item.visit_by dedupe names
    cases hclosures
    simp only [expand_eq, hitems, nil_append]
    exact .item (item.visit_bindings dedupe names) hbindings hrewrites hp

-- The items of a program are expanded one by one.
theorem expandItems_expands (dedupe : Bool) (items : List Node) (names : Names) :
    ∃ groups, Forall₂ (Expands dedupe .own) items groups ∧
      (expandItems dedupe items names).items = groups.flatten := by
  induction items generalizing names
  case nil => exact ⟨[], .nil, rfl⟩
  case cons item items hi =>
    obtain ⟨groups, hgroups, hitems⟩ := hi (expand dedupe .own item names).names
    refine ⟨_, .cons (expand_expands dedupe .own item names) hgroups, ?_⟩
    simp [expandItems, hitems]

namespace Emitted

def own? : Emitted → Option Node
  | own item => some item
  | _ => none

-- The bindings whose binders are among the items.
def bindings (xs : List Emitted) : List Binding := xs.filterMap binding?

@[simp]
theorem bindings_append (xs ys : List Emitted) : bindings (xs ++ ys) = bindings xs ++ bindings ys :=
  filterMap_append

@[simp]
theorem bindings_cons_binder (b : Binding) (xs : List Emitted) :
    bindings (.binder b :: xs) = b :: bindings xs :=
  rfl

theorem bindings_append_last {emit : Node → Emitted} {n : Node} {xs : List Emitted}
    (hemit : ∀ n, (emit n).binding? = none) : bindings (xs ++ [emit n]) = bindings xs := by
  rw [bindings_append, bindings, bindings, filterMap_cons_none (hemit n), filterMap_nil, append_nil]

end Emitted

theorem Binding.length_names (b : Binding) : b.names.length = b.hoisted.length + 1 := by
  simp [names]

-- An expansion has one item for every binder and closure, and its last item.
mutual

theorem Expands.length_eq {dedupe : Bool} {emit : Node → Emitted} {n : Node} {xs : List Emitted}
    (hemit : ∀ n, (emit n).binding? = none) : Expands dedupe emit n xs →
      xs.length = ((Emitted.bindings xs).flatMap Binding.names).length + 1
  | .item _ hbindings _ _ => by
    rw [Emitted.bindings_append_last hemit, length_append, hbindings.length_eq]
    rfl

theorem ExpandsBindings.length_eq {dedupe : Bool} {bs : List Binding} {xs : List Emitted} :
    ExpandsBindings dedupe bs xs → xs.length = ((Emitted.bindings xs).flatMap Binding.names).length
  | .nil => rfl
  | .cons hclosures hbindings => by
    have hfirst := hclosures.length_eq
    have hrest := hbindings.length_eq
    simp only [cons_append, Emitted.bindings_cons_binder, Emitted.bindings_append, flatMap_cons,
      flatMap_append, length_cons, length_append, Binding.length_names]
    omega

theorem ExpandsClosures.length_eq {dedupe : Bool} {hs : List Hoisted} {xs : List Emitted} :
    ExpandsClosures dedupe hs xs →
      xs.length = ((Emitted.bindings xs).flatMap Binding.names).length + hs.length
  | .nil => rfl
  | .cons hclosure hclosures => by
    have hfirst := hclosure.length_eq fun _ => rfl
    have hrest := hclosures.length_eq
    simp only [Emitted.bindings_append, flatMap_append, length_append, length_cons]
    omega

end

-- In front of an item stand binders and closures only.
mutual

theorem Expands.filterMap_own? {dedupe : Bool} {emit : Node → Emitted} {n : Node} {xs : List Emitted}
    (hemit : ∀ n, (emit n).own? = none) : Expands dedupe emit n xs → xs.filterMap Emitted.own? = []
  | .item _ hbindings _ _ => by
    rw [filterMap_append, hbindings.filterMap_own?, filterMap_cons_none (hemit _)]
    rfl

theorem ExpandsBindings.filterMap_own? {dedupe : Bool} {bs : List Binding} {xs : List Emitted} :
    ExpandsBindings dedupe bs xs → xs.filterMap Emitted.own? = []
  | .nil => rfl
  | .cons hclosures hbindings => by
    rw [cons_append, filterMap_cons_none rfl, filterMap_append, hclosures.filterMap_own?,
      hbindings.filterMap_own?, append_nil]

theorem ExpandsClosures.filterMap_own? {dedupe : Bool} {hs : List Hoisted} {xs : List Emitted} :
    ExpandsClosures dedupe hs xs → xs.filterMap Emitted.own? = []
  | .nil => rfl
  | .cons hclosure hclosures => by
    rw [filterMap_append, hclosure.filterMap_own? (fun _ => rfl), hclosures.filterMap_own?, append_nil]

end

theorem ExpandsBindings.subset_bindings {dedupe : Bool} {bs : List Binding} {xs : List Emitted}
    (h : ExpandsBindings dedupe bs xs) : bs ⊆ Emitted.bindings xs := by
  induction bs generalizing xs
  case nil => exact nil_subset _
  case cons b bs hi =>
    cases h
    case cons hbindings =>
      rw [cons_append, Emitted.bindings_cons_binder, Emitted.bindings_append]
      exact cons_subset_cons _ <| subset_append_of_subset_right _ (hi hbindings)

-- Every binder was made for a function.
mutual

theorem Expands.made {dedupe : Bool} {emit : Node → Emitted} {n : Node} {xs : List Emitted} {b : Binding}
    (hemit : ∀ n, (emit n).binding? = none) :
    Expands dedupe emit n xs → b ∈ Emitted.bindings xs → b.Made dedupe
  | .item hbs hbindings _ _, hb => by
    rw [Emitted.bindings_append_last hemit] at hb
    refine hbindings.made (fun b' hb' => ?_) hb
    have ⟨m, hm, hbelongs⟩ := exists_related hbs hb'
    exact ⟨n, m, hm, hbelongs⟩

theorem ExpandsBindings.made {dedupe : Bool} {bs : List Binding} {xs : List Emitted} {b : Binding} :
    ExpandsBindings dedupe bs xs → (∀ b ∈ bs, b.Made dedupe) → b ∈ Emitted.bindings xs → b.Made dedupe
  | .nil, _, hb => nomatch hb
  | .cons hclosures hbindings, hbs, hb => by
    have ⟨hfirst, hrest⟩ := forall_mem_cons.mp hbs
    rw [cons_append, Emitted.bindings_cons_binder, Emitted.bindings_append, mem_cons, mem_append] at hb
    rcases hb with heq | hb | hb
    · exact heq ▸ hfirst
    · exact hclosures.made hb
    · exact hbindings.made hrest hb

theorem ExpandsClosures.made {dedupe : Bool} {hs : List Hoisted} {xs : List Emitted} {b : Binding} :
    ExpandsClosures dedupe hs xs → b ∈ Emitted.bindings xs → b.Made dedupe
  | .nil, hb => nomatch hb
  | .cons hclosure hclosures, hb => by
    rw [Emitted.bindings_append, mem_append] at hb
    cases hb
    case inl hb => exact hclosure.made (fun _ => rfl) hb
    case inr hb => exact hclosures.made hb

end

-- What becomes of an item, and what is kept of it.
structure Node.KeptAs (bs : List Binding) (item n : Node) : Prop where
  -- Its calls and closures go through binders, everything else stays where it is.
  rewrites  : Rewrites bs item n
  -- An item without render functions stays as it is.
  untouched : ∀ i, item.renderFunctions i = [] → n = item

theorem Node.settled_of_renderFunctions_eq_nil {n : Node} {i : Nat} (h : n.renderFunctions i = []) :
    n.Settled := by
  rw [Node.renderFunctions_eq_filterMap, filterMap_eq_nil_iff] at h
  intro m hm hk
  have hnone := h m hm
  rw [asRenderFunction?, Option.map_eq_none_iff] at hnone
  rw [hnone] at hk
  exact absurd hk Bool.false_ne_true

theorem Expands.exists_own {dedupe : Bool} {item : Node} {xs : List Emitted} {bs : List Binding}
    (h : Expands dedupe .own item xs) (hbs : Emitted.bindings xs ⊆ bs) :
    ∃ n, xs.filterMap Emitted.own? = [n] ∧ item.KeptAs bs n := by
  cases h with
  | item hmade hbindings hrewrites hp =>
    refine ⟨_, ?_, ?_, fun i hi => hrewrites.eq_of_nil ?_⟩
    · rw [filterMap_append, hbindings.filterMap_own?]
      rfl
    · refine hrewrites.rewrites fun b hb => hbs ?_
      rw [Emitted.bindings_append]
      refine mem_append_left _ <| hbindings.subset_bindings ?_
      obtain ⟨u, hu, heq⟩ := mem_map.mp hb
      obtain ⟨b', hb', hu⟩ := mem_flatMap.mp (hp.mem_iff.mp hu)
      exact heq ▸ Binding.binding_of_mem_uses hu ▸ hb'
    · have howners := item.owners_eq_nil_iff.mpr <| Node.settled_of_renderFunctions_eq_nil hi
      rw [howners, forall₂_nil_right_iff] at hmade
      subst hmade
      exact hp.eq_nil

-- The items of a program, expanded one after the other.

theorem exists_expands {dedupe : Bool} {items : List Node} {groups : List (List Emitted)} {b : Binding}
    (h : Forall₂ (Expands dedupe .own) items groups) (hb : b ∈ Emitted.bindings groups.flatten) :
    ∃ item ∈ items, ∃ xs ∈ groups, Expands dedupe .own item xs ∧ b ∈ Emitted.bindings xs := by
  rw [Emitted.bindings, filterMap_flatten, mem_flatten] at hb
  have ⟨_, hys, hb⟩ := hb
  have ⟨xs, hxs, heq⟩ := mem_map.mp hys
  have ⟨item, hitem, hexpands⟩ := exists_related (R := fun xs item => Expands dedupe .own item xs) h.flip hxs
  exact ⟨item, hitem, xs, hxs, hexpands, by rwa [← heq] at hb⟩

theorem kept_of_expands {dedupe : Bool} {items : List Node} {groups : List (List Emitted)}
    {bs : List Binding} (h : Forall₂ (Expands dedupe .own) items groups)
    (hbs : Emitted.bindings groups.flatten ⊆ bs) :
    Forall₂ (Node.KeptAs bs) items (groups.flatten.filterMap Emitted.own?) := by
  induction h
  case nil => exact .nil
  case cons item xs items groups hitem _ hi =>
    rw [flatten_cons, Emitted.bindings_append, append_subset] at hbs
    obtain ⟨n, hn, hkept⟩ := hitem.exists_own hbs.1
    rw [flatten_cons, filterMap_append, hn]
    exact .cons hkept (hi hbs.2)

theorem length_flatten_of_expands {dedupe : Bool} {items : List Node} {groups : List (List Emitted)}
    (h : Forall₂ (Expands dedupe .own) items groups) :
    groups.flatten.length =
      ((Emitted.bindings groups.flatten).flatMap Binding.names).length + items.length := by
  induction h
  case nil => rfl
  case cons item xs items groups hitem _ hi =>
    have hfirst := hitem.length_eq fun _ => rfl
    simp only [flatten_cons, Emitted.bindings_append, flatMap_append, length_append, length_cons]
    omega

theorem length_flatMap_names (bs : List Binding) :
    (bs.flatMap Binding.names).length = bs.length + bs.foldr (·.hoisted.length + ·) 0 := by
  induction bs
  case nil => rfl
  case cons b bs hi =>
    simp only [flatMap_cons, length_append, foldr_cons, length_cons, Binding.length_names]
    omega

theorem Node.Declares.any_introduced? {P : String → Bool} {n : Node} {xs : List String}
    (h : n.Declares P xs) : n.introduced?.any P = !xs.isEmpty := by
  have hxs := h.introduced
  cases hn : n.introduced?
  case none =>
    rw [hn] at hxs
    subst hxs
    rfl
  case some x =>
    rw [hn, Option.toList_some, filter_singleton] at hxs
    cases hx : P x
    case false => simp [← hxs, hx]
    case true  => simp [← hxs, hx]

namespace Program

variable {p : Program} {c : Config}

-- The items of a result that no generated name is declared by.
def withoutGenerated (p : Program) (c : Config) : List Node :=
  (p.memoize c).program.body.filter fun n =>
    !n.introduced?.any (p.generatedNames c.dedupeCaptures).contains

theorem importInserted_eq :
    (p.memoize c).report.importInserted = decide (0 < (p.memoize c).report.rewrittenFunctions) := by
  have hempty (bs : List Binding) : (!bs.isEmpty) = decide (0 < bs.length) := by cases bs <;> rfl
  exact hempty _

theorem imports_eq :
    p.imports c =
      if 0 < (p.memoize c).report.rewrittenFunctions then
        [memoizeImport p.kind c (p.expansion c.dedupeCaptures).1]
      else [] := by
  simp only [imports, importInserted_eq, decide_eq_true_eq]

-- The items that are not generated are those that stand for an item of the program.
theorem withoutGenerated_eq :
    p.withoutGenerated c = (p.expansion c.dedupeCaptures).2.items.filterMap Emitted.own? := by
  have himports : (p.imports c).filter (fun n =>
      !n.introduced?.any (p.generatedNames c.dedupeCaptures).contains) = [] := by
    rw [imports]
    split
    case isTrue  => simp [declares_memoizeImport.any_introduced?]
    case isFalse => rfl
  rw [withoutGenerated, memoize_body_eq, filter_append, himports, nil_append, ← filterMap_eq_filter,
    filterMap_map]
  refine filterMap_congr fun x hx => ?_
  rw [Function.comp_apply, Option.guard, (declares_of_mem_expansion hx).any_introduced?]
  cases x <;> rfl

-- Where the items of a result stand.
structure Placed (p : Program) (c : Config) : Prop where
  -- Behind the import, the items are expanded one after the other.
  layout :
    ∃ groups, Forall₂ (Expands c.dedupeCaptures .own) p.body groups ∧
      (p.memoize c).program.body =
        p.imports c ++ groups.flatten.map (·.node (p.expansion c.dedupeCaptures).1 c.cacheSize)
  -- The functions of an item, or of a closure, get their binders in the order of the visit.
  order : ∀ n : Node, n.owners <+ n.subtrees
  -- There is one import exactly if a function was rewritten.
  imports :
    p.imports c =
      if 0 < (p.memoize c).report.rewrittenFunctions then
        [memoizeImport p.kind c (p.expansion c.dedupeCaptures).1]
      else []
  length :
    (p.memoize c).program.body.length =
      p.body.length + (p.memoize c).report.rewrittenFunctions + (p.memoize c).report.hoistedClosures +
        if 0 < (p.memoize c).report.rewrittenFunctions then 1 else 0
  -- The items that were not generated are those of the program, in their order.
  kept : Forall₂ (Node.KeptAs (p.bindings c.dedupeCaptures)) p.body (p.withoutGenerated c)

theorem exists_groups (p : Program) (dedupe : Bool) :
    ∃ groups, Forall₂ (Expands dedupe .own) p.body groups ∧
      (p.expansion dedupe).2.items = groups.flatten :=
  expandItems_expands dedupe p.body _

-- Something goes through every binder.
theorem used_of_mem_bindings {dedupe : Bool} {b : Binding} (hb : b ∈ p.bindings dedupe) :
    0 < b.bindSites + b.hoisted.length := by
  obtain ⟨groups, hgroups, hitems⟩ := p.exists_groups dedupe
  rw [bindings, Expansion.bindings, hitems] at hb
  obtain ⟨_, _, _, _, hexpands, hb⟩ := exists_expands hgroups hb
  obtain ⟨_, _, hm, hbelongs⟩ := hexpands.made (fun _ => rfl) hb
  exact hbelongs.used hm

theorem length_memoize_body :
    (p.memoize c).program.body.length =
      p.body.length + (p.memoize c).report.rewrittenFunctions + (p.memoize c).report.hoistedClosures +
        if 0 < (p.memoize c).report.rewrittenFunctions then 1 else 0 := by
  have ⟨groups, hgroups, hitems⟩ := p.exists_groups c.dedupeCaptures
  have hlength := length_flatten_of_expands hgroups
  have hreport : ((Emitted.bindings groups.flatten).flatMap Binding.names).length =
      (p.memoize c).report.rewrittenFunctions + (p.memoize c).report.hoistedClosures := by
    rw [← hitems]
    exact length_flatMap_names _
  have himports : (p.imports c).length = if 0 < (p.memoize c).report.rewrittenFunctions then 1 else 0 := by
    rw [imports_eq]
    split <;> rfl
  rw [memoize_body_eq, length_append, length_map, himports, hitems]
  omega

-- Every item of a program keeps its place, and what was made for it stands right in front of it.
theorem placed (p : Program) (c : Config) : p.Placed c where
  layout := by
    have ⟨groups, hgroups, hitems⟩ := p.exists_groups c.dedupeCaptures
    exact ⟨groups, hgroups, hitems ▸ memoize_body_eq⟩
  order   := Node.owners_sublist
  imports := imports_eq
  length  := length_memoize_body
  kept    := by
    have ⟨groups, hgroups, hitems⟩ := p.exists_groups c.dedupeCaptures
    rw [withoutGenerated_eq, hitems]
    exact kept_of_expands hgroups <| hitems ▸ Subset.refl _

end Program

end RenderMemo
