import RenderMemo.Proofs.Captures
import RenderMemo.Proofs.GeneratedNames
import RenderMemo.Proofs.Places

open List

namespace RenderMemo

namespace Node

-- The names that stand anywhere but in a reference. Every name that a tree declares is among them.
def nonReferences (n : Node) : List String :=
  (n.places.filter (!·.isReference)).map (·.ident.name)

-- The identifier in one place of a node.
def identAt? (n : Node) (f : Field) : Option Ident := (n.at f).findSome? (·.label.ident?)

-- The name that a function declaration, a constant or a default import brings into scope.
def introduced? (n : Node) : Option String :=
  let ident? :=
    match n.kind? with
    | some .functionDeclaration => n.identAt? .identifier
    | some .variableDeclaration => (n.at .declarations).findSome? fun m : Node => m.identAt? .id
    | some .importDeclaration => (n.at .specifiers).findSome? fun m : Node => m.identAt? .localName
    | _ => none
  ident?.map Ident.name

theorem mem_nonReferences {n : Node} {x : String} :
    x ∈ n.nonReferences ↔ ∃ pl ∈ n.places, pl.isReference = false ∧ pl.ident.name = x := by
  simp [nonReferences, and_assoc]

theorem filter_nonReferences {n : Node} {P : String → Bool} :
    n.nonReferences.filter P =
      (n.places.filter fun pl => !pl.isReference && P pl.ident.name).map (·.ident.name) := by
  simp [nonReferences, filter_map, filter_filter, Function.comp_def, Bool.and_comm]

theorem mem_edges_of_identAt? {n : Node} {f : Field} {i : Ident} (h : n.identAt? f = some i) :
    ∃ m, (f, m) ∈ n.edges ∧ m.label.ident? = some i := by
  have ⟨m, hm, hi⟩ := exists_of_findSome?_eq_some h
  exact ⟨m, mem_at.mp hm, hi⟩

theorem exists_place_of_identAt? {n : Node} {f : Field} {i : Ident} (h : n.identAt? f = some i) :
    ⟨n.kind?, f, i⟩ ∈ n.places := by
  have ⟨m, hm, hi⟩ := mem_edges_of_identAt? h
  exact mem_places_of_mem_edges hm hi

theorem introduced?_mem_nonReferences {n : Node} {x : String} (h : n.introduced? = some x) :
    x ∈ n.nonReferences := by
  simp only [introduced?, Option.map_eq_some_iff] at h
  have ⟨i, hi, hx⟩ := h
  split at hi
  case h_1 => exact mem_nonReferences.mpr ⟨_, exists_place_of_identAt? hi, by simp [Place.isReference], hx⟩
  case h_2 =>
    have ⟨m, hm, hi⟩ := exists_of_findSome?_eq_some hi
    have hpl := places_subset_of_mem_edges (mem_at.mp hm) <| exists_place_of_identAt? hi
    exact mem_nonReferences.mpr ⟨_, hpl, by simp [Place.isReference], hx⟩
  case h_3 =>
    have ⟨m, hm, hi⟩ := exists_of_findSome?_eq_some hi
    have hpl := places_subset_of_mem_edges (mem_at.mp hm) <| exists_place_of_identAt? hi
    exact mem_nonReferences.mpr ⟨_, hpl, by simp [Place.isReference], hx⟩
  case h_4 => simp at hi

end Node

-- A name that rewriting puts anywhere but in a reference was there before.
theorem Rewrites.nonReferences_subset {bs : List Binding} {n n' : Node} (h : Rewrites bs n n') :
    n'.nonReferences ⊆ n.nonReferences := by
  intro x hx
  have ⟨pl, hpl, hr, hx⟩ := Node.mem_nonReferences.mp hx
  have hpl := (h.isReference_or_mem_places hpl).resolve_left (by simp [hr])
  exact Node.mem_nonReferences.mpr ⟨pl, hpl, hr, hx⟩

theorem Node.nonReferences_subset (n : Node) : n.nonReferences ⊆ n.idents.map Ident.name := by
  intro x hx
  have ⟨pl, hpl, _, hx⟩ := mem_nonReferences.mp hx
  exact hx ▸ mem_map_of_mem (n.ident_mem_of_mem_places hpl)

-- Of the names that satisfy a test, a top-level item declares those that it brings into scope, and no
-- other one stands anywhere but in its references.
structure Node.Declares (P : String → Bool) (n : Node) (xs : List String) : Prop where
  nonReferences : n.nonReferences.filter P = xs
  introduced    : n.introduced?.toList.filter P = xs

theorem Node.Declares.none {P : String → Bool} {n : Node} (h : ∀ x ∈ n.nonReferences, P x = false) :
    n.Declares P [] where
  nonReferences := filter_eq_nil_iff.mpr <| by simpa using h
  introduced := by
    refine filter_eq_nil_iff.mpr fun x hx => ?_
    simpa using h x <| introduced?_mem_nonReferences (Option.mem_toList.mp hx)

section

variable {P : String → Bool} {memoize : String}

theorem declares_memoizeImport {kind : ProgramKind} {c : Config} (hm : P memoize = true) :
    (memoizeImport kind c memoize).Declares P [memoize] := by
  have hfilter : [memoize].filter P = [memoize] := filter_eq_self.mpr <| by simpa using hm
  unfold memoizeImport
  split
  case h_1 => exact ⟨hfilter, hfilter⟩
  case h_2 => exact ⟨hfilter, hfilter⟩

-- The parameters of a binder are no generated names, which all start with an underscore.
theorem declares_binderDeclaration {binder : String} {cacheSize : UInt64}
    (hP : ∀ x, P x = true → x.toList.head? = some '_') (hb : P binder = true) :
    (binderDeclaration binder memoize cacheSize).Declares P [binder] := by
  have hplain (x : String) (hx : x.toList.head? ≠ some '_') : P x = false := by
    rw [← Bool.not_eq_true]
    exact fun h => hx (hP x h)
  have hfunc    := hplain "func" (by decide)
  have hcontext := hplain "context" (by decide)
  have hargs    := hplain "args" (by decide)
  have hnames :
      (binderDeclaration binder memoize cacheSize).nonReferences =
        [binder, "func", "context", "args", "func"] :=
    rfl
  have hintroduced : (binderDeclaration binder memoize cacheSize).introduced? = some binder := rfl
  constructor
  · simp [hnames, hb, hfunc, hcontext, hargs]
  · simp [hintroduced, hb]

-- The declaration of a closure stays one of the same name, whatever becomes of its parts.
theorem Rewrites.declares_declaration {h : Hoisted} {dedupe : Bool} {root n : Node} {bs : List Binding}
    (hr : Rewrites bs h.declaration n) (lifted : h.LiftedFrom dedupe root)
    (hroot : ∀ i ∈ root.idents, P i.name = false) (hh : P h.name = true) : n.Declares P [h.name] := by
  have ⟨es, hn, hes⟩ := hr.of_declaration
  subst hn
  have hrest : (placesOfEdges (some .functionDeclaration) es).filter
      (fun pl => !pl.isReference && P pl.ident.name) = [] := by
    refine filter_eq_nil_iff.mpr fun pl hpl => ?_
    cases hes.isReference_or_mem_places hpl
    case inl href => simp [href]
    case inr hpl =>
      have := hroot _ <| lifted.idents_declaredEdges_subset <| ident_mem_of_mem_placesOfEdges _ _ hpl
      simp [this]
  constructor
  · have hname : (Node.named h.name).places = [] := rfl
    rw [Node.filter_nonReferences, Node.places, placesOfEdges, hname]
    simp only [filter_append]
    rw [show h.declarationLabel.kind? = some .functionDeclaration from rfl, hrest]
    simp [Node.named, Node.ofIdent, Node.label, Label.ident?, Place.isReference, hh]
  · have hintroduced : (Node.mk h.declarationLabel ((.identifier, .named h.name) :: es)).introduced? =
        some h.name :=
      rfl
    simp [hintroduced, hh]

end

-- What the items of a result bring into scope themselves, apart from what the program declares.
def Emitted.introduces : Emitted → List String
  | binder b => [b.binder]
  | closure h _ => [h.name]
  | own _ => []

def Pending.introduced : Pending → String
  | binder b => b.binder
  | closure h => h.name

theorem Pending.map_introduced_ofBindings (bs : List Binding) :
    (ofBindings bs).map introduced = bs.flatMap Binding.names := by
  simp only [ofBindings, map_flatMap, map_cons, map_map, Function.comp_def, introduced]
  rfl

-- An expansion declares the names of its bindings, each of them once.
theorem expand_introduces {dedupe : Bool} {emit : Node → Emitted} {item : Node} {names : Names}
    {xs : List String} (hemit : ∀ n, (emit n).binding? = none ∧ (emit n).introduces = xs) :
    (expand dedupe emit item names).items.flatMap Emitted.introduces ~
      (expand dedupe emit item names).bindings.flatMap Binding.names ++ xs := by
  induction emit, item, names using expand_induction dedupe
    (F := fun ps names =>
      ∃ bs, (expandPending dedupe ps names).bindings ~ ps.filterMap Pending.binding? ++ bs ∧
        (expandPending dedupe ps names).items.flatMap Emitted.introduces ~
          ps.map Pending.introduced ++ bs.flatMap Binding.names) generalizing xs
  case nil => exact ⟨[], .refl _, .refl _⟩
  case binder b ps names hi =>
    obtain ⟨bs, hb, hx⟩ := hi
    exact ⟨bs, hb.cons b, hx.cons b.binder⟩
  case closure h ps names hclosure hi =>
    obtain ⟨bs, hb, hx⟩ := hi
    have hx₁ := @hclosure [h.name] fun _ => ⟨rfl, rfl⟩
    refine ⟨(expand dedupe (.closure h) h.declaration names).bindings ++ bs, ?_, ?_⟩
    · simp only [expandPending, Expansion.bindings, filterMap_append] at hb ⊢
      exact (hb.append_left _).trans <| perm_append_comm_assoc ..
    · simp only [expandPending, flatMap_append]
      refine (hx₁.append hx).trans ?_
      simpa [Pending.introduced] using perm_append_comm_assoc _ (h.name :: ps.map Pending.introduced) _
  case item emit item names hi =>
    obtain ⟨bs, hb, hx⟩ := hi
    obtain ⟨hbinding, hintroduces⟩ := hemit (item.visit dedupe names).result
    rw [Node.pending, Pending.filterMap_ofBindings] at hb
    rw [Node.pending, Pending.map_introduced_ofBindings, ← flatMap_append] at hx
    have hx := hx.trans (hb.flatMap_right Binding.names).symm
    simpa [expand_eq, Node.pending, Expansion.bindings, hbinding, hintroduces] using hx.append_right xs

theorem expandItems_introduces {dedupe : Bool} (items : List Node) (names : Names) :
    (expandItems dedupe items names).items.flatMap Emitted.introduces ~
      (expandItems dedupe items names).bindings.flatMap Binding.names := by
  induction items generalizing names
  case nil => exact .refl _
  case cons item items hi =>
    have hitem := @expand_introduces dedupe .own item names [] fun _ => ⟨rfl, rfl⟩
    simp only [expandItems, Expansion.bindings, filterMap_append, flatMap_append]
    exact (append_nil _ ▸ hitem).append (hi _)

namespace Program

-- The names that are taken in a run, in the order in which they are handed out.
def generatedNames (p : Program) (dedupe : Bool) : List String :=
  let taken := (p.expansion dedupe).2.names.taken
  (taken.take (taken.length - p.idents.length)).reverse

-- The name of the memoize function is handed out first, and after it those of the bindings.
theorem generatedNames_account (p : Program) (dedupe : Bool) :
    (Names.mk (p.idents.map Ident.name)).Hands (p.generatedNames dedupe) (p.expansion dedupe).2.names ∧
    ∃ unused,
      p.generatedNames dedupe ~
        (p.expansion dedupe).1 :: (p.bindings dedupe).flatMap Binding.names ++ unused ∧
      (p.bindings dedupe).length + unused.length = (p.expansion dedupe).2.detected := by
  have ⟨fresh, unused, hands, hp, hl⟩ :=
    expandItems_account dedupe p.body ((Names.mk (p.idents.map Ident.name)).generate "memoize").2
  have hands : (Names.mk (p.idents.map Ident.name)).Hands ((p.expansion dedupe).1 :: fresh)
      (p.expansion dedupe).2.names := .next hands
  have heq : p.generatedNames dedupe = (p.expansion dedupe).1 :: fresh := by
    simp only [generatedNames]
    rw [hands.taken_eq, take_left' (by simp only [length_append, length_map, Nat.add_sub_cancel]),
      reverse_reverse]
  rw [heq]
  exact ⟨hands, unused, hp.cons _, hl⟩

variable {p : Program} {dedupe : Bool} {b : Binding} {x : String}

theorem names_subset_generatedNames (hb : b ∈ p.bindings dedupe) :
    b.names ⊆ p.generatedNames dedupe := by
  have ⟨_, unused, hp, _⟩ := p.generatedNames_account dedupe
  refine fun x hx => hp.mem_iff.mpr <| mem_cons_of_mem _ <| mem_append_left _ ?_
  exact mem_flatMap.mpr ⟨b, hb, hx⟩

theorem head?_eq_of_mem_generatedNames (hx : x ∈ p.generatedNames dedupe) :
    x.toList.head? = some '_' :=
  (p.generatedNames_account dedupe).1.head?_eq hx

theorem not_mem_generatedNames {i : Ident} (hi : i ∈ p.idents) : i.name ∉ p.generatedNames dedupe :=
  fun hm => (p.generatedNames_account dedupe).1.not_mem_taken hm <| mem_map_of_mem hi

end Program

-- Of the names that a run hands out, an item of its result declares those that it introduces.
theorem Emitted.ArisesFrom.declares {p : Program} {dedupe : Bool} {item : Node} {x : Emitted}
    {memoize : String} {cacheSize : UInt64} (hx : x.ArisesFrom dedupe item (p.bindings dedupe))
    (hitem : item ∈ p.body) :
    (x.node memoize cacheSize).Declares (p.generatedNames dedupe).contains x.introduces := by
  have hroot (i : Ident) (hi : i ∈ item.idents) : (p.generatedNames dedupe).contains i.name = false := by
    simpa using Program.not_mem_generatedNames <| mem_flatMap.mpr ⟨item, hitem, hi⟩
  cases hx
  case binder b hb =>
    apply declares_binderDeclaration
    · exact fun x hx => Program.head?_eq_of_mem_generatedNames <| by simpa using hx
    · simpa using Program.names_subset_generatedNames hb mem_cons_self
  case closure h names lifted hused hbs =>
    have ⟨b, hb, hh⟩ := hused
    apply (Node.visit_rewrites dedupe h.declaration names hbs).declares_declaration lifted hroot
    simpa using Program.names_subset_generatedNames hb <| mem_cons_of_mem _ <| mem_map_of_mem hh
  case own names hbs =>
    refine .none fun x hx => ?_
    have hx := (Node.visit_rewrites dedupe item names hbs).nonReferences_subset hx
    have ⟨i, hi, hname⟩ := mem_map.mp <| item.nonReferences_subset hx
    exact hname ▸ hroot i hi

-- What makes the names of a run safe to refer to from anywhere.
structure Program.Hygienic (p : Program) (c : Config) : Prop where
  -- No name is handed out twice.
  nodup : (p.generatedNames c.dedupeCaptures).Nodup
  -- No name that is handed out is the name of an identifier of the program, wherever that stands.
  fresh : ∀ i ∈ p.idents, i.name ∉ p.generatedNames c.dedupeCaptures
  -- The names are that of the memoize function, those of the binders and closures, and one for every
  -- render function that is counted but needs no binder.
  account :
    ∃ unused,
      p.generatedNames c.dedupeCaptures ~
        (p.expansion c.dedupeCaptures).1 ::
          (p.bindings c.dedupeCaptures).flatMap Binding.names ++ unused ∧
      (p.bindings c.dedupeCaptures).length + unused.length = (p.memoize c).report.renderFunctions
  -- In the result, a handed out name stands at the top of an item that introduces it or in references,
  -- so nothing on the way from a reference to the top level declares it again.
  unshadowed :
    ∀ item ∈ (p.memoize c).program.body,
      item.nonReferences.filter (p.generatedNames c.dedupeCaptures).contains =
        item.introduced?.toList.filter (p.generatedNames c.dedupeCaptures).contains
  -- Every name that is in use is introduced by exactly one item.
  introduced :
    ((p.memoize c).program.body.filterMap Node.introduced?).filter
        (p.generatedNames c.dedupeCaptures).contains ~
      if (p.memoize c).report.importInserted then
        (p.expansion c.dedupeCaptures).1 ::
          (p.bindings c.dedupeCaptures).flatMap Binding.names
      else []

section

variable {p : Program} {c : Config} {n : Node}

theorem Program.memoizeName_mem_generatedNames :
    (p.expansion c.dedupeCaptures).1 ∈ p.generatedNames c.dedupeCaptures := by
  have ⟨_, _, hp, _⟩ := p.generatedNames_account c.dedupeCaptures
  exact hp.mem_iff.mpr mem_cons_self

theorem Program.declares_memoizeImport :
    (memoizeImport p.kind c (p.expansion c.dedupeCaptures).1).Declares
      (p.generatedNames c.dedupeCaptures).contains [(p.expansion c.dedupeCaptures).1] :=
  RenderMemo.declares_memoizeImport <| by simpa using memoizeName_mem_generatedNames

theorem Program.declares_of_mem_expansion {x : Emitted} (hx : x ∈ (p.expansion c.dedupeCaptures).2.items) :
    (x.node (p.expansion c.dedupeCaptures).1 c.cacheSize).Declares
      (p.generatedNames c.dedupeCaptures).contains x.introduces := by
  have ⟨_, hitem, hx⟩ := arisesFrom_of_mem_expansion hx
  exact hx.declares hitem

theorem Program.exists_declares (hn : n ∈ (p.memoize c).program.body) :
    ∃ xs, n.Declares (p.generatedNames c.dedupeCaptures).contains xs := by
  cases mem_memoize_body hn
  case inl hn =>
    exact ⟨_, hn ▸ declares_memoizeImport⟩
  case inr hn =>
    have ⟨x, hx, hn⟩ := hn
    exact ⟨_, hn ▸ declares_of_mem_expansion hx⟩

theorem Program.introduced_perm :
    ((p.memoize c).program.body.filterMap Node.introduced?).filter
        (p.generatedNames c.dedupeCaptures).contains ~
      if (p.memoize c).report.importInserted then
        (p.expansion c.dedupeCaptures).1 ::
          (p.bindings c.dedupeCaptures).flatMap Binding.names
      else [] := by
  have hitems :
      (((p.expansion c.dedupeCaptures).2.items.map
          (·.node (p.expansion c.dedupeCaptures).1 c.cacheSize)).filterMap Node.introduced?).filter
          (p.generatedNames c.dedupeCaptures).contains =
        (p.expansion c.dedupeCaptures).2.items.flatMap Emitted.introduces := by
    rw [filterMap_eq_flatMap_toList, flatMap_map, filter_flatMap]
    refine flatMap_congr fun x hx => ?_
    exact (declares_of_mem_expansion hx).introduced
  have hperm : (p.expansion c.dedupeCaptures).2.items.flatMap Emitted.introduces ~
      (p.bindings c.dedupeCaptures).flatMap Binding.names :=
    expandItems_introduces p.body _
  rw [memoize_body_eq, filterMap_append, filter_append, hitems, imports]
  split
  case isTrue =>
    rw [filterMap_eq_flatMap_toList, flatMap_singleton, declares_memoizeImport.introduced]
    exact hperm.cons _
  case isFalse h =>
    have hnone : p.bindings c.dedupeCaptures = [] := by
      simpa [memoize, Expansion.report, Program.bindings] using h
    simpa [hnone] using hperm

end

-- The names that a run hands out are its own, and no declaration comes between a reference to one of
-- them and the item that introduces it.
theorem Program.hygienic (p : Program) (c : Config) : p.Hygienic c where
  nodup   := (p.generatedNames_account c.dedupeCaptures).1.nodup
  fresh   := fun _ => not_mem_generatedNames
  account := (p.generatedNames_account c.dedupeCaptures).2
  unshadowed item hitem := by
    have ⟨_, h⟩ := exists_declares hitem
    rw [h.nonReferences, h.introduced]
  introduced := introduced_perm

end RenderMemo
