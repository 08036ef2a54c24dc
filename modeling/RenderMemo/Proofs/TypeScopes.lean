import RenderMemo.Proofs.Erasure
import RenderMemo.Proofs.Prelude
import RenderMemo.Proofs.TypedNames

open List

namespace RenderMemo

namespace Kind

-- Whether a form opens the scope of a function around its part in some place.
def opensFunction (k : Kind) (f : Field) : Bool := (k.opens f .hole).any (· != .block)

-- Whether what a form declares in some place is declared in a scope that it opens there.
def declaresWithin (k : Kind) (f : Field) : Bool := !k.declares f || !(k.opens f .hole).isEmpty

end Kind

-- Whether all names that are declared in a tree are declared in scopes that are opened in the tree. The
-- names of a function belong to the function, wherever it stands.
mutual

def Node.holdsOwnNames : Node → Bool
  | .mk l es => edgesHoldOwnNames l.kind? es

def edgesHoldOwnNames (k : Option Kind) : List Edge → Bool
  | [] => true
  | (f, n) :: es =>
    (k.any (·.opensFunction f) || (k.all (·.declaresWithin f) && n.holdsOwnNames)) && edgesHoldOwnNames k es

end

-- The names that are declared in types are those of functions and classes in their computed keys.
def Node.TypesHoldOwnNames (n : Node) : Prop := ∀ m ∈ n.subtrees, m.isTypeOnly → m.holdsOwnNames

instance (n : Node) : Decidable n.TypesHoldOwnNames :=
  inferInstanceAs (Decidable (∀ m ∈ n.subtrees, _))

section

variable {k : Kind} {f : Field} {parent : Label} {strict : Bool} {d : Declaration}

-- Only what a block opens depends on where the block stands.
theorem Kind.opens_eq (h : k ≠ .blockStatement) (parent : Label) : k.opens f parent = k.opens f .hole := by
  unfold opens
  split <;> simp_all

theorem Kind.exists_opening_of_opensFunction (h : k.opensFunction f = true) :
    ∃ o ∈ k.opens f parent, o ≠ .block := by
  have hk : k ≠ .blockStatement := fun hk => by simp [hk, opensFunction, opens] at h
  simpa [opensFunction, opens_eq hk parent] using h

theorem Kind.exists_opening_of_declaresWithin (h : k.declaresWithin f = true)
    (hd : k.declaration? f strict parent = some d) (ht : d.isTyped = false) :
    ∃ o ∈ k.opens f parent, d.isForFunction → o ≠ .block := by
  have hf := declares_iff.mpr ⟨d, hd, ht⟩
  unfold declares at hf
  split at hf
  all_goals first | exact absurd h (by decide) | (cases hd; exact ⟨_, mem_cons_self, by decide⟩) | cases hf

theorem edgesHoldOwnNames_iff {k : Option Kind} {es : List Edge} :
    edgesHoldOwnNames k es ↔ ∀ e ∈ es,
      k.any (·.opensFunction e.1) = true ∨ k.all (·.declaresWithin e.1) = true ∧ e.2.holdsOwnNames = true := by
  induction es
  case nil          => simp [edgesHoldOwnNames]
  case cons e es hi => simp [edgesHoldOwnNames, hi]

end

-- That a spot declares a name in a scope that is opened in some place or inside it.
def Spot.DeclaresIn (place : List Nat) (s : Spot) : Prop :=
  ∃ d c, s.declares = some d ∧ s.home d = some c ∧ place <:+ c.place

theorem Spot.DeclaresIn.mono {place place' : List Nat} {s : Spot} (h : s.DeclaresIn place)
    (hp : place' <:+ place) : s.DeclaresIn place' :=
  have ⟨d, c, hd, hc, hplace⟩ := h
  ⟨d, c, hd, hc, hp.trans hplace⟩

-- The scope of a variable is one that is seen from the variable.
theorem Spot.exists_sight {s : Spot} {ds : List Declared} {c : Scope} (h : s.scopeIn ds = some c) :
    ∃ v ∈ s.sights, v.scope = c := by
  unfold scopeIn home at h
  split at h
  all_goals
    have ⟨v, hv, heq⟩ := Option.map_eq_some_iff.mp h
    exact ⟨v, mem_of_find?_eq_some hv, heq⟩

namespace Surroundings

variable {strict : List Nat → Bool} {σ : Surroundings} {l : Label} {j : Nat} {f : Field} {k : Kind}

-- That the scopes in sight are opened around the place.
def IsInside (σ : Surroundings) : Prop := ∀ v ∈ σ.sights, v.scope.place.length < σ.place.length

-- What is seen from a part of a form besides what is seen from the form.
def opened (σ : Surroundings) (l : Label) (f : Field) : List Sight :=
  ((l.kind?.map fun k => k.opens f σ.parent).getD []).map fun o => ⟨⟨σ.place, o != .block⟩, o == .parameters⟩

theorem sights_enter_eq : (σ.enter strict l j f).sights = σ.opened l f ++ σ.sights :=
  rfl

theorem place_of_mem_opened {v : Sight} (hv : v ∈ σ.opened l f) : v.scope.place = σ.place := by
  have ⟨_, _, heq⟩ := mem_map.mp hv
  exact heq ▸ rfl

theorem exists_mem_opened (hl : l.kind? = some k) {o : Opening} (ho : o ∈ k.opens f σ.parent) :
    ∃ v ∈ σ.opened l f, v.scope.isFunction = (o != .block) :=
  ⟨_, mem_map_of_mem (by rwa [hl]), rfl⟩

theorem IsInside.enter (h : σ.IsInside) : (σ.enter strict l j f).IsInside := by
  intro v hv
  refine Nat.lt_succ_of_le ?_
  cases mem_append.mp <| sights_enter_eq ▸ hv
  case inl hv => exact (congrArg length <| place_of_mem_opened hv).le
  case inr hv => exact (h v hv).le

theorem IsInside.scope_ne (h : σ.IsInside) {c : Scope} (hle : σ.place.length ≤ c.place.length) {v : Sight}
    (hv : v ∈ σ.sights) : v.scope ≠ c :=
  fun heq => absurd (heq ▸ h v hv) (Nat.not_lt.mpr hle)

end Surroundings

namespace Node

variable {rank : Label → Field → Nat} {strict : List Nat → Bool} {σ : Surroundings} {n : Node} {l : Label}
  {e : Edge} {j : Nat} {s : Spot} {d : Declaration} {i : Ident}

-- What is seen in a tree besides what is seen from around it is opened in the tree.
theorem exists_inner (hs : s ∈ n.spots rank strict σ) :
    ∃ inner, s.sights = inner ++ σ.sights ∧ ∀ v ∈ inner, σ.place <:+ v.scope.place := by
  induction n using partsInduction generalizing σ
  case step l es hi =>
    cases mem_spots_mk.mp hs
    case inl hs => exact ⟨[], (Surroundings.spot?_eq_some_iff.mp hs).2.1, nofun⟩
    case inr hs =>
      have ⟨j, e, he, hs⟩ := hs
      have ⟨inner, hsights, hplaces⟩ := hi e (mem_of_getElem? he) hs
      refine ⟨inner ++ σ.opened l e.1, by rw [hsights, σ.sights_enter_eq, append_assoc], fun v hv => ?_⟩
      cases mem_append.mp hv
      case inl hv => exact (suffix_cons ..).trans <| hplaces v hv
      case inr hv => exact Surroundings.place_of_mem_opened hv ▸ suffix_rfl

-- A name is declared in a scope that is opened around it, if there is one for a declaration of its sort.
theorem declaresIn_of_mem_opens {k : Kind} {o : Opening}
    (hs : s ∈ e.2.spots rank strict (σ.enter strict l j e.1)) (hd : s.declares = some d)
    (hl : l.kind? = some k) (ho : o ∈ k.opens e.1 σ.parent) (hf : d.isForFunction → o ≠ .block) :
    s.DeclaresIn σ.place := by
  have ⟨inner, hsights, hplaces⟩ := exists_inner hs
  have ⟨v, hv, hscope⟩ := σ.exists_mem_opened hl ho
  have hfound : ((inner ++ σ.opened l e.1).find? fun v => !d.isForFunction || v.scope.isFunction).isSome :=
    find?_isSome.mpr ⟨v, mem_append_right _ hv, by grind⟩
  have ⟨c, hc⟩ := Option.isSome_iff_exists.mp hfound
  refine ⟨d, c.scope, hd, ?_, ?_⟩
  · rw [Spot.home, hsights, σ.sights_enter_eq, ← append_assoc, find?_append, hc]
    rfl
  · cases mem_append.mp <| mem_of_find?_eq_some hc
    case inl hc => exact (suffix_cons ..).trans <| hplaces c hc
    case inr hc => exact Surroundings.place_of_mem_opened hc ▸ suffix_rfl

-- The spot of a name that a part of a form declares, or the form in the place of the part.
theorem exists_spot_of_mem_part (hi : l.kind?.any (·.declares e.1) = true ∧ i ∈ e.2.bound ∨ i ∈ e.2.declared) :
    ∃ s ∈ e.2.spots rank strict (σ.enter strict l j e.1), ∃ d, s.ident = i ∧ s.declares = some d := by
  cases hi
  case inl hi =>
    have ⟨s, hs, _, d, _, _, _, hsi, hd⟩ : ∃ s ∈ e.2.spots rank strict (σ.enter strict l j e.1), _ :=
      exists_spot_of_declares hi.1 hi.2
    exact ⟨s, hs, d, hsi, hd⟩
  case inr hi =>
    have ⟨s, hs, d, hsi, hd, _⟩ : ∃ s ∈ e.2.spots rank strict (σ.enter strict l j e.1), _ :=
      exists_spot_of_mem_declared hi
    exact ⟨s, hs, d, hsi, hd⟩

theorem exists_spot_of_holdsOwnNames (hown : n.holdsOwnNames) (hi : i ∈ n.declared) :
    ∃ s ∈ n.spots rank strict σ, s.ident = i ∧ s.DeclaresIn σ.place := by
  induction n using partsInduction generalizing σ
  case step l es hes =>
    have ⟨e, he, hi⟩ := mem_declared.mp hi
    have ⟨j, hj⟩ := mem_iff_getElem?.mp he
    suffices h : ∃ s ∈ e.2.spots rank strict (σ.enter strict l j e.1), s.ident = i ∧ s.DeclaresIn σ.place from
      have ⟨s, hs, h⟩ := h
      ⟨s, mem_spots_mk.mpr <| .inr ⟨j, e, hj, hs⟩, h⟩
    rcases edgesHoldOwnNames_iff.mp hown e he with hf | ⟨hwithin, hown⟩
    case inl =>
      have ⟨k, hl, hf⟩ := Option.any_eq_true .. |>.mp hf
      have ⟨o, ho, hne⟩ : ∃ o ∈ k.opens e.1 σ.parent, o ≠ .block := Kind.exists_opening_of_opensFunction hf
      have ⟨s, hs, d, hsi, hd⟩ : ∃ s ∈ e.2.spots rank strict (σ.enter strict l j e.1), _ :=
        exists_spot_of_mem_part hi
      exact ⟨s, hs, hsi, declaresIn_of_mem_opens hs hd hl ho fun _ => hne⟩
    case inr =>
      cases hi
      case inl hi =>
        have ⟨s, hs, k, d, hl, hdecl, ht, hsi, hd⟩ :
            ∃ s ∈ e.2.spots rank strict (σ.enter strict l j e.1), _ := exists_spot_of_declares hi.1 hi.2
        have hwithin := Option.all_eq_true .. |>.mp hwithin k hl
        have ⟨o, ho, hne⟩ := Kind.exists_opening_of_declaresWithin hwithin hdecl ht
        exact ⟨s, hs, hsi, declaresIn_of_mem_opens hs hd hl ho hne⟩
      case inr hi =>
        have ⟨s, hs, hsi, hd⟩ : ∃ s ∈ e.2.spots rank strict (σ.enter strict l j e.1), _ := hes e he hown hi
        exact ⟨s, hs, hsi, hd.mono <| suffix_cons ..⟩

theorem TypesHoldOwnNames.of_mem_edges {es : List Edge} (h : (mk l es).TypesHoldOwnNames) (he : e ∈ es) :
    e.2.TypesHoldOwnNames :=
  fun m hm => h m <| mem_subtrees_mk.mpr <| .inr ⟨e, he, hm⟩

theorem TypesHoldOwnNames.closure (h : n.TypesHoldOwnNames) : n.closure.TypesHoldOwnNames := by
  intro m hm ht
  cases mem_subtrees_closure hm
  case inl hm => exact nomatch hm ▸ ht
  case inr hm => exact h m hm ht

theorem exists_spot_of_mem_types (hown : n.TypesHoldOwnNames)
    (hi : i ∈ if n.isTypeOnly then n.declared else n.declaredByTypes) :
    ∃ s ∈ n.spots rank strict σ, s.ident = i ∧ s.DeclaresIn σ.place := by
  induction n using partsInduction generalizing σ
  case step l es hes =>
    split at hi
    case isTrue ht => exact exists_spot_of_holdsOwnNames (hown _ (mem_subtrees_self _) ht) hi
    case isFalse =>
      have ⟨e, he, hi⟩ := mem_declaredByTypesInEdges.mp hi
      have ⟨j, hj⟩ := mem_iff_getElem?.mp he
      have ⟨s, hs, hsi, hd⟩ : ∃ s ∈ e.2.spots rank strict (σ.enter strict l j e.1), _ :=
        hes e he (hown.of_mem_edges he) hi
      exact ⟨s, mem_spots_mk.mpr <| .inr ⟨j, e, hj, hs⟩, hsi, hd.mono <| suffix_cons ..⟩

-- What occurs in the parts of a form besides types stands in a part that is no type.
theorem exists_part_of_mem_erasedEdges {es : List Edge} (hσ : σ.silent = false) (htyped : (mk l es).IsTyped)
    (hl : l.kind?.any Kind.holdsNoReference = false) (hi : i ∈ occurrencesOfEdges l.kind? (erasedEdges es)) :
    ∃ j, ∃ e : Edge, es[j]? = some e ∧ (σ.enter strict l j e.1).Hears e.2.label ∧ e.2.isTypeOnly = false ∧
      i ∈ e.2.erased.occurrences := by
  have ⟨_, hmem, hi⟩ := mem_occurrencesOfEdges.mp hi
  have ⟨e, he, ht, heq⟩ := mem_erasedEdges.mp hmem
  subst heq
  have ⟨j, hj⟩ := mem_iff_getElem?.mp he
  refine ⟨j, e, hj, Surroundings.hears_enter hσ hl ?_, ht, mem_occurrences_of_edge hi⟩
  have hlabel : l.kind?.any (·.holdsLabelOrTag e.1 e.2.erased) = l.kind?.any (·.holdsLabelOrTag e.1 e.2) := by
    cases hk : l.kind?
    case none   => rfl
    case some k =>
      exact Kind.holdsLabelOrTag_erased fun hk' hf => (htyped _ (mem_subtrees_self _) e he).2.2 (hk' ▸ hk) hf
  rw [← hlabel]
  by_contra h
  simp [occurrencesOfEdges, h] at hi

-- What occurs besides the types of a tree does not see the scopes of what the types declare. As long as both
-- are in one part of a form, neither has come to its scope. Where they part, the scope of the declaration is
-- opened in another part than that in which the occurrence stands.
theorem exists_spots_apart {i' : Ident} (hears : σ.Hears n.label) (hinside : σ.IsInside) (htyped : n.IsTyped)
    (hown : n.TypesHoldOwnNames) (hi : i ∈ n.erased.occurrences) (hi' : i' ∈ n.declaredByTypes) :
    ∃ s ∈ n.spots rank strict σ, s.ident = i ∧ ∃ t ∈ n.spots rank strict σ, t.ident = i' ∧
      ∃ d c, t.declares = some d ∧ t.home d = some c ∧ ∀ v ∈ s.sights, v.scope ≠ c := by
  induction n using partsInduction generalizing σ
  case step l es hes =>
    rw [erased, occurrences_unasserted] at hi
    have ⟨hl, hi⟩ := mem_occurrences_mk.mp hi
    have ⟨e, he, hi'⟩ := mem_declaredByTypesInEdges.mp hi'
    have ⟨j, hj⟩ := mem_iff_getElem?.mp he
    have ⟨t, ht, hti, d, c, hd, hc, hplace⟩ : ∃ t ∈ e.2.spots rank strict (σ.enter strict l j e.1), _ :=
      exists_spot_of_mem_types (hown.of_mem_edges he) hi'
    have ht : t ∈ (mk l es).spots rank strict σ := mem_spots_mk.mpr <| .inr ⟨j, e, hj, ht⟩
    have hlt : σ.place.length < c.place.length := hplace.length_le
    cases hi
    case inl hi =>
      have ⟨s, hs, hsi⟩ := hears.exists_spot hi
      refine ⟨s, mem_spots_mk.mpr <| .inl hs, hsi, t, ht, hti, d, c, hd, hc, fun v hv => ?_⟩
      exact hinside.scope_ne hlt.le <| (Surroundings.spot?_eq_some_iff.mp hs).2.1 ▸ hv
    case inr hi =>
      have ⟨j', e', hj', hears', ht', hi⟩ : ∃ j', ∃ e' : Edge, es[j']? = some e' ∧
          (σ.enter strict l j' e'.1).Hears e'.2.label ∧ _ :=
        exists_part_of_mem_erasedEdges hears.silent htyped hl hi
      have he' := mem_of_getElem? hj'
      by_cases hjj : j = j'
      case pos =>
        subst hjj
        obtain rfl : e = e' := Option.some.inj <| hj.symm.trans hj'
        rw [if_neg (by simp [ht'])] at hi'
        have ⟨s, hs, hsi, t, ht, h⟩ :=
          hes e he hears' hinside.enter (htyped.of_mem_edges he) (hown.of_mem_edges he) hi hi'
        exact ⟨s, mem_spots_mk.mpr <| .inr ⟨j, e, hj, hs⟩, hsi, t, mem_spots_mk.mpr <| .inr ⟨j, e, hj, ht⟩, h⟩
      case neg =>
        have hi := (leaves_erased e'.2 <| htyped.of_mem_edges he').sublist.subset hi
        have ⟨s, hs, hsi⟩ : ∃ s ∈ e'.2.spots rank strict (σ.enter strict l j' e'.1), s.ident = i :=
          exists_spot_of_mem_occurrences hears' hi
        have ⟨inner, hsights, hplaces⟩ := exists_inner hs
        refine ⟨s, mem_spots_mk.mpr <| .inr ⟨j', e', hj', hs⟩, hsi, t, ht, hti, d, c, hd, hc, fun v hv => ?_⟩
        cases mem_append.mp <| hsights ▸ hv
        case inl hv => exact fun heq => hjj <| eq_of_cons_suffix hplace (heq ▸ hplaces v hv)
        case inr hv => exact hinside.enter.scope_ne hlt hv

-- If variables are resolved, the types in the parameters and in the body of an arrow function keep to
-- themselves. Resolved variables are one only if they have one scope, and nothing besides a type sees the
-- scopes that are opened in the type, in which it declares its names.
theorem ResolvedBy.typesKeepTo (hr : n.ResolvedBy strict) (hclosure : n.label.isClosure = true)
    (htyped : n.IsTyped) (hown : n.TypesHoldOwnNames) : n.TypesKeepTo := by
  intro i hi hb
  have ⟨i', hi', heq⟩ := mem_map.mp hb
  have ⟨s, hs, hsi, t, ht, hti, d, c, hd, hc, hapart⟩ : ∃ s ∈ n.spotsInside Label.unranked strict, _ :=
    exists_spots_apart n.hears_closure nofun (htyped.closure hclosure) hown.closure hi hi'
  have ⟨_, hscope⟩ := (hr s hs t ht).mp <| by rw [hsi, hti, heq]
  rw [scopeOf_of_declares hd, hc] at hscope
  have ⟨v, hv, heq⟩ := Spot.exists_sight hscope
  exact hapart v hv heq

-- `(a: { [(b => b).name]: T }) => a`
def keyedClosure : Node :=
  let ident (name : String) (scope : Nat) : Node := .ofIdent { name, scope }
  let key := Node.form .memberExpression [] [(.object, .arrow [ident "b" 3] (ident "b" 3)),
    (.property, .propertyName "name")]
  let type := Node.form .tsTypeLiteral [] [(.members, .form .tsPropertySignature [] [(.key, key),
    (.annot, .form .tsTypeAnnot [] [(.annot, .form .tsTypeReference [] [(.typeName, ident "T" 1)])])])]
  .arrow [.mk (.ident { name := "a", scope := 2 }) [(.annot, .form .tsTypeAnnot [] [(.annot, type)])]]
    (ident "a" 2)

example :
    keyedClosure.ResolvedBy (fun _ => true) ∧ keyedClosure.IsTyped ∧ keyedClosure.TypesHoldOwnNames ∧
      keyedClosure.closure.declaredByTypes.map Ident.name = ["b"] := by
  decide +kernel

end Node

end RenderMemo
