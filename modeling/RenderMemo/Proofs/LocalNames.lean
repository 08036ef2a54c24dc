import RenderMemo.Proofs.Scoping

open List

namespace RenderMemo

section

variable {k : Kind} {f : Field} {strict : Bool} {parent : Label} {outer : Role} {d : Declaration}

-- Patterns pass on what they declare through the places through which they bind.
theorem Kind.passesOn_eq : k.passesOn f = k.bindsThrough f :=
  rfl

theorem Kind.declaration?_of_passesOn (h : k.passesOn f = true) :
    k.declaration? f strict parent = none := by
  unfold passesOn at h
  split at h
  all_goals first | rfl | cases h

theorem Kind.opens_of_passesOn (h : k.passesOn f = true) : k.opens f parent = [] := by
  unfold passesOn at h
  split at h
  all_goals first | rfl | cases h

-- The places in which names are declared are those that declare a name otherwise than in TypeScript alone.
theorem Kind.declares_iff :
    k.declares f = true ↔ ∃ d, k.declaration? f strict parent = some d ∧ d.isTyped = false := by
  constructor
  case mp =>
    intro h
    unfold declares at h
    split at h
    all_goals first | exact ⟨_, rfl, rfl⟩ | exact ⟨_, rfl, by split <;> rfl⟩ | cases h
  case mpr =>
    intro h
    have ⟨d, hd, ht⟩ := h
    unfold declaration? at hd
    split at hd
    all_goals first | rfl | (cases hd <;> cases ht)

theorem Kind.role_eq_declares_iff :
    k.role f strict parent outer = .declares d ↔
      k.declaration? f strict parent = some d ∨
        k.declaration? f strict parent = none ∧ k.passesOn f = true ∧ outer = .declares d := by
  unfold role Role.passedOn
  grind

end

-- What the part of a form stands for in a place in which the form declares.
theorem Surroundings.exists_role_enter (strict : List Nat → Bool) (σ : Surroundings) (j : Nat) {l : Label}
    {f : Field} (h : l.kind?.any (·.declares f) = true) :
    ∃ k d, l.kind? = some k ∧ k.declaration? f (strict σ.place) σ.parent = some d ∧ d.isTyped = false ∧
      (σ.enter strict l j f).role = .declares d := by
  have ⟨k, hl, hk⟩ := Option.any_eq_true .. |>.mp h
  have ⟨d, hd, ht⟩ : ∃ d, k.declaration? f (strict σ.place) σ.parent = some d ∧ d.isTyped = false :=
    Kind.declares_iff.mp hk
  exact ⟨k, d, hl, hd, ht, role_enter.mpr ⟨k, hl, Kind.role_eq_declares_iff.mpr <| .inl hd⟩⟩

theorem mem_boundByEdges {k : Kind} {i : Ident} {es : List Edge} :
    i ∈ boundByEdges k es ↔ ∃ e ∈ es, k.bindsThrough e.1 = true ∧ i ∈ e.2.bound := by
  induction es
  case nil => simp [boundByEdges]
  case cons e es hi =>
    simp only [boundByEdges, List.mem_append, hi]
    split <;> simp_all

namespace Node

variable {rank : Label → Field → Nat} {strict : List Nat → Bool} {σ : Surroundings} {n : Node} {i : Ident}

section

variable {s : Spot} {d : Declaration}

-- A name that is declared otherwise than in TypeScript alone is bound by the pattern around it, or it is
-- among the names that are declared in the node.
theorem mem_declared_of_mem_spots (h : s ∈ n.spots rank strict σ) (hd : s.declares = some d)
    (ht : d.isTyped = false) :
    (σ.role = .declares d ∧ s.ident ∈ n.bound) ∨ s.ident ∈ n.declared := by
  induction n using partsInduction generalizing σ
  case step l es hes =>
    cases mem_spots_mk.mp h
    case inl h =>
      have ⟨hl, _, hr⟩ := Surroundings.spot?_eq_some_iff.mp h
      have ⟨d', hd', hr⟩ := hr.resolve_right (by simp [hd])
      have heq : d' = d := Option.some.inj <| hd'.symm.trans hd
      cases l
      case ident j =>
        cases hl
        exact .inl ⟨heq ▸ hr, List.mem_singleton_self _⟩
      all_goals simp [Label.ident?] at hl
    case inr h =>
      have ⟨j, e, he, h⟩ := h
      have he := List.mem_of_getElem? he
      rcases hes e he h with ⟨hr, hb⟩ | hi
      · have ⟨k, hk, hr⟩ := Surroundings.role_enter.mp hr
        rcases Kind.role_eq_declares_iff.mp hr with hf | ⟨_, hf, ho⟩
        · have hf := Kind.declares_iff.mpr ⟨d, hf, ht⟩
          exact .inr <| mem_declared.mpr ⟨e, he, .inl ⟨by simp [kind?, label, hk, hf], hb⟩⟩
        · cases l
          case form =>
            cases hk
            exact .inl ⟨ho, mem_boundByEdges.mpr ⟨e, he, Kind.passesOn_eq ▸ hf, hb⟩⟩
          all_goals simp [Label.kind?] at hk
      · exact .inr <| mem_declared.mpr ⟨e, he, .inr hi⟩

-- What a pattern binds stands in the scopes in which the pattern stands.
theorem exists_spot_of_mem_bound (hi : i ∈ n.bound) (hr : σ.role = .declares d) :
    ∃ s ∈ n.spots rank strict σ, s.ident = i ∧ s.declares = some d ∧ s.sights = σ.sights := by
  induction n using partsInduction generalizing σ
  case step l es hes =>
    cases l
    case ident j =>
      simp only [bound, List.mem_singleton] at hi
      refine ⟨⟨i, some d, σ.sights⟩, mem_spots_mk.mpr <| .inl ?_, rfl, rfl, rfl⟩
      simp [Surroundings.spot?, Label.ident?, hr, hi]
    case form k span as =>
      obtain ⟨e, he, hk, hi⟩ := mem_boundByEdges.mp hi
      rw [← Kind.passesOn_eq] at hk
      obtain ⟨j, hj⟩ := List.mem_iff_getElem?.mp he
      have hr : (σ.enter strict (.form k span as) j e.1).role = .declares d :=
        Surroundings.role_enter.mpr ⟨k, rfl, Kind.role_eq_declares_iff.mpr <| .inr
          ⟨Kind.declaration?_of_passesOn hk, hk, hr⟩⟩
      obtain ⟨s, hs, hi, hd, hv⟩ := hes e he hi hr
      refine ⟨s, mem_spots_mk.mpr <| .inr ⟨j, e, hj, hs⟩, hi, hd, ?_⟩
      simp [hv, Surroundings.enter, Label.kind?, Kind.opens_of_passesOn hk]
    all_goals simp [bound] at hi

-- The same of what a form declares in one of its places.
theorem exists_spot_of_declares {l : Label} {e : Edge} {j : Nat} (hk : l.kind?.any (·.declares e.1) = true)
    (hi : i ∈ e.2.bound) : ∃ s ∈ e.2.spots rank strict (σ.enter strict l j e.1), ∃ k d, l.kind? = some k ∧
      k.declaration? e.1 (strict σ.place) σ.parent = some d ∧ d.isTyped = false ∧ s.ident = i ∧
      s.declares = some d := by
  have ⟨k, d, hl, hd, ht, hr⟩ := Surroundings.exists_role_enter strict σ j hk
  have ⟨s, hs, hsi, hsd, _⟩ : ∃ s ∈ e.2.spots rank strict (σ.enter strict l j e.1), _ :=
    exists_spot_of_mem_bound hi hr
  exact ⟨s, hs, k, d, hl, hd, ht, hsi, hsd⟩

theorem exists_spot_of_mem_declared (hi : i ∈ n.declared) :
    ∃ s ∈ n.spots rank strict σ, ∃ d, s.ident = i ∧ s.declares = some d ∧ d.isTyped = false := by
  induction n using partsInduction generalizing σ
  case step l es hes =>
    have ⟨e, he, hi⟩ := mem_declared.mp hi
    have ⟨j, hj⟩ := List.mem_iff_getElem?.mp he
    cases hi
    case inl hi =>
      have ⟨s, hs, _, d, _, _, ht, hi, hd⟩ : ∃ s ∈ e.2.spots rank strict (σ.enter strict l j e.1), _ :=
        exists_spot_of_declares hi.1 hi.2
      exact ⟨s, mem_spots_mk.mpr <| .inr ⟨j, e, hj, hs⟩, d, hi, hd, ht⟩
    case inr hi =>
      have ⟨s, hs, hi⟩ : ∃ s ∈ e.2.spots rank strict (σ.enter strict l j e.1), _ := hes e he hi
      exact ⟨s, mem_spots_mk.mpr <| .inr ⟨j, e, hj, hs⟩, hi⟩

end

-- What a spot in an arrow function declares is declared by the arrow function.
theorem mem_declared_closure {s : Spot} {d : Declaration} (h : s ∈ n.spotsInside rank strict)
    (hd : s.declares = some d) (ht : d.isTyped = false) : s.ident ∈ n.closure.declared :=
  (mem_declared_of_mem_spots h hd ht).resolve_left fun h => nomatch h.1

theorem isFreeIn_iff_of_spots (rank : Label → Field → Nat) (strict : List Nat → Bool) :
    n.isFreeIn i = true ↔ i.name ∉ n.parameterNames ∧ i.name ≠ "arguments" ∧
      ∀ s ∈ n.spotsInside rank strict, ∀ d, s.declares = some d → d.isTyped = false →
        s.ident.binding ≠ i.binding := by
  constructor
  case mp =>
    intro h
    have hdeclared := not_boundBy_of_isFreeIn rfl (fun _ => mem_edges_closure)
      (show n.closure.isFreeIn i = true by simpa using h)
    have ⟨hparams, hname, _⟩ := isFreeIn_iff.mp h
    refine ⟨not_mem_parameterNames.mpr hparams, hname, fun s hs d hd ht heq => ?_⟩
    exact hdeclared <| List.mem_map.mpr ⟨_, mem_declared_closure hs hd ht, heq⟩
  case mpr =>
    intro ⟨hparams, hname, hspots⟩
    refine isFreeIn_iff.mpr ⟨not_mem_parameterNames.mp hparams, hname, ?_⟩
    intro m hm hb
    have ⟨j, hj, heq⟩ := List.mem_map.mp hb
    have hj : j ∈ n.closure.declared := by
      have hm : m ∈ n.closure.functionParts := by simpa using hm
      cases mem_functionParts.mp hm
      case inl hm => exact mem_declared.mpr ⟨_, hm, .inr hj⟩
      case inr hm => exact mem_declared.mpr ⟨_, hm, .inr hj⟩
    have ⟨s, hs, d, hi, hd, ht⟩ : ∃ s ∈ n.spotsInside rank strict, _ := exists_spot_of_mem_declared hj
    exact hspots s hs d hd ht (hi ▸ heq)

-- An arrow function keeps its own names to itself, apart from those that are declared in the ways of
-- TypeScript. What occurs in it is captured exactly if it has the name of no parameter, is not called
-- `arguments`, and is declared in the function in no other way.
structure KeepsNames (strict : List Nat → Bool) (n : Node) : Prop where
  kept : ∀ i ∈ n.captured, ∀ s ∈ n.spotsInside Label.unranked strict, ∀ d,
    s.declares = some d → s.ident.binding = i.binding → d.isTyped = true
  taken : ∀ i, i ∈ n.captured ↔
    (∃ m ∈ n.functionParts, i ∈ m.occurrences) ∧ i.name ∉ n.parameterNames ∧ i.name ≠ "arguments" ∧
      ∀ s ∈ n.spotsInside Label.unranked strict, ∀ d,
        s.declares = some d → d.isTyped = false → s.ident.binding ≠ i.binding

theorem keepsNames (strict : List Nat → Bool) (n : Node) : n.KeepsNames strict where
  kept i hi s hs d hd heq := by
    have ⟨_, hfree⟩ := mem_captured.mp hi
    have ⟨_, _, hspots⟩ := (isFreeIn_iff_of_spots Label.unranked strict).mp hfree
    by_contra ht
    exact hspots s hs d hd (Bool.not_eq_true _ |>.mp ht) heq
  taken i := by rw [mem_captured, isFreeIn_iff_of_spots Label.unranked strict]

-- `() => class { constructor(private x) {} }`
def propertyClosure : Node :=
  .arrow [] <| .form .classExpression [] [(.body, .form .classConstructor [] [
    (.key, .propertyName "constructor"),
    (.params, .form .tsParameterProperty [("accessibility", .str "private")]
      [(.param, .ofIdent { name := "x", scope := 3 })]),
    (.body, .form .blockStatement [] [])])]

-- A parameter that is a property of the constructed object is asked for from outside.
theorem not_kept_property :
    ¬ ∀ i ∈ propertyClosure.captured, ∀ s ∈ propertyClosure.spotsInside Label.unranked fun _ => true,
      s.declares.isSome → s.ident.binding ≠ i.binding := by
  decide

end Node

end RenderMemo
