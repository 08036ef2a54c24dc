import RenderMemo.Proofs.LocalNames

open List

namespace RenderMemo

section

variable {k : Kind} {f : Field} {strict : Bool} {parent : Label} {outer : Role} {d : Declaration}

theorem Kind.role_ne_none : k.role f strict parent outer ≠ .none := by
  unfold role Role.passedOn
  grind

theorem Kind.role_eq_tags (h : k.role f strict parent outer = .tags) :
    k = .jsxOpeningElement ∧ f = .name := by
  unfold role Role.passedOn at h
  grind

-- Without types, a name is declared in no way of TypeScript.
theorem Kind.declares_of_not_isTypeScript (h : k.declaration? f strict parent = some d)
    (hk : k.isTypeScript = false) : k.declares f = true := by
  unfold declaration? at h
  split at h
  all_goals first | rfl | cases hk | cases h

theorem Kind.isTyped_eq_false (h : k.role f strict parent outer = .declares d)
    (hk : k.isTypeScript = false) (ho : outer ≠ .declares d) : d.isTyped = false := by
  have h := (role_eq_declares_iff.mp h).resolve_right fun h => ho h.2.2
  have ⟨d', hd', ht⟩ : ∃ d', k.declaration? f strict parent = some d' ∧ d'.isTyped = false :=
    declares_iff.mp <| declares_of_not_isTypeScript h hk
  exact Option.some.inj (h.symm.trans hd') ▸ ht

theorem Kind.isSilent_of_holdsNoReference (h : k.holdsNoReference = true) : k.isSilent f = true := by
  unfold isSilent
  split
  all_goals first | rfl | simp_all [holdsNoReference]

theorem Kind.isSilent_eq_true (h : k.isSilent f = true) (hk : k.holdsNoReference = false) :
    k = .labeledStatement ∧ f = .label := by
  unfold isSilent at h
  split at h
  all_goals first | exact ⟨rfl, rfl⟩ | simp_all [holdsNoReference]

end

-- Whether a part of a form is a name that the form declares in the place of the part.
def Label.declaresName (l : Label) (e : Edge) : Bool :=
  l.kind?.any (·.declares e.1) && e.2.label.ident?.isSome

-- The references among the variables of a tree that satisfy a test.
def references (p : Ident → Bool) (ss : List Spot) : List Ident :=
  (ss.filter fun s => s.declares.isNone && p s.ident).map Spot.ident

section

variable {p : Ident → Bool} {ss ts : List Spot} {s : Spot}

theorem references_append : references p (ss ++ ts) = references p ss ++ references p ts := by
  simp [references]

theorem references_flatMap {parts : List (Field × List Spot)} :
    references p (parts.flatMap Prod.snd) =
      (parts.map fun q => (q.1, references p q.2)).flatMap Prod.snd := by
  simp only [references, filter_flatMap, map_flatMap, flatMap_map]

theorem references_arranged (rank : Field → Nat) (parts : List (Field × List Spot)) :
    references p (arranged rank parts) = arranged rank (parts.map fun q => (q.1, references p q.2)) := by
  rw [arranged, references_flatMap]
  exact congrArg (flatMap Prod.snd) <| map_insertionSort _ _ _ _ fun _ _ _ _ => Iff.rfl

theorem references_of_forall (h : ∀ s ∈ ss, s.declares.isSome) : references p ss = [] := by
  simp only [references, List.map_eq_nil_iff, List.filter_eq_nil_iff, Bool.and_eq_true, not_and]
  intro s hs hn
  have hd := h s hs
  simp [Option.isNone_iff_eq_none.mp hn] at hd

end

-- Where identifiers have no role, there are no references.

namespace Surroundings

variable {rank : Label → Field → Nat} {strict : List Nat → Bool} {σ : Surroundings} {l : Label} {j : Nat}
  {f : Field}

-- An identifier in a place is there for a reference, or it declares a name.
structure Hears (σ : Surroundings) (l : Label) : Prop where
  silent : σ.silent = false
  role   : σ.role ≠ .none
  tag    : σ.role = .tags → ∀ i, l.ident? = some i → isIntrinsicTag i.name = false

def Mute (σ : Surroundings) : Prop := σ.silent = true ∧ (σ.role = .none ∨ ∃ d, σ.role = .declares d)

theorem mute_enter (h : σ.silent = true ∨ l.kind?.any (·.isSilent f) = true) :
    (σ.enter strict l j f).Mute := by
  have hs : (σ.silent || l.kind?.any (·.isSilent f)) = true := by simpa using h
  refine ⟨hs, ?_⟩
  simp only [enter, hs]
  split
  · exact .inr ⟨_, rfl⟩
  · exact .inl rfl

theorem Mute.declares {n : Node} {s : Spot} (h : σ.Mute) (hs : s ∈ n.spots rank strict σ) :
    s.declares.isSome := by
  induction n using Node.partsInduction generalizing σ
  case step l es hi =>
    cases Node.mem_spots_mk.mp hs
    case inl hs =>
      have ⟨_, _, hr⟩ := spot?_eq_some_iff.mp hs
      have ⟨_, hm⟩ := h
      grind
    case inr hs =>
      have ⟨j, e, he, hs⟩ := hs
      exact hi e (List.mem_of_getElem? he) (mute_enter <| .inl h.1) hs

theorem role_enter_of_not_silent (h : (σ.enter strict l j f).silent = false) :
    (σ.enter strict l j f).role =
      (l.kind?.map fun k => k.role f (strict σ.place) σ.parent σ.role).getD .refers := by
  have hs : (σ.silent || l.kind?.any (·.isSilent f)) = false := h
  simp only [enter, hs]
  grind

-- Outside of the forms that hold no reference, the only silent place is that of a label.
theorem hears_enter {n : Node} (hσ : σ.silent = false) (hl : l.kind?.any Kind.holdsNoReference = false)
    (hn : l.kind?.any (·.holdsLabelOrTag f n) = false) : (σ.enter strict l j f).Hears n.label := by
  cases hk : l.kind?
  case none =>
    have hs : (σ.enter strict l j f).silent = false := by simp [enter, hk, hσ]
    have hr := role_enter_of_not_silent hs
    simp only [hk, Option.map_none, Option.getD_none] at hr
    exact ⟨hs, by simp [hr], by simp [hr]⟩
  case some k =>
    simp only [hk, Option.any_some] at hl hn
    have hf : k.isSilent f = false := by
      by_contra hf
      obtain ⟨hk, hf⟩ := Kind.isSilent_eq_true (Bool.not_eq_false _ |>.mp hf) hl
      simp [hk, hf, Kind.holdsLabelOrTag] at hn
    have hs : (σ.enter strict l j f).silent = false := by simp [enter, hk, hσ, hf]
    have hr := role_enter_of_not_silent hs
    simp only [hk, Option.map_some, Option.getD_some] at hr
    refine ⟨hs, hr ▸ Kind.role_ne_none, fun ht i hi => ?_⟩
    obtain ⟨hk, hf⟩ := Kind.role_eq_tags <| hr ▸ ht
    cases hn' : n.label <;> simp_all [Kind.holdsLabelOrTag, Label.ident?]

end Surroundings

section

variable {strict : List Nat → Bool} {σ : Surroundings} {l : Label} {es : List Edge} {p : Ident → Bool}

theorem Node.spots_unranked :
    (mk l es).spots Label.unranked strict σ =
      (σ.spot? l).toList ++ (spotsOfParts Label.unranked strict σ l 0 es).flatMap Prod.snd := by
  rw [spots, arranged_eq <| pairwise_of_forall fun _ _ => Nat.le_refl _]

theorem filter_occurrencesOfEdges {index : Nat}
    (h : ∀ j, ∀ e : Edge, es[j]? = some e → (occurrencesOfEdges l.kind? [e]).filter p =
      references p (e.2.spots Label.unranked strict (σ.enter strict l (index + j) e.1))) :
    (occurrencesOfEdges l.kind? es).filter p =
      references p ((spotsOfParts Label.unranked strict σ l index es).flatMap Prod.snd) := by
  induction es generalizing index
  case nil => rfl
  case cons e es hi =>
    have hhead := h 0 e rfl
    have htail := @hi (index + 1) fun j e' he => by
      have h := h (j + 1) e' he
      rwa [← Nat.add_assoc, Nat.add_right_comm] at h
    simp only [occurrencesOfEdges, List.append_nil, Nat.add_zero] at hhead
    simp only [occurrencesOfEdges, spotsOfParts, List.flatMap_cons, List.filter_append,
      references_append, hhead, htail]

variable {rank : Label → Field → Nat} {n : Node} {s : Spot}

theorem Node.IsPlain.of_mem_edges {e : Edge} (h : (Node.mk l es).IsPlain) (he : e ∈ es) : e.2.IsPlain :=
  fun m hm => h m <| mem_subtrees_mk.mpr <| .inr ⟨e, he, hm⟩

-- In the place of a label or of the tag of a host element, nothing refers to a variable.
theorem Node.declares_of_holdsLabelOrTag {k : Kind} {f : Field} {j : Nat}
    (hbare : l.kind? = some .jsxOpeningElement → n.label.ident?.isSome → n.edges = [])
    (hk : l.kind? = some k) (h : k.holdsLabelOrTag f n = true)
    (hs : s ∈ n.spots rank strict (σ.enter strict l j f)) : s.declares.isSome := by
  unfold Kind.holdsLabelOrTag at h
  split at h
  case h_1 => exact (Surroundings.mute_enter <| .inr <| by simp [hk, Kind.isSilent]).declares hs
  case h_2 i hl =>
    obtain ⟨l', es'⟩ := n
    cases hl
    have hes : es' = [] := hbare hk rfl
    have hs := (mem_spots_mk.mp hs).resolve_right (by simp [hes])
    have ⟨hi, _, hr⟩ := Surroundings.spot?_eq_some_iff.mp hs
    have hi : i = s.ident := Option.some.inj hi
    have htags : Kind.jsxOpeningElement.role .name (strict σ.place) σ.parent σ.role = .tags := rfl
    simp only [Surroundings.enter, hk, Option.map_some, Option.getD_some, htags] at hr
    grind
  case h_3 => simp at h

theorem Node.declares_of_holdsNoReference (h : l.kind?.any Kind.holdsNoReference = true)
    (hs : s ∈ (mk l es).spots rank strict σ) : s.declares.isSome := by
  have ⟨k, hk, h⟩ := Option.any_eq_true .. |>.mp h
  cases mem_spots_mk.mp hs
  case inl hs =>
    have ⟨hi, _⟩ := Surroundings.spot?_eq_some_iff.mp hs
    cases l <;> simp [Label.kind?, Label.ident?] at hk hi
  case inr hs =>
    have ⟨j, e, _, hs⟩ := hs
    refine (Surroundings.mute_enter <| .inr ?_).declares hs
    exact Option.any_eq_true .. |>.mpr ⟨k, hk, Kind.isSilent_of_holdsNoReference h⟩

theorem Node.references_of_holdsLabelOrTag {k : Kind} {f : Field} {j : Nat} (hn : n.IsPlain)
    (hk : l.kind? = some k) (h : k.holdsLabelOrTag f n = true) :
    references p (n.spots Label.unranked strict (σ.enter strict l j f)) = [] :=
  references_of_forall fun _ => declares_of_holdsLabelOrTag (fun _ => (hn n n.mem_subtrees_self).2) hk h

theorem Node.references_of_holdsNoReference (h : l.kind?.any Kind.holdsNoReference = true) :
    references p ((mk l es).spots Label.unranked strict σ) = [] :=
  references_of_forall fun _ => declares_of_holdsNoReference h

theorem Surroundings.Hears.filter_ident (hσ : σ.Hears l)
    (hp : ∀ s, σ.spot? l = some s → s.declares.isSome → p s.ident = false) :
    l.ident?.toList.filter p = references p (σ.spot? l).toList := by
  have ⟨_, hr, ht⟩ := hσ
  cases hl : l.ident?
  case none => simp [spot?, hl, references]
  case some i =>
    cases hr' : σ.role
    case refers => by_cases hi : p i <;> simp [spot?, hl, hr', references, hi]
    case tags =>
      have hi := ht hr' i hl
      by_cases hi' : p i <;> simp [spot?, hl, hr', references, hi, hi']
    case declares d =>
      have hs : σ.spot? l = some ⟨i, some d, σ.sights⟩ := by simp [spot?, hl, hr']
      simp [hs, hp _ hs rfl, references]
    case none => exact absurd hr' hr

-- If a test is passed by no name that is declared, then what passes it among the occurrences of a tree
-- are the references that pass it, in the same order.
theorem Node.filter_occurrences (hn : n.IsPlain) (hσ : σ.Hears n.label)
    (hp : ∀ s ∈ n.spots Label.unranked strict σ, s.declares.isSome → p s.ident = false) :
    n.occurrences.filter p = references p (n.spots Label.unranked strict σ) := by
  induction n using partsInduction generalizing σ
  case step l es hi =>
    rw [occurrences]
    split
    case isTrue hl => exact (references_of_holdsNoReference hl).symm
    case isFalse hl =>
      have hl : l.kind?.any Kind.holdsNoReference = false := Bool.not_eq_true _ |>.mp hl
      rw [spots_unranked, references_append, List.filter_append]
      congr 1
      · exact hσ.filter_ident fun s hs => hp s <| mem_spots_mk.mpr <| .inl hs
      · refine filter_occurrencesOfEdges fun j e he => ?_
        have hmem := List.mem_of_getElem? he
        have hn := hn.of_mem_edges hmem
        simp only [occurrencesOfEdges, List.append_nil, Nat.zero_add]
        split
        case isTrue hh =>
          have ⟨k, hk, hh⟩ := Option.any_eq_true .. |>.mp hh
          exact (references_of_holdsLabelOrTag hn hk hh).symm
        case isFalse hh =>
          have hh := Bool.not_eq_true _ |>.mp hh
          refine hi e hmem hn (Surroundings.hears_enter hσ.silent hl hh) fun s hs => ?_
          exact hp s <| mem_spots_mk.mpr <| .inr ⟨j, e, he, hs⟩

end

namespace Node

variable {rank : Label → Field → Nat} {strict : List Nat → Bool} {σ : Surroundings} {n : Node} {s : Spot}
  {d : Declaration}

-- Without types nothing is declared in the ways of TypeScript.
theorem IsPlain.isTyped_eq_false (hn : n.IsPlain) (hs : s ∈ n.spots rank strict σ)
    (hd : s.declares = some d) (hσ : σ.role ≠ .declares d) : d.isTyped = false := by
  by_contra ht
  have ht := Bool.not_eq_false _ |>.mp ht
  induction n using partsInduction generalizing σ
  case step l es hi =>
    cases mem_spots_mk.mp hs
    case inl hs =>
      have ⟨_, _, hr⟩ := Surroundings.spot?_eq_some_iff.mp hs
      grind
    case inr hs =>
      have ⟨j, e, he, hs⟩ := hs
      have he := List.mem_of_getElem? he
      refine hi e he (hn.of_mem_edges he) hs fun hr => ?_
      have ⟨k, hk, hr⟩ := Surroundings.role_enter.mp hr
      have hk : k.isTypeScript = false := by simpa [kind?, label, hk] using (hn _ (mem_subtrees_self _)).1
      simp [Kind.isTyped_eq_false hr hk hσ] at ht

theorem IsPlain.closure (hn : n.IsPlain) : n.closure.IsPlain := by
  intro m hm
  cases mem_subtrees_closure hm
  case inl hm => exact hm ▸ ⟨rfl, nofun⟩
  case inr hm => exact hn m hm

theorem IsPlain.not_isFreeIn (hn : n.IsPlain) (hs : s ∈ n.spotsInside rank strict)
    (hd : s.declares.isSome) : n.isFreeIn s.ident = false := by
  have ⟨d, hd⟩ := Option.isSome_iff_exists.mp hd
  have ht := hn.closure.isTyped_eq_false hs hd (by simp)
  by_contra hf
  have ⟨_, _, hf⟩ := (isFreeIn_iff_of_spots rank strict).mp <| Bool.not_eq_false _ |>.mp hf
  exact hf s hs d hd ht rfl

-- What an arrow function captures are its references to what it does not declare.
theorem IsPlain.captured_eq (hn : n.IsPlain) (strict : List Nat → Bool) :
    n.captured = references n.isFreeIn (n.spotsInside Label.unranked strict) := by
  rw [captured, ← occurrences_closure]
  exact filter_occurrences hn.closure ⟨rfl, by simp, by simp⟩ fun s hs => hn.not_isFreeIn hs

-- From everywhere in an arrow function the scope of the function is seen.
theorem exists_sight (hs : s ∈ n.spotsInside rank strict) : ∃ v ∈ s.sights, v.scope = ⟨[], true⟩ := by
  have ⟨j, e, he, hs⟩ := (mem_spots_mk.mp hs).resolve_left (by simp [Surroundings.spot?, Label.ident?])
  have hsub := (sights_suffix hs).subset
  rcases mem_edges_closure (List.mem_of_getElem? he) with hf | hf
  · exact ⟨⟨⟨[], true⟩, true⟩, hsub (by simp [hf, Surroundings.enter, Label.kind?, Kind.opens]), rfl⟩
  · exact ⟨⟨⟨[], true⟩, false⟩, hsub (by simp [hf, Surroundings.enter, Label.kind?, Kind.opens]), rfl⟩

theorem exists_home (hs : s ∈ n.spotsInside rank strict) (d : Declaration) : ∃ c, s.home d = some c := by
  have ⟨v, hv, hc⟩ := exists_sight hs
  have h : (s.sights.find? fun v => !d.isForFunction || v.scope.isFunction).isSome :=
    List.find?_isSome.mpr ⟨v, hv, by simp [hc]⟩
  have ⟨v', hv'⟩ := Option.isSome_iff_exists.mp h
  exact ⟨v'.scope, by simp [Spot.home, hv']⟩

theorem mem_declarations {c : Declared} :
    c ∈ n.declarations strict ↔ ∃ s ∈ n.spotsInside Label.unranked strict, ∃ d,
      s.declares = some d ∧ s.home d = some c.scope ∧ c.name = s.ident.name ∧
      c.isParameter = d.isParameter := by
  obtain ⟨name, scope, par⟩ := c
  simp only [declarations, List.mem_filterMap, Spot.declared?, Option.bind_eq_bind, Option.bind_eq_some_iff,
    Option.pure_def, Option.some.injEq, Declared.mk.injEq]
  grind

theorem scopeOf_of_declares (hd : s.declares = some d) : n.scopeOf strict s = s.home d := by
  simp [scopeOf, Spot.scopeIn, hd]

theorem scopeOf_of_refers (hd : s.declares = none) :
    n.scopeOf strict s = (s.sights.find? fun v =>
      (n.declarations strict).any fun c => c.name == s.ident.name && v.shows c).map Sight.scope := by
  simp [scopeOf, Spot.scopeIn, hd]

-- A reference to a variable of the function is to one that is declared somewhere in the function.
theorem exists_declaring (hd : s.declares = none) {c : Scope} (h : n.scopeOf strict s = some c) :
    ∃ t ∈ n.spotsInside Label.unranked strict, ∃ d, t.declares = some d ∧
      t.ident.name = s.ident.name ∧ n.scopeOf strict t = some c := by
  simp only [scopeOf_of_refers hd, Option.map_eq_some_iff] at h
  have ⟨v, hv, hc⟩ := h
  have hv := List.find?_some hv
  have ⟨m, hm, hshows⟩ := List.any_eq_true.mp hv
  have ⟨t, ht, d, htd, hhome, hname, _⟩ := mem_declarations.mp hm
  simp only [Bool.and_eq_true, beq_iff_eq, Sight.shows] at hshows
  have ⟨heq, hscope, _⟩ := hshows
  exact ⟨t, ht, d, htd, hname ▸ heq, by rw [scopeOf_of_declares htd, hhome, hscope, hc]⟩

theorem exists_declared_parameter {name : String} (h : name ∈ n.parameterNames) :
    ⟨name, ⟨[], true⟩, true⟩ ∈ n.declarations strict := by
  simp only [parameterNames, List.mem_map, List.mem_flatMap] at h
  have ⟨i, ⟨m, hm, hi⟩, hname⟩ := h
  have he : (.params, m) ∈ n.closure.edges := mem_at.mp <| by simpa using hm
  have ⟨j, hj⟩ := List.mem_iff_getElem?.mp he
  have ⟨t, ht, hti, htd, hv⟩ : ∃ t ∈ m.spots Label.unranked strict
      (Surroundings.enter strict ⟨[], .refers, false, .hole, []⟩ n.closure.label j .params), _ :=
    exists_spot_of_mem_bound hi <| Surroundings.role_enter.mpr ⟨_, rfl, rfl⟩
  refine mem_declarations.mpr ⟨t, mem_spots_mk.mpr <| .inr ⟨j, _, hj, ht⟩, _, htd, ?_, ?_, rfl⟩
  · rw [Spot.home, hv]
    rfl
  · exact hname ▸ hti ▸ rfl

theorem scopeOf_ne_none (hs : s ∈ n.spotsInside Label.unranked strict) (hd : s.declares = none)
    (h : s.ident.name ∈ n.parameterNames) : n.scopeOf strict s ≠ none := by
  have ⟨v, hv, hc⟩ := exists_sight hs
  simp only [scopeOf_of_refers hd, ne_eq, Option.map_eq_none_iff, List.find?_eq_none]
  intro hnone
  apply hnone v hv
  exact List.any_eq_true.mpr ⟨_, exists_declared_parameter h, by simp [Sight.shows, hc]⟩

-- If variables are resolved, then it is the references to what is declared outside that are free.
theorem ResolvedBy.isFreeIn_eq (hr : n.ResolvedBy strict) (hn : n.IsPlain)
    (hs : s ∈ n.spotsInside Label.unranked strict) (hd : s.declares = none) :
    n.isFreeIn s.ident = ((n.scopeOf strict s).isNone && s.ident.name != "arguments") := by
  rw [Bool.eq_iff_iff, isFreeIn_iff_of_spots Label.unranked strict, Bool.and_eq_true,
    Option.isNone_iff_eq_none, bne_iff_ne]
  constructor
  case mp =>
    intro h
    have ⟨_, hname, hspots⟩ := h
    refine ⟨?_, hname⟩
    by_contra hc
    have ⟨c, hc⟩ := Option.ne_none_iff_exists'.mp hc
    have ⟨t, ht, d, htd, hname, htc⟩ := exists_declaring hd hc
    have htyped := hn.closure.isTyped_eq_false ht htd (by simp)
    exact hspots t ht d htd htyped <| (hr t ht s hs).mpr ⟨hname, htc.trans hc.symm⟩
  case mpr =>
    intro h
    have ⟨hnone, hname⟩ := h
    refine ⟨fun hparam => scopeOf_ne_none hs hd hparam hnone, hname, ?_⟩
    intro t ht d htd _ heq
    have ⟨_, hscope⟩ := (hr t ht s hs).mp heq
    have ⟨c, hc⟩ := exists_home ht d
    simp [hnone, scopeOf_of_declares htd, hc] at hscope

-- The parts of a form hold the same variables in every order.

theorem spotsOfParts_perm {index : Nat} {l : Label} {es : List Edge}
    (h : ∀ e ∈ es, ∀ σ, e.2.spots rank strict σ ~ e.2.spots Label.unranked strict σ) :
    (spotsOfParts rank strict σ l index es).flatMap Prod.snd ~
      (spotsOfParts Label.unranked strict σ l index es).flatMap Prod.snd := by
  induction es generalizing index
  case nil => rfl
  case cons e es hi =>
    have ⟨hhead, htail⟩ := List.forall_mem_cons.mp h
    simp only [spotsOfParts, List.flatMap_cons]
    exact (hhead _).append (hi htail)

theorem spots_perm (rank : Label → Field → Nat) (n : Node) :
    n.spots rank strict σ ~ n.spots Label.unranked strict σ := by
  induction n using partsInduction generalizing σ
  case step l es hi =>
    rw [spots_unranked, spots]
    refine Perm.append_left _ <| (arranged_perm ..).trans ?_
    exact spotsOfParts_perm fun e he _ => hi e he

theorem freeVariables_eq_references (hn : n.IsPlain) (hr : n.ResolvedBy strict) (rank : Label → Field → Nat) :
    n.freeVariables rank strict = references n.isFreeIn (n.spotsInside rank strict) := by
  rw [references, freeVariables]
  congr 1
  refine List.filter_congr fun s hs => ?_
  cases hd : s.declares
  case none => simp [hr.isFreeIn_eq hn ((spots_perm rank _).mem_iff.mp hs) hd]
  case some => simp

-- The order of the visit is that of the source text if no part that comes earlier in the text is visited
-- behind one that comes later. That is the case without `do` statements, classes that have a superclass
-- as well as members, and decorators. A name that is declared in its place refers to nothing, so that it
-- does not matter when it is visited.
def IsOrdered (n : Node) : Prop :=
  ∀ m ∈ n.subtrees, (m.edges.filter (!m.label.declaresName ·)).Pairwise fun e e' =>
    m.label.rank e.1 ≤ m.label.rank e'.1

instance (n : Node) : Decidable n.IsOrdered :=
  inferInstanceAs (Decidable (∀ m ∈ n.subtrees, List.Pairwise _ _))

theorem IsVisitedAsWritten.isOrdered (h : n.IsVisitedAsWritten) : n.IsOrdered :=
  fun m hm => (h m hm).filter _

theorem IsOrdered.of_mem_edges {l : Label} {es : List Edge} {e : Edge} (h : (Node.mk l es).IsOrdered)
    (he : e ∈ es) : e.2.IsOrdered :=
  fun m hm => h m <| mem_subtrees_mk.mpr <| .inr ⟨e, he, hm⟩

theorem IsOrdered.closure (h : n.IsOrdered) : n.closure.IsOrdered := by
  intro m hm
  cases mem_subtrees_closure hm
  case inr hm => exact h m hm
  case inl hm =>
    subst hm
    refine Pairwise.filter _ <| pairwise_append.mpr ⟨?_, ?_, ?_⟩
    · exact pairwise_map.mpr <| pairwise_of_forall fun _ _ => Nat.le_refl _
    · exact pairwise_map.mpr <| pairwise_of_forall fun _ _ => Nat.le_refl _
    · simp only [mem_map]
      rintro _ ⟨_, _, rfl⟩ _ ⟨_, _, rfl⟩
      exact show Kind.arrowFunctionExpression.textPlaces.idxOf .params ≤
        Kind.arrowFunctionExpression.textPlaces.idxOf .body by decide

theorem references_of_declaresName {l : Label} {e : Edge} {j : Nat} {p : Ident → Bool}
    (h : l.declaresName e = true) (hn : e.2.IsPlain) :
    references p (e.2.spots rank strict (σ.enter strict l j e.1)) = [] := by
  have ⟨hk, hi⟩ := Bool.and_eq_true .. |>.mp h
  have ⟨_, d, _, _, _, hr⟩ := Surroundings.exists_role_enter strict σ j hk
  have hes := (hn _ (mem_subtrees_self _)).2 hi
  refine references_of_forall fun s hs => ?_
  rw [← mk_label_edges e.2, mem_spots_mk, hes] at hs
  have ⟨_, _, hs⟩ := Surroundings.spot?_eq_some_iff.mp <| hs.resolve_right (by simp)
  grind

-- The parts of a form in which there are references are visited in the order of the text.
theorem IsOrdered.pairwise_references {l : Label} {es : List Edge} (h : (Node.mk l es).IsOrdered)
    (hn : (Node.mk l es).IsPlain) (p : Ident → Bool) :
    (((spotsOfParts Label.unranked strict σ l 0 es).map fun q => (q.1, references p q.2)).filter
      fun q => !q.2.isEmpty).Pairwise fun q q' => l.rank q.1 ≤ l.rank q'.1 := by
  have hes : es.zipIdx.Pairwise fun q q' =>
      !l.declaresName q.1 → !l.declaresName q'.1 → l.rank q.1.1 ≤ l.rank q'.1.1 := by
    have hes := pairwise_filter.mp <| h _ (mem_subtrees_self _)
    rw [← zipIdx_map_fst 0 es] at hes
    exact pairwise_map.mp hes
  have hname (e : Edge) (j : Nat) (he : (e, j) ∈ es.zipIdx)
      (hs : (!(references p (e.2.spots Label.unranked strict (σ.enter strict l j e.1))).isEmpty) = true) :
      (!l.declaresName e) = true := by
    by_contra hd
    rw [references_of_declaresName (by simpa using hd) <| hn.of_mem_edges <| fst_mem_of_mem_zipIdx he] at hs
    cases hs
  rw [pairwise_filter, spotsOfParts_eq_map, map_map, pairwise_map]
  exact hes.imp_of_mem fun {q q'} hq hq' hle hs hs' => hle (hname _ _ hq hs) (hname _ _ hq' hs')

theorem IsOrdered.references_spots (h : n.IsOrdered) (hn : n.IsPlain) (p : Ident → Bool) :
    references p (n.spots Label.rank strict σ) = references p (n.spots Label.unranked strict σ) := by
  induction n using partsInduction generalizing σ
  case step l es hi =>
    have hparts : (spotsOfParts Label.rank strict σ l 0 es).map (fun q => (q.1, references p q.2)) =
        (spotsOfParts Label.unranked strict σ l 0 es).map fun q => (q.1, references p q.2) := by
      rw [spotsOfParts_eq_map, spotsOfParts_eq_map, map_map, map_map]
      refine map_congr_left fun (e, j) he => ?_
      have he := fst_mem_of_mem_zipIdx he
      exact congrArg (Prod.mk e.1) <| hi e he (h.of_mem_edges he) (hn.of_mem_edges he)
    rw [spots_unranked, spots, references_append, references_append, references_arranged, hparts,
      arranged_eq (h.pairwise_references hn p), references_flatMap]

-- What an arrow function captures, without types and once variables are resolved: its references to what
-- is declared outside of it, in the order of the visit. They are those of the source text, too, and in
-- that order if the visit has the order of the source text.
structure CapturesFree (strict : List Nat → Bool) (n : Node) : Prop where
  visited : n.captured = n.freeVariables Label.unranked strict
  written : n.captured ~ n.freeVariables Label.rank strict
  ordered : n.IsOrdered → n.captured = n.freeVariables Label.rank strict

theorem capturesFree (hplain : n.IsPlain) (hresolved : n.ResolvedBy strict) : n.CapturesFree strict where
  visited := by
    rw [hplain.captured_eq strict, freeVariables_eq_references hplain hresolved]
  written := by
    rw [hplain.captured_eq strict, freeVariables_eq_references hplain hresolved]
    exact ((spots_perm ..).symm.filter _).map _
  ordered h := by
    rw [hplain.captured_eq strict, freeVariables_eq_references hplain hresolved]
    exact (h.closure.references_spots hplain.closure _).symm

-- `(p = q, { r: [s] = t }) => {
--   var v = p;
--   function f(v) { return v(u); }
--   try { f(s); } catch (e) { e[w]; }
--   return <Row x={arguments}>{class C { m(x) { C.x = x; } }}</Row>;
-- }`
def manyScopes : Node :=
  let ident (name : String) (scope : Nat) : Node := .ofIdent { name, scope }
  let block (stmts : List Node) : Node := .form .blockStatement [] (stmts.map (.stmts, ·))
  let stmt (n : Node) : Node := .form .expressionStatement [] [(.expression, n)]
  .arrow [
      .form .assignmentPattern [] [(.left, ident "p" 2), (.right, ident "q" 1)],
      .form .objectPattern [] [(.properties, .form .keyValuePatternProperty []
        [(.key, .propertyName "r"), (.value, .form .assignmentPattern []
          [(.left, .form .arrayPattern [] [(.elements, ident "s" 2)]), (.right, ident "t" 1)])])]]
    (block [
      .form .variableDeclaration [("kind", .str "var")] [(.declarations,
        .form .variableDeclarator [] [(.id, ident "v" 2), (.init, ident "p" 2)])],
      .form .functionDeclaration [] [(.identifier, ident "f" 2), (.params, .parameter (ident "v" 3)),
        (.body, .returnBlock (.call (ident "v" 3) [.entry (ident "u" 1)]))],
      .form .tryStatement [] [
        (.block, block [stmt (.call (ident "f" 2) [.entry (ident "s" 2)])]),
        (.handler, .form .catchClause [] [(.param, ident "e" 4), (.body, block [stmt
          (.form .memberExpression [] [(.object, ident "e" 4),
            (.property, .form .computed [] [(.expression, ident "w" 1)])])])])],
      .form .returnStatement [] [(.argument, .form .jsxElement [] [
        (.opening, .form .jsxOpeningElement [] [(.name, ident "Row" 1),
          (.attributes, .form .jsxAttribute [] [(.name, .propertyName "x"),
            (.value, .form .jsxExpressionContainer [] [(.expression, ident "arguments" 1)])])]),
        (.children, .form .jsxExpressionContainer [] [(.expression, .form .classExpression [] [
          (.identifier, ident "C" 5), (.body, .form .classMethod [] [(.key, .propertyName "m"),
            (.params, .parameter (ident "x" 6)), (.body, block [stmt (.form .assignmentExpression []
              [(.left, .member (ident "C" 5) "x"), (.right, ident "x" 6)])])])])]),
        (.closing, .form .jsxClosingElement [] [(.name, ident "Row" 1)])])]])

theorem capturesFree_manyScopes :
    manyScopes.IsPlain ∧ manyScopes.ResolvedBy (fun _ => false) ∧ manyScopes.IsOrdered ∧
      manyScopes.CapturesFree (fun _ => false) ∧
      manyScopes.captured.map Ident.name = ["q", "t", "u", "w", "Row"] :=
  have hplain : manyScopes.IsPlain := by decide +kernel
  have hresolved : manyScopes.ResolvedBy fun _ => false := by decide +kernel
  ⟨hplain, hresolved, by decide +kernel, capturesFree hplain hresolved, by decide +kernel⟩

-- `() => { do { a(); } while (b); }`
def doClosure : Node :=
  .arrow [] <| .form .blockStatement [] [(.stmts, .form .doWhileStatement [] [
    (.test, .ofIdent { name := "b", scope := 1 }),
    (.body, .form .blockStatement [] [(.stmts, .form .expressionStatement []
      [(.expression, .call (.ofIdent { name := "a", scope := 1 }) [])])])])]

-- The test of a `do` statement is visited in front of its body.
theorem not_written_do :
    doClosure.IsPlain ∧ doClosure.ResolvedBy (fun _ => true) ∧
      doClosure.captured ≠ doClosure.freeVariables Label.rank (fun _ => true) := by
  decide +kernel

end Node

end RenderMemo
