import RenderMemo.Proofs.FreeVariables

open List

namespace RenderMemo

namespace Surroundings

variable {σ : Surroundings} {l : Label} {i : Ident}

-- An identifier that has a role stands for a variable, unless it is the tag of a host element.
theorem Hears.exists_spot (hσ : σ.Hears l) (hi : l.ident? = some i) :
    ∃ s, σ.spot? l = some s ∧ s.ident = i := by
  have ⟨_, hr, ht⟩ := hσ
  cases hr' : σ.role
  case refers     => exact ⟨⟨i, none, σ.sights⟩, by simp [spot?, hi, hr'], rfl⟩
  case tags       => exact ⟨⟨i, none, σ.sights⟩, by simp [spot?, hi, hr', ht hr' i hi], rfl⟩
  case declares d => exact ⟨⟨i, some d, σ.sights⟩, by simp [spot?, hi, hr'], rfl⟩
  case none       => exact absurd hr' hr

end Surroundings

namespace Node

variable {rank : Label → Field → Nat} {strict : List Nat → Bool} {σ : Surroundings} {n m : Node}
  {i j : Ident} {s : Spot}

-- What is visited as an occurrence of a variable stands for one, with types as well as without them.
theorem exists_spot_of_mem_occurrences (hσ : σ.Hears n.label) (hi : i ∈ n.occurrences) :
    ∃ s ∈ n.spots rank strict σ, s.ident = i := by
  induction n using partsInduction generalizing σ
  case step l es hes =>
    have ⟨hl, hi⟩ := mem_occurrences_mk.mp hi
    cases hi
    case inl hi =>
      have ⟨s, hs, hi⟩ := hσ.exists_spot hi
      exact ⟨s, mem_spots_mk.mpr <| .inl hs, hi⟩
    case inr hi =>
      have ⟨e, he, hi⟩ := mem_occurrencesOfEdges.mp hi
      have ⟨j, hj⟩ := List.mem_iff_getElem?.mp he
      simp only [occurrencesOfEdges, List.append_nil] at hi
      split at hi
      case isTrue => simp at hi
      case isFalse hh =>
        have hσ : (σ.enter strict l j e.1).Hears e.2.label :=
          Surroundings.hears_enter hσ.silent hl <| Bool.not_eq_true _ |>.mp hh
        have ⟨s, hs, hi⟩ := hes e he hσ hi
        exact ⟨s, mem_spots_mk.mpr <| .inr ⟨j, e, hj, hs⟩, hi⟩

-- The tag of an element has no annotation.
def TagsAreBare (n : Node) : Prop :=
  ∀ m ∈ n.subtrees, ∀ e ∈ m.edges,
    m.kind? = some .jsxOpeningElement → e.2.label.ident?.isSome → e.2.edges = []

instance (n : Node) : Decidable n.TagsAreBare :=
  inferInstanceAs (Decidable (∀ m ∈ n.subtrees, ∀ e ∈ m.edges, _))

theorem TagsAreBare.of_mem_edges {l : Label} {es : List Edge} {e : Edge} (h : (mk l es).TagsAreBare)
    (he : e ∈ es) : e.2.TagsAreBare :=
  fun m hm => h m <| mem_subtrees_mk.mpr <| .inr ⟨e, he, hm⟩

theorem TagsAreBare.closure (h : n.TagsAreBare) : n.closure.TagsAreBare := by
  intro m hm
  cases mem_subtrees_closure hm
  case inl hm => exact hm ▸ fun _ _ hk => nomatch hk
  case inr hm => exact h m hm

-- What refers to a variable is visited as an occurrence of it.
theorem mem_occurrences_of_spot (hn : n.TagsAreBare) (hs : s ∈ n.spots rank strict σ)
    (hd : s.declares = none) : s.ident ∈ n.occurrences := by
  induction n using partsInduction generalizing σ
  case step l es hes =>
    have hl : l.kind?.any Kind.holdsNoReference = false := by
      by_contra hl
      simpa [hd] using declares_of_holdsNoReference (Bool.not_eq_false _ |>.mp hl) hs
    refine mem_occurrences_mk.mpr ⟨hl, ?_⟩
    cases mem_spots_mk.mp hs
    case inl hs => exact .inl (Surroundings.spot?_eq_some_iff.mp hs).1
    case inr hs =>
      have ⟨j, e, hj, hs⟩ := hs
      have he := List.mem_of_getElem? hj
      have hh : l.kind?.any (·.holdsLabelOrTag e.1 e.2) = false := by
        by_contra hh
        have ⟨k, hk, hh⟩ := Option.any_eq_true .. |>.mp <| Bool.not_eq_false _ |>.mp hh
        simpa [hd] using declares_of_holdsLabelOrTag (hn _ (mem_subtrees_self _) e he) hk hh hs
      refine .inr <| mem_occurrencesOfEdges.mpr ⟨e, he, ?_⟩
      simpa [occurrencesOfEdges, hh] using hes e he (hn.of_mem_edges he) hs

-- A name that is declared in an arrow function in one of the ways of TypeScript.
def DeclaresTyped (strict : List Nat → Bool) (n : Node) (i : Ident) : Prop :=
  ∃ s ∈ n.spotsInside Label.unranked strict, s.declares.any Declaration.isTyped ∧ s.ident.binding = i.binding

instance (strict : List Nat → Bool) (n : Node) (i : Ident) : Decidable (n.DeclaresTyped strict i) :=
  inferInstanceAs (Decidable (∃ s ∈ _, _))

theorem IsPlain.not_declaresTyped (hn : n.IsPlain) : ¬ n.DeclaresTyped strict i := by
  intro h
  have ⟨s, hs, hd, _⟩ := h
  have ⟨d, hd, ht⟩ := Option.any_eq_true .. |>.mp hd
  simp [hn.closure.isTyped_eq_false hs hd (by simp)] at ht

theorem mem_freeVariables :
    i ∈ n.freeVariables rank strict ↔ ∃ s ∈ n.spotsInside rank strict,
      s.declares = none ∧ n.scopeOf strict s = none ∧ s.ident.name ≠ "arguments" ∧ s.ident = i := by
  simp [freeVariables, and_assoc]

-- Of what refers to a variable or declares one in an arrow function, what is captured refers to a variable
-- that is declared outside, unless the variable is declared in one of the ways of TypeScript.
theorem ResolvedBy.outside_or_declaresTyped (hr : n.ResolvedBy strict)
    (hs : s ∈ n.spotsInside Label.unranked strict) (hf : n.isFreeIn s.ident = true) :
    (s.declares = none ∧ n.scopeOf strict s = none) ∨ n.DeclaresTyped strict s.ident := by
  have ⟨_, _, hspots⟩ := (isFreeIn_iff_of_spots Label.unranked strict).mp hf
  have htyped (t : Spot) (ht : t ∈ n.spotsInside Label.unranked strict) (d : Declaration)
      (hd : t.declares = some d) (hb : t.ident.binding = s.ident.binding) : n.DeclaresTyped strict s.ident := by
    refine ⟨t, ht, Option.any_eq_true .. |>.mpr ⟨d, hd, ?_⟩, hb⟩
    by_contra hn
    exact hspots t ht d hd (Bool.not_eq_true _ |>.mp hn) hb
  cases hd : s.declares
  case some d => exact .inr <| htyped s hs d hd rfl
  case none =>
    cases hc : n.scopeOf strict s
    case none => exact .inl ⟨rfl, rfl⟩
    case some c =>
      have ⟨t, ht, d, htd, hname, htc⟩ := exists_declaring hd hc
      exact .inr <| htyped t ht d htd <| (hr t ht s hs).mpr ⟨hname, htc.trans hc.symm⟩

theorem hears_closure (n : Node) : (⟨[], .refers, false, .hole, []⟩ : Surroundings).Hears n.closure.label :=
  ⟨rfl, by simp, by simp⟩

theorem exists_spot_of_mem_captured (hi : i ∈ n.captured) :
    ∃ s ∈ n.spotsInside rank strict, s.ident = i := by
  have ⟨⟨m, hm, hi⟩, _⟩ := mem_captured.mp hi
  refine exists_spot_of_mem_occurrences n.hears_closure ?_
  rw [occurrences_closure]
  exact mem_flatMap_of_mem hm hi

-- What an arrow function captures, with types as well as without them: its references to what is declared
-- outside of it, and beyond them what is declared in it in one of the ways of TypeScript.
theorem ResolvedBy.mem_captured_iff (hr : n.ResolvedBy strict) (hbare : n.TagsAreBare) :
    i ∈ n.captured ↔
      i ∈ n.freeVariables Label.unranked strict ∨ i ∈ n.captured ∧ n.DeclaresTyped strict i := by
  constructor
  case mp =>
    intro hi
    have ⟨s, hs, heq⟩ : ∃ s ∈ n.spotsInside Label.unranked strict, s.ident = i :=
      exists_spot_of_mem_captured hi
    have ⟨_, hf⟩ := mem_captured.mp hi
    subst heq
    cases hr.outside_or_declaresTyped hs hf
    case inl h => exact .inl <| mem_freeVariables.mpr ⟨s, hs, h.1, h.2, (isFreeIn_iff.mp hf).2.1, rfl⟩
    case inr h => exact .inr ⟨hi, h⟩
  case mpr =>
    intro h
    refine h.elim (fun h => ?_) And.left
    have ⟨s, hs, hd, hc, hname, heq⟩ := mem_freeVariables.mp h
    subst heq
    have hi := mem_occurrences_of_spot hbare.closure hs hd
    rw [occurrences_closure, List.mem_flatMap] at hi
    refine mem_captured.mpr ⟨hi, (isFreeIn_iff_of_spots Label.unranked strict).mpr ⟨?_, hname, ?_⟩⟩
    · exact fun hparam => scopeOf_ne_none hs hd hparam hc
    · intro t ht d htd _ hb
      have ⟨_, hscope⟩ := (hr t ht s hs).mp hb
      have ⟨c, hhome⟩ := exists_home ht d
      simp [hc, scopeOf_of_declares htd, hhome] at hscope

-- Captured variables of one name are one variable if they are all declared outside.
theorem ResolvedBy.binding_eq (hr : n.ResolvedBy strict) (hi : i ∈ n.captured) (hj : j ∈ n.captured)
    (hti : ¬ n.DeclaresTyped strict i) (htj : ¬ n.DeclaresTyped strict j) (hname : i.name = j.name) :
    i.binding = j.binding := by
  have ⟨s, hs, his⟩ : ∃ s ∈ n.spotsInside Label.unranked strict, s.ident = i := exists_spot_of_mem_captured hi
  have ⟨t, ht, hjt⟩ : ∃ t ∈ n.spotsInside Label.unranked strict, t.ident = j := exists_spot_of_mem_captured hj
  subst his hjt
  have ⟨_, hfs⟩ := mem_captured.mp hi
  have ⟨_, hft⟩ := mem_captured.mp hj
  have ⟨_, hcs⟩ := (hr.outside_or_declaresTyped hs hfs).resolve_right hti
  have ⟨_, hct⟩ := (hr.outside_or_declaresTyped ht hft).resolve_right htj
  exact (hr s hs t ht).mpr ⟨hname, hcs.trans hct.symm⟩

end Node

end RenderMemo
