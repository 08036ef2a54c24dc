import RenderMemo.Proofs.CallSites
import RenderMemo.Proofs.TypedNames

open List

namespace RenderMemo

-- First occurrences.

section

variable {i : Ident} {is : List Ident}

theorem pairwise_firstOccurrences (is : List Ident) :
    (firstOccurrences is).Pairwise fun i j => i.binding ≠ j.binding := by
  induction is
  case nil => exact .nil
  case cons i is hi =>
    refine .cons (fun j hj heq => ?_) (hi.filter _)
    simp [← heq] at hj

variable {α : Type} [BEq α] [LawfulBEq α] {g : Ident → α}

-- Of what tells bindings apart, that of first occurrences comes in the order in which it comes first.
theorem filter_map_firstOccurrences (hg : ∀ i ∈ is, ∀ j ∈ is, g i = g j ↔ i.binding = j.binding)
    (p : α → Bool) : ((firstOccurrences is).map g).filter p = ((is.map g).filter p).eraseDups := by
  induction is generalizing p
  case nil => rfl
  case cons i is hi =>
    have hi := hi fun j hj k hk => hg j (mem_cons_of_mem _ hj) k (mem_cons_of_mem _ hk)
    have hmap : (firstOccurrences (i :: is)).map g =
        g i :: ((firstOccurrences is).map g).filter (· != g i) := by
      rw [firstOccurrences, map_cons, filter_map]
      congr 2
      refine filter_congr fun j hj => ?_
      have heq := hg j (mem_cons_of_mem _ <| firstOccurrences_subset _ hj) i mem_cons_self
      rw [Bool.eq_iff_iff, bne_iff_ne, Function.comp_apply, bne_iff_ne, ne_eq, ne_eq, heq]
    rw [hmap, map_cons, filter_cons, filter_cons, filter_filter]
    split
    case isTrue hp =>
      rw [eraseDups_cons, filter_filter, hi]
      congr 3
      funext b
      rw [Bool.and_comm]
      rfl
    case isFalse hp =>
      have hfilter : (fun b => p b && b != g i) = p := by
        funext b
        by_cases hb : b = g i
        case pos => simp [hb, hp]
        case neg => simp [hb]
      rw [hfilter, hi]

theorem map_firstOccurrences (hg : ∀ i ∈ is, ∀ j ∈ is, g i = g j ↔ i.binding = j.binding) :
    (firstOccurrences is).map g = (is.map g).eraseDups := by
  simpa using filter_map_firstOccurrences hg fun _ => true

-- Names are all different exactly if one name has one binding.
theorem nodup_map_name_firstOccurrences :
    ((firstOccurrences is).map Ident.name).Nodup ↔
      ∀ i ∈ is, ∀ j ∈ is, i.name = j.name → i.binding = j.binding := by
  constructor
  case mp =>
    intro h i hi j hj hname
    have ⟨i', hi', hbi⟩ := exists_mem_firstOccurrences hi
    have ⟨j', hj', hbj⟩ := exists_mem_firstOccurrences hj
    have hname : i'.name = j'.name :=
      (congrArg Prod.fst hbi).trans <| hname.trans (congrArg Prod.fst hbj).symm
    rw [← hbi, ← hbj, inj_on_of_nodup_map h hi' hj' hname]
  case mpr =>
    intro h
    refine pairwise_map.mpr <| (pairwise_firstOccurrences is).imp_of_mem fun hi hj hne hname => ?_
    exact hne <| h _ (firstOccurrences_subset _ hi) _ (firstOccurrences_subset _ hj) hname

end

-- What the parameters of a function declaration bind.
def Node.parameterBindings (d : Node) : List Ident :=
  (d.at .params).flatMap fun p => (p.at .pat).flatMap bound

namespace Hoisted

variable {dedupe : Bool} {root : Node} {h : Hoisted}

-- A closure takes along what it captures, whether repetitions are removed or not.
theorem LiftedFrom.mem_names_iff (lifted : h.LiftedFrom dedupe root) {x : String} :
    x ∈ h.captured.map Ident.name ↔ x ∈ h.arrow.captured.map Ident.name := by
  simp only [mem_map]
  constructor
  case mp =>
    rintro ⟨i, hi, hname⟩
    exact ⟨i, lifted.captured_subset hi, hname⟩
  case mpr =>
    rintro ⟨i, hi, hname⟩
    obtain ⟨j, hj, hb⟩ := lifted.exists_mem_captured hi
    exact ⟨j, hj, (congrArg Prod.fst hb).trans hname⟩

theorem parameterBindings_declaration (h : Hoisted) :
    h.declaration.parameterBindings = h.captured ++ (h.arrow.at .params).flatMap Node.bound := by
  have hpat (m : Node) : ((Node.parameter m).at .pat).flatMap Node.bound = m.bound := by
    simp [Node.parameter, Node.form, Node.at, Node.edges]
  rw [Node.parameterBindings, at_params_declaration, flatMap_append, flatMap_map, flatMap_map]
  simp only [hpat]
  simp [Node.ofIdent, Node.bound]

-- The parameters of the declaration of a closure whose repeated variables were removed.
structure DistinctParameters (h : Hoisted) : Prop where
  -- What the parameters of the closure bind follows the variables that the closure takes along.
  bindings : h.declaration.parameterBindings = h.captured ++ (h.arrow.at .params).flatMap Node.bound
  -- These are the captured variables, each where it occurs first.
  leading  : h.captured <+ h.arrow.captured ∧
    h.captured.map Ident.binding = (h.arrow.captured.map Ident.binding).eraseDups
  -- All names are different exactly if one name has one binding among the captured variables.
  distinct : (h.declaration.parameterBindings.map Ident.name).Nodup ↔
    ∀ i ∈ h.arrow.captured, ∀ j ∈ h.arrow.captured, i.name = j.name → i.binding = j.binding
  -- Once variables are resolved, that is the case if none of them is declared in the closure in one of the
  -- ways of TypeScript.
  untyped  : ∀ strict, h.arrow.ResolvedBy strict →
    (∀ i ∈ h.arrow.captured, ¬ h.arrow.DeclaresTyped strict i) →
    (h.declaration.parameterBindings.map Ident.name).Nodup ∧
      h.captured.map Ident.name = (h.arrow.captured.map Ident.name).eraseDups

theorem distinctParameters (lifted : h.LiftedFrom true root) (hn : h.arrow.parameterNames.Nodup) :
    h.DistinctParameters := by
  have hcaptured : h.captured = firstOccurrences h.arrow.captured := lifted.captured_eq
  have hdistinct : (h.declaration.parameterBindings.map Ident.name).Nodup ↔
      ∀ i ∈ h.arrow.captured, ∀ j ∈ h.arrow.captured, i.name = j.name → i.binding = j.binding := by
    have hapart : Disjoint (h.captured.map Ident.name) h.arrow.parameterNames := by
      intro x hx hparam
      have ⟨i, hi, hname⟩ := mem_map.mp hx
      have ⟨_, hf⟩ := Node.mem_captured.mp <| lifted.captured_subset hi
      exact Node.not_mem_parameterNames.mpr (Node.isFreeIn_iff.mp hf).1 (hname ▸ hparam)
    rw [h.parameterBindings_declaration, map_append, nodup_append', hcaptured,
      nodup_map_name_firstOccurrences]
    exact and_iff_left ⟨hn, hcaptured ▸ hapart⟩
  exact {
    bindings := h.parameterBindings_declaration
    leading  := hcaptured ▸ ⟨firstOccurrences_sublist _, map_firstOccurrences fun _ _ _ _ => .rfl⟩
    distinct := hdistinct
    untyped strict hr hu := by
      have hagree (i) (hi : i ∈ h.arrow.captured) (j) (hj : j ∈ h.arrow.captured) (hname : i.name = j.name) :
          i.binding = j.binding :=
        hr.binding_eq hi hj (hu i hi) (hu j hj) hname
      refine ⟨hdistinct.mpr hagree, ?_⟩
      rw [hcaptured]
      exact map_firstOccurrences fun i hi j hj => ⟨hagree i hi j hj, congrArg Prod.fst⟩ }

-- An arrow function as it is hoisted without repetitions.
def distinctly (n : Node) : Hoisted where
  name     := "_hoistedFunc"
  captured := firstOccurrences n.captured
  arrow    := n

-- `({ a: [p = y] }, ...q) => f(p, y, q)`
def patternClosure : Node :=
  let ident (name : String) (scope : Nat) : Node := .ofIdent { name, scope }
  .arrow [
      .form .objectPattern [] [(.properties, .form .keyValuePatternProperty []
        [(.key, .propertyName "a"), (.value, .form .arrayPattern [] [(.elements,
          .form .assignmentPattern [] [(.left, ident "p" 2), (.right, ident "y" 1)])])])],
      .restElement (ident "q" 2)]
    (.call (ident "f" 1) [.entry (ident "p" 2), .entry (ident "y" 1), .entry (ident "q" 2)])

theorem distinctParameters_patternClosure :
    (distinctly patternClosure).LiftedFrom true patternClosure ∧
      patternClosure.ResolvedBy (fun _ => true) ∧ patternClosure.parameterNames.Nodup ∧
      (distinctly patternClosure).DistinctParameters ∧
      ((distinctly patternClosure).declaration.parameterBindings.map Ident.name).Nodup ∧
      (distinctly patternClosure).declaration.parameterBindings.map Ident.name = ["y", "f", "p", "q"] := by
  have lifted : (distinctly patternClosure).LiftedFrom true patternClosure :=
    ⟨Node.mem_subtrees_self _, rfl, rfl⟩
  have hresolved : patternClosure.ResolvedBy fun _ => true := by decide +kernel
  have hnodup : patternClosure.parameterNames.Nodup := by decide
  have hplain : patternClosure.IsPlain := by decide +kernel
  have hparameters := distinctParameters lifted hnodup
  have ⟨hdistinct, _⟩ := hparameters.untyped _ hresolved fun _ _ => hplain.not_declaresTyped
  exact ⟨lifted, hresolved, hnodup, hparameters, hdistinct, by decide +kernel⟩

-- `() => new (class { constructor(private x) {} })(x)`
def constructedClosure : Node :=
  let ident (scope : Nat) : Node := .ofIdent { name := "x", scope }
  .arrow [] <| .form .newExpression [] [
    (.callee, .form .parenthesisExpression [] [(.expression, .form .classExpression []
      [(.body, .form .classConstructor [] [
        (.key, .propertyName "constructor"),
        (.params, .form .tsParameterProperty [("accessibility", .str "private")] [(.param, ident 3)]),
        (.body, .form .blockStatement [] [])])])]),
    (.arguments, .entry (ident 1))]

-- A parameter that is a property of the constructed object is taken along beside the variable of its name.
theorem not_distinct_property :
    (distinctly constructedClosure).LiftedFrom true constructedClosure ∧
      constructedClosure.ResolvedBy (fun _ => true) ∧ constructedClosure.parameterNames.Nodup ∧
      constructedClosure.freeVariables Label.unranked (fun _ => true) = [{ name := "x", scope := 1 }] ∧
      (distinctly constructedClosure).declaration.parameterBindings.map Ident.name = ["x", "x"] :=
  ⟨⟨Node.mem_subtrees_self _, rfl, rfl⟩, by decide +kernel, by decide, by decide +kernel, by decide +kernel⟩

end Hoisted

end RenderMemo
