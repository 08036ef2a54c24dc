import RenderMemo.Proofs.LeadingParameters
import RenderMemo.Proofs.Places

open List

namespace RenderMemo

-- The names that an identifier may have, but no parameter in strict code.
def Ident.isUnfit (i : Ident) : Bool := ["this", "arguments", "eval"].contains i.name

-- The first name of a tag that consists of several ones. No host element has such a tag.
def Place.isTagRoot (pl : Place) : Bool :=
  pl.kind == some .jsxMemberExpression && pl.field == .object

-- The places of what occurs below a node, in the order of the visit.
mutual

def Node.visited : Node → List Place
  | .mk l es => if l.kind?.any Kind.holdsNoReference then [] else visitedOfEdges l.kind? es

def visitedOfEdges (k : Option Kind) : List Edge → List Place
  | [] => []
  | (f, n) :: es =>
    (if k.any (·.holdsLabelOrTag f n) then [] else n.label.ident?.toList.map (Place.mk k f) ++ n.visited) ++
      visitedOfEdges k es

end

theorem Label.kind?_of_ident? {l : Label} {i : Ident} (h : l.ident? = some i) : l.kind? = none := by
  cases l <;> simp_all [Label.kind?, Label.ident?]

mutual

theorem Node.occurrences_eq : ∀ n : Node, n.occurrences = n.label.ident?.toList ++ n.visited.map Place.ident
  | .mk l es => by
    simp only [Node.occurrences, Node.visited, Node.label]
    split
    case isTrue hk =>
      cases hl : l.ident?
      case none   => rfl
      case some i => simp [Label.kind?_of_ident? hl] at hk
    case isFalse => rw [occurrencesOfEdges_eq]

theorem occurrencesOfEdges_eq (k : Option Kind) :
    ∀ es : List Edge, occurrencesOfEdges k es = (visitedOfEdges k es).map Place.ident
  | [] => rfl
  | (f, n) :: es => by
    simp only [occurrencesOfEdges, visitedOfEdges, map_append, occurrencesOfEdges_eq k es, n.occurrences_eq]
    split
    case isTrue  => rfl
    case isFalse => simp [Function.comp_def]

end

namespace Node

variable {strict : List Nat → Bool} {n : Node} {i : Ident}

-- Captured variables in their places.
theorem captured_eq_map_visited (n : Node) :
    n.captured = (n.closure.visited.filter fun pl => n.isFreeIn pl.ident).map Place.ident := by
  have hl : n.closure.label.ident? = none := rfl
  rw [captured, ← occurrences_closure, occurrences_eq, hl, Option.toList_none, nil_append, filter_map]
  rfl

-- `this` is the name of an identifier in tags only. TypeScript has parameters of that name as well.
structure SaysThisInTags (strict : List Nat → Bool) (n : Node) : Prop where
  undeclared : ∀ s ∈ n.spotsInside Label.unranked strict, s.declares.isSome → s.ident.name ≠ "this"
  roots      : ∀ pl ∈ n.closure.visited, pl.ident.name = "this" → pl.isTagRoot

instance (strict : List Nat → Bool) (n : Node) : Decidable (n.SaysThisInTags strict) :=
  decidable_of_iff
    ((∀ s ∈ n.spotsInside Label.unranked strict, s.declares.isSome → s.ident.name ≠ "this") ∧
      ∀ pl ∈ n.closure.visited, pl.ident.name = "this" → pl.isTagRoot)
    ⟨fun h => ⟨h.1, h.2⟩, fun h => ⟨h.1, h.2⟩⟩

theorem SaysThisInTags.isFreeIn (h : n.SaysThisInTags strict) (hi : i.name = "this") :
    n.isFreeIn i = true := by
  refine (isFreeIn_iff_of_spots Label.unranked strict).mpr ⟨?_, by simp [hi], ?_⟩
  · intro hparam
    have hparam : ⟨i.name, ⟨[], true⟩, true⟩ ∈ n.declarations strict := exists_declared_parameter hparam
    have ⟨s, hs, d, hd, _, hname, _⟩ := mem_declarations.mp hparam
    exact h.undeclared s hs (Option.isSome_of_eq_some hd) (hname.symm.trans hi)
  · intro s hs d hd _ hb
    exact h.undeclared s hs (Option.isSome_of_eq_some hd) ((congrArg Prod.fst hb).trans hi)

theorem SaysThisInTags.filter_captured (h : n.SaysThisInTags strict) :
    n.captured.filter (·.name == "this") =
      (n.closure.visited.filter fun pl => pl.isTagRoot && pl.ident.name == "this").map Place.ident := by
  rw [captured_eq_map_visited, filter_map, filter_filter]
  congr 1
  refine filter_congr fun pl hpl => ?_
  by_cases hname : pl.ident.name = "this"
  case pos => simp [hname, h.isFreeIn hname, h.roots pl hpl hname]
  case neg => simp [beq_false_of_ne hname]

-- Among what is captured, a name stands for a variable that is declared outside, or for one that is
-- declared inside in one of the ways of TypeScript.
theorem ResolvedBy.exists_mem_captured_iff (hr : n.ResolvedBy strict) (hbare : n.TagsAreBare)
    (p : Ident → Bool) :
    (∃ i ∈ n.captured, p i) ↔
      (∃ i ∈ n.freeVariables Label.unranked strict, p i) ∨
        ∃ i ∈ n.captured, p i ∧ n.DeclaresTyped strict i := by
  constructor
  case mp =>
    intro ⟨i, hi, hp⟩
    cases (hr.mem_captured_iff hbare).mp hi
    case inl hfree  => exact .inl ⟨i, hfree, hp⟩
    case inr htyped => exact .inr ⟨i, hi, hp, htyped.2⟩
  case mpr =>
    intro h
    cases h
    case inl h =>
      have ⟨i, hi, hp⟩ := h
      exact ⟨i, (hr.mem_captured_iff hbare).mpr <| .inl hi, hp⟩
    case inr h =>
      have ⟨i, hi, hp, _⟩ := h
      exact ⟨i, hi, hp⟩

end Node

namespace Hoisted

variable {strict : List Nat → Bool} {dedupe : Bool} {root : Node} {h : Hoisted}

theorem occurrences_call (h : Hoisted) (binder : String) :
    (h.call binder).occurrences = { name := binder } :: { name := h.name } :: h.captured := by
  have hargs (is : List Ident) : occurrencesOfEdges (some .callExpression)
      (is.map fun i => (.arguments, .entry (.ofIdent i))) = is := by
    induction is
    case nil          => rfl
    case cons i is hi => simp [occurrencesOfEdges, Kind.holdsLabelOrTag, hi]
  have hcall : Kind.callExpression.holdsNoReference = false := rfl
  have hthis : Node.this.occurrences = [] := rfl
  simp [call, Node.callAt, Node.occurrences, occurrencesOfEdges, Label.kind?, Label.ident?,
    Kind.holdsLabelOrTag, Node.named, hcall, hthis, hargs, Function.comp_def]

-- What a closure takes along under a name that no parameter may have.
structure UnfitNames (strict : List Nat → Bool) (h : Hoisted) : Prop where
  -- `arguments` is never taken along, as every function has its own.
  arguments  : ∀ i ∈ h.captured, i.name ≠ "arguments"
  -- If it is a name in tags only, then `this` is captured wherever it is the root of a tag.
  roots      : h.arrow.SaysThisInTags strict →
    h.arrow.captured.filter (·.name == "this") =
      (h.arrow.closure.visited.filter fun pl => pl.isTagRoot && pl.ident.name == "this").map Place.ident
  -- Such a name is taken along exactly if a variable has it that is declared outside, or inside in one of
  -- the ways of TypeScript.
  captured   : (∃ i ∈ h.captured, i.isUnfit) ↔
    (∃ i ∈ h.arrow.freeVariables Label.unranked strict, i.isUnfit) ∨
      ∃ i ∈ h.arrow.captured, i.isUnfit ∧ h.arrow.DeclaresTyped strict i
  -- What is taken along gets among the parameters of the declaration and into the calls of the closure.
  parameters : (∃ i ∈ h.declaration.parameterBindings, i.isUnfit) ↔
    (∃ i ∈ h.captured, i.isUnfit) ∨ ∃ m ∈ h.arrow.at .params, ∃ i ∈ m.bound, i.isUnfit
  passed     : ∀ binder, (h.call binder).occurrences =
    { name := binder } :: { name := h.name } :: h.captured

theorem unfitNames (lifted : h.LiftedFrom dedupe root) (hr : h.arrow.ResolvedBy strict)
    (hbare : h.arrow.TagsAreBare) : h.UnfitNames strict where
  arguments i hi := by
    have ⟨_, hf⟩ := Node.mem_captured.mp <| lifted.captured_subset hi
    exact (Node.isFreeIn_iff.mp hf).2.1
  roots hthis := hthis.filter_captured
  captured   := by
    have hnames (is : List Ident) : (∃ i ∈ is, i.isUnfit) ↔
        ∃ x ∈ is.map Ident.name, ["this", "arguments", "eval"].contains x := by
      simp [Ident.isUnfit]
    rw [← hr.exists_mem_captured_iff hbare Ident.isUnfit, hnames, hnames]
    simp only [lifted.mem_names_iff]
  parameters := by
    simp only [h.parameterBindings_declaration, mem_append, mem_flatMap, or_and_right, exists_or]
    grind
  passed     := h.occurrences_call

-- `() => <this.Row x={y}/>`
def tagClosure : Node :=
  .arrow [] <| .form .jsxElement [] [(.opening, .form .jsxOpeningElement [] [
    (.name, .form .jsxMemberExpression [] [(.object, .ofIdent { name := "this", scope := 1 }),
      (.property, .propertyName "Row")]),
    (.attributes, .form .jsxAttribute [] [(.name, .propertyName "x"),
      (.value, .form .jsxExpressionContainer [] [(.expression, .ofIdent { name := "y", scope := 1 })])])])]

theorem unfitNames_tagClosure :
    (distinctly tagClosure).LiftedFrom true tagClosure ∧ tagClosure.ResolvedBy (fun _ => true) ∧
      tagClosure.TagsAreBare ∧ tagClosure.SaysThisInTags (fun _ => true) ∧
      (distinctly tagClosure).UnfitNames (fun _ => true) :=
  have lifted : (distinctly tagClosure).LiftedFrom true tagClosure := ⟨Node.mem_subtrees_self _, rfl, rfl⟩
  have hresolved : tagClosure.ResolvedBy fun _ => true := by decide +kernel
  have hbare : tagClosure.TagsAreBare := by decide
  ⟨lifted, hresolved, hbare, by decide +kernel, unfitNames lifted hresolved hbare⟩

-- The root of a tag is taken along as a variable, whatever its name is.
theorem not_fit_tagRoot :
    tagClosure.ResolvedBy (fun _ => true) ∧ tagClosure.IsPlain ∧
      tagClosure.captured.map Ident.name = ["this", "y"] ∧
      (distinctly tagClosure).declaration.parameterBindings.map Ident.name = ["this", "y"] := by
  decide +kernel

end Hoisted

end RenderMemo
