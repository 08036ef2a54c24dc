import Mathlib.Data.List.Perm.Basic
import Mathlib.Data.List.Sort
import RenderMemo.Proofs.Subtrees
import RenderMemo.Tree.Shape

open List

namespace RenderMemo

-- The places of a form in the order in which they stand in a source text. For most forms that is the order
-- of the visit. The texts of a template stand between its expressions, but contain nothing.
def Kind.textPlaces (k : Kind) : List Field :=
  match k with
  | doWhileStatement => [.body, .test]
  | functionDeclaration | functionExpression =>
      [.decorators, .identifier, .typeParameters, .params, .returnType, .body]
  | arrowFunctionExpression => [.typeParameters, .params, .returnType, .body]
  | classMethod | privateMethod | methodProperty =>
      [.decorators, .key, .typeParameters, .params, .returnType, .body]
  | classDeclaration | classExpression =>
      [.decorators, .identifier, .typeParams, .superClass, .superTypeParams, .implemented, .body]
  | classProperty | privateProperty | autoAccessor => [.decorators, .key, .annot, .value]
  | callExpression | newExpression | optionalCall => [.callee, .typeArguments, .arguments]
  | jsxOpeningElement => [.name, .typeArguments, .attributes]
  | importSpecifier => [.imported, .localName]
  | tsTypeAssertion => [.annot, .expression]
  | tsCallSignatureDeclaration | tsConstructSignatureDeclaration | tsFunctionType | tsConstructorType =>
      [.typeParams, .params, .annot]
  | tsMethodSignature => [.key, .typeParams, .params, .typeAnn]
  | _ => k.places.map Prod.fst

-- No place is missing.
theorem Kind.textPlaces_perm (k : Kind) : k.textPlaces ~ k.places.map Prod.fst := by
  cases k <;> decide

-- The number of a place in the order of a source text.
def Label.rank (l : Label) (f : Field) : Nat := l.kind?.elim 0 (·.textPlaces.idxOf f)

-- In the order of the visit no place comes before another one.
def Label.unranked (_ : Label) (_ : Field) : Nat := 0

-- What is in the parts of a form, one part behind the other, by the ranks of the places. Parts in places of
-- one rank stay as they are.
def arranged {α : Type} (rank : Field → Nat) (parts : List (Field × List α)) : List α :=
  (parts.insertionSort fun q q' => rank q.1 ≤ rank q'.1).flatMap Prod.snd

section

variable {α β : Type} {rank : Field → Nat} {parts : List (Field × List α)}

theorem arranged_perm (rank : Field → Nat) (parts : List (Field × List α)) :
    arranged rank parts ~ parts.flatMap Prod.snd :=
  (perm_insertionSort ..).flatMap_right _

theorem mem_arranged {a : α} : a ∈ arranged rank parts ↔ ∃ q ∈ parts, a ∈ q.2 :=
  (arranged_perm rank parts).mem_iff.trans mem_flatMap

theorem flatMap_filter_isEmpty (parts : List (Field × List α)) :
    (parts.filter fun q => !q.2.isEmpty).flatMap Prod.snd = parts.flatMap Prod.snd := by
  rw [flatMap_def, flatMap_def, ← flatten_filter_not_isEmpty (L := parts.map Prod.snd), filter_map]
  rfl

-- Nothing is moved if the places in which there is anything come in the order of their ranks.
theorem arranged_eq
    (h : (parts.filter fun q => !q.2.isEmpty).Pairwise fun q q' => rank q.1 ≤ rank q'.1) :
    arranged rank parts = parts.flatMap Prod.snd := by
  have hperm := (perm_insertionSort (fun q q' => rank q.1 ≤ rank q'.1) parts).filter fun q => !q.2.isEmpty
  have hsub := (sublist_insertionSort h filter_sublist).filter fun q => !q.2.isEmpty
  simp only [filter_filter, Bool.and_self] at hsub
  rw [arranged, ← flatMap_filter_isEmpty, ← hsub.eq_of_length hperm.length_eq.symm, flatMap_filter_isEmpty]

end

-- All nodes of a tree in the order of a source text, a node before its parts.
mutual

def Node.inText : Node → List Node
  | .mk l es => .mk l es :: arranged l.rank (nodesInText es)

def nodesInText : List Edge → List (Field × List Node)
  | [] => []
  | (f, n) :: es => (f, n.inText) :: nodesInText es

end

theorem map_fst_nodesInText (es : List Edge) : (nodesInText es).map Prod.fst = es.map Prod.fst := by
  induction es
  case nil => rfl
  case cons e es hi => rw [nodesInText, map_cons, map_cons, hi]

-- The nodes are those that are visited.
mutual

theorem Node.inText_perm : ∀ n : Node, n.inText ~ n.subtrees
  | .mk _ es => .cons _ <| (arranged_perm ..).trans <| nodesInText_perm es

theorem nodesInText_perm : ∀ es : List Edge, (nodesInText es).flatMap Prod.snd ~ subtreesOfEdges es
  | [] => .nil
  | (_, n) :: es => n.inText_perm.append <| nodesInText_perm es

end

-- That no part that comes earlier in a source text is visited behind one that comes later.
def Node.IsVisitedAsWritten (n : Node) : Prop :=
  ∀ m ∈ n.subtrees, m.edges.Pairwise fun e e' => m.label.rank e.1 ≤ m.label.rank e'.1

instance (n : Node) : Decidable n.IsVisitedAsWritten :=
  inferInstanceAs (Decidable (∀ m ∈ n.subtrees, List.Pairwise _ _))

-- The order is that of the visit then.
theorem Node.IsVisitedAsWritten.inText_eq {n : Node} (h : n.IsVisitedAsWritten) : n.inText = n.subtrees := by
  induction n using partsInduction
  case step l es hi =>
    have hpairs : (nodesInText es).Pairwise fun q q' => l.rank q.1 ≤ l.rank q'.1 := by
      have hes : (es.map Prod.fst).Pairwise fun f f' => l.rank f ≤ l.rank f' :=
        pairwise_map.mpr <| h _ <| mem_subtrees_self _
      rw [← map_fst_nodesInText] at hes
      exact (pairwise_map (R := fun f f' => l.rank f ≤ l.rank f')).mp hes
    have hparts (fs : List Edge) (hfs : fs ⊆ es) : (nodesInText fs).flatMap Prod.snd = subtreesOfEdges fs := by
      induction fs
      case nil => rfl
      case cons e fs hrest =>
        have ⟨he, hfs⟩ := cons_subset.mp hfs
        have heq := hi e he fun m hm => h m <| mem_subtrees_mk.mpr <| .inr ⟨e, he, hm⟩
        rw [nodesInText, flatMap_cons, hrest hfs, heq, subtreesOfEdges]
    rw [inText, subtrees, arranged_eq (hpairs.filter _), hparts es (Subset.refl es)]

namespace Program

-- The render functions of a program in the order of a source text.
def writtenFunctions (p : Program) : List RenderFunction :=
  p.body.zipIdx.flatMap fun (item, i) => item.inText.filterMap (·.asRenderFunction? i)

theorem renderFunctions_perm (p : Program) : p.renderFunctions ~ p.writtenFunctions := by
  refine Perm.flatMap_left _ fun (item, i) _ => ?_
  simp only [Node.renderFunctions_eq_filterMap]
  exact (item.inText_perm.filterMap _).symm

theorem renderFunctions_eq_writtenFunctions {p : Program} (h : ∀ item ∈ p.body, item.IsVisitedAsWritten) :
    p.renderFunctions = p.writtenFunctions := by
  refine flatMap_congr fun (item, i) he => ?_
  simp only [Node.renderFunctions_eq_filterMap, (h item <| fst_mem_of_mem_zipIdx he).inText_eq]

end Program

end RenderMemo
