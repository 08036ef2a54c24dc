import RenderMemo.Capture
import RenderMemo.Proofs.Visits

namespace RenderMemo

@[simp]
theorem mem_identsOfEdges {i : Ident} {es : List Edge} :
    i ∈ identsOfEdges es ↔ ∃ e ∈ es, i ∈ e.2.idents := by
  induction es with
  | nil => simp [identsOfEdges]
  | cons e es hi => simp [identsOfEdges, hi]

@[simp]
theorem identsOfEdges_append (es fs : List Edge) :
    identsOfEdges (es ++ fs) = identsOfEdges es ++ identsOfEdges fs := by
  induction es with
  | nil => rfl
  | cons e es hi => simp [identsOfEdges, hi]

theorem Node.mem_idents_of_mem_edges {n m : Node} {f : Field} {i : Ident} (h : (f, m) ∈ n.edges)
    (hi : i ∈ m.idents) : i ∈ n.idents := by
  cases n
  case mk l es => exact List.mem_append_right _ <| mem_identsOfEdges.mpr ⟨_, h, hi⟩

-- Every occurrence of a variable is one of the identifiers of the tree.
mutual

theorem Node.occurrences_subset : ∀ n : Node, n.occurrences ⊆ n.idents
  | .mk l es => by
    simp only [Node.occurrences, Node.idents]
    split
    case isTrue  => exact List.nil_subset _
    case isFalse =>
      exact List.append_subset.mpr ⟨List.subset_append_left ..,
        List.subset_append_of_subset_right _ (occurrencesOfEdges_subset l.kind? es)⟩

theorem occurrencesOfEdges_subset (k : Option Kind) :
    ∀ es : List Edge, occurrencesOfEdges k es ⊆ identsOfEdges es
  | [] => List.nil_subset _
  | (f, n) :: es => by
    simp only [occurrencesOfEdges, identsOfEdges]
    refine List.append_subset.mpr ⟨?_,
      List.subset_append_of_subset_right _ (occurrencesOfEdges_subset k es)⟩
    split
    case isTrue  => exact List.nil_subset _
    case isFalse => exact List.subset_append_of_subset_left _ (Node.occurrences_subset n)

end

namespace Node

variable {n : Node} {i : Ident}

theorem mem_functionParts {m : Node} :
    m ∈ n.functionParts ↔ (.params, m) ∈ n.edges ∨ (.body, m) ∈ n.edges := by
  simp [functionParts, mem_at]

theorem mem_functionParts_of_mem_edges {e : Edge} (he : e ∈ n.edges) (hf : e.1 = .params ∨ e.1 = .body) :
    e.2 ∈ n.functionParts := by
  obtain ⟨f, m⟩ := e
  refine mem_functionParts.mpr ?_
  cases hf
  case inl hf => exact .inl <| hf ▸ he
  case inr hf => exact .inr <| hf ▸ he

theorem mem_captured :
    i ∈ n.captured ↔ (∃ m ∈ n.functionParts, i ∈ m.occurrences) ∧ n.isFreeIn i = true := by
  simp [captured]

theorem captured_subset (n : Node) : n.captured ⊆ n.idents := by
  intro i hi
  have ⟨⟨m, hm, hi⟩, _⟩ := mem_captured.mp hi
  have hsub : m ∈ n.subtrees := by
    simp only [functionParts, List.mem_append] at hm
    exact hm.elim mem_subtrees_of_mem_at mem_subtrees_of_mem_at
  exact idents_subset_of_mem_subtrees n hsub (occurrences_subset m hi)

end Node

theorem firstOccurrences_sublist (is : List Ident) : (firstOccurrences is).Sublist is := by
  induction is
  case nil          => exact .slnil
  case cons i is hi => exact (List.filter_sublist.trans hi).cons_cons i

theorem firstOccurrences_subset (is : List Ident) : firstOccurrences is ⊆ is :=
  (firstOccurrences_sublist is).subset

-- Every binding among the identifiers is kept.
theorem exists_mem_firstOccurrences {i : Ident} {is : List Ident} (h : i ∈ is) :
    ∃ j ∈ firstOccurrences is, j.binding = i.binding := by
  induction is
  case nil => simp at h
  case cons j is hi =>
    by_cases hj : j.binding = i.binding
    · exact ⟨j, List.mem_cons_self, hj⟩
    · have hm := (List.mem_cons.mp h).resolve_left fun heq => hj (heq ▸ rfl)
      have ⟨k, hk, hb⟩ := hi hm
      refine ⟨k, List.mem_cons_of_mem _ (List.mem_filter.mpr ⟨hk, ?_⟩), hb⟩
      simpa [hb] using fun h => hj h.symm

namespace Hoisted

theorem idents_declaredEdge (e : Edge) : (declaredEdge e).2.idents = e.2.idents := by
  unfold declaredEdge
  split
  case h_1 => simp [Node.parameter, Node.form, Node.idents, identsOfEdges, Label.ident?]
  case h_2 =>
    unfold bodyBlock
    split <;> simp [Node.returnBlock, Node.form, Node.idents, identsOfEdges, Label.ident?]
  case h_3 => rfl

theorem LiftedFrom.captured_subset {h : Hoisted} {dedupe : Bool} {n : Node}
    (lifted : h.LiftedFrom dedupe n) : h.captured ⊆ h.arrow.captured := by
  rw [lifted.captured_eq]
  split
  case isTrue  => exact firstOccurrences_subset _
  case isFalse => exact List.Subset.refl _

-- A closure takes every binding along that it captures.
theorem LiftedFrom.exists_mem_captured {h : Hoisted} {dedupe : Bool} {n : Node} {i : Ident}
    (lifted : h.LiftedFrom dedupe n) (hi : i ∈ h.arrow.captured) :
    ∃ j ∈ h.captured, j.binding = i.binding := by
  rw [lifted.captured_eq]
  split
  case isTrue  => exact exists_mem_firstOccurrences hi
  case isFalse => exact ⟨i, hi, rfl⟩

-- The declaration of a closure speaks of nothing that the closure does not speak of.
theorem LiftedFrom.idents_declaredEdges_subset {h : Hoisted} {dedupe : Bool} {n : Node}
    (lifted : h.LiftedFrom dedupe n) : identsOfEdges h.declaredEdges ⊆ n.idents := by
  refine fun i hi => Node.idents_subset_of_mem_subtrees n lifted.mem ?_
  simp only [declaredEdges, identsOfEdges_append, List.mem_append] at hi
  cases hi
  case inl hi =>
    obtain ⟨e, he, hi⟩ := mem_identsOfEdges.mp hi
    obtain ⟨j, hj, heq⟩ := List.mem_map.mp he
    subst heq
    have hj := Node.captured_subset _ <| lifted.captured_subset hj
    simp only [Node.parameter, Node.ofIdent, Node.form, Node.idents, identsOfEdges, Label.ident?,
      Option.toList_none, Option.toList_some, List.nil_append, List.append_nil,
      List.mem_singleton] at hi
    exact hi ▸ hj
  case inr hi =>
    obtain ⟨e, he, hi⟩ := mem_identsOfEdges.mp hi
    obtain ⟨a, ha, heq⟩ := List.mem_map.mp he
    subst heq
    rw [idents_declaredEdge] at hi
    exact Node.mem_idents_of_mem_edges ha hi

end Hoisted

end RenderMemo
