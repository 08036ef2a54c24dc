import RenderMemo.Proofs.Rewriting

namespace RenderMemo

-- An identifier where it stands: the form that it is a part of, and its place there.
structure Place where
  kind  : Option Kind
  field : Field
  ident : Ident
deriving DecidableEq

-- The callee of a call and what a plain argument consists of. Nothing is declared there.
def Place.isReference (pl : Place) : Bool :=
  (pl.kind == some .callExpression && pl.field == .callee) ||
    (pl.kind == some .entry && pl.field == .expression)

-- All identifiers below a node with their places.
mutual

def Node.places : Node → List Place
  | .mk l es => placesOfEdges l.kind? es

def placesOfEdges (k : Option Kind) : List Edge → List Place
  | [] => []
  | (f, n) :: es => n.label.ident?.toList.map (Place.mk k f) ++ n.places ++ placesOfEdges k es

end

variable {k : Option Kind} {es : List Edge} {pl : Place}

theorem mem_placesOfEdges :
    pl ∈ placesOfEdges k es ↔
      ∃ e ∈ es, (∃ i, e.2.label.ident? = some i ∧ pl = ⟨k, e.1, i⟩) ∨ pl ∈ e.2.places := by
  induction es
  case nil => simp [placesOfEdges]
  case cons e es hi =>
    simp [placesOfEdges, hi, eq_comm, or_assoc]

theorem Node.mem_idents_of_mem_ident? {i : Ident} (n : Node) (h : n.label.ident? = some i) :
    i ∈ n.idents := by
  cases n
  case mk l es => exact List.mem_append_left _ <| Option.mem_toList.mpr h

mutual

theorem Node.ident_mem_of_mem_places : ∀ n : Node, pl ∈ n.places → pl.ident ∈ n.idents
  | .mk l es, h => List.mem_append_right _ <| ident_mem_of_mem_placesOfEdges l.kind? es h

theorem ident_mem_of_mem_placesOfEdges (k : Option Kind) :
    ∀ es : List Edge, pl ∈ placesOfEdges k es → pl.ident ∈ identsOfEdges es
  | [], h => by simp [placesOfEdges] at h
  | (_, n) :: es, h => by
    simp only [placesOfEdges, identsOfEdges, List.mem_append, List.mem_map] at h ⊢
    rcases h with ((h | h) | h)
    · have ⟨_, hi, heq⟩ := h
      exact .inl <| heq ▸ n.mem_idents_of_mem_ident? (Option.mem_toList.mp hi)
    · exact .inl <| Node.ident_mem_of_mem_places n h
    · exact .inr <| ident_mem_of_mem_placesOfEdges k es h

end

namespace Node

theorem mem_places_of_mem_edges {n m : Node} {f : Field} {i : Ident} (h : (f, m) ∈ n.edges)
    (hm : m.label.ident? = some i) : ⟨n.kind?, f, i⟩ ∈ n.places := by
  cases n
  case mk l es => exact mem_placesOfEdges.mpr ⟨_, h, .inl ⟨i, hm, rfl⟩⟩

theorem places_subset_of_mem_edges {n m : Node} {f : Field} (h : (f, m) ∈ n.edges) :
    m.places ⊆ n.places := by
  cases n
  case mk l es => exact fun _ hpl => mem_placesOfEdges.mpr ⟨_, h, .inr hpl⟩

end Node

-- Every place of the call that stands for a closure is a reference.
theorem Hoisted.isReference_of_mem_places_call {h : Hoisted} {binder : String}
    (hpl : pl ∈ (h.call binder).places) : pl.isReference = true := by
  have ⟨e, he, hpl⟩ := mem_placesOfEdges.mp hpl
  simp only [List.map_cons, List.map_map, List.mem_cons, List.mem_map] at he
  rcases he with rfl | rfl | rfl | ⟨i, _, rfl⟩
  all_goals
    simp [Node.named, Node.ofIdent, Node.entry, Node.this, Node.form, Node.label, Label.ident?,
      Label.kind?, Node.places, placesOfEdges] at hpl
    try simp [hpl, Place.isReference]

-- An identifier is made by no rewriting.
theorem Rewrites.ident?_eq {bs : List Binding} {n n' : Node} {i : Ident} (h : Rewrites bs n n')
    (hi : n'.label.ident? = some i) : n.label.ident? = n'.label.ident? := by
  cases h
  case keep    => rfl
  case bind    => simp [Node.label, Label.ident?] at hi
  case closure => simp [Hoisted.call, Node.callAt, Node.label, Label.ident?] at hi

-- Rewriting puts no identifier in a new place, apart from references.
mutual

theorem Rewrites.isReference_or_mem_places {bs : List Binding} {n n' : Node} :
    Rewrites bs n n' → pl ∈ n'.places → pl.isReference = true ∨ pl ∈ n.places
  | .keep hes, hpl => hes.isReference_or_mem_places hpl
  | .closure _ _ _, hpl => .inl <| Hoisted.isReference_of_mem_places_call hpl
  | .bind _ hp htarget hrest, hpl => by
    have ⟨_, _, _, hes⟩ := bindParts?_eq_some_iff.mp hp
    subst hes
    simp only [Node.places, placesOfEdges, List.mem_append] at hpl ⊢
    rcases hpl with ((hpl | hpl) | ((hpl | hpl) | hpl))
    · simp [Node.named, Node.ofIdent, Node.label, Label.ident?, Label.kind?] at hpl
      exact .inl <| by simp [hpl, Place.isReference]
    · simp [Node.named, Node.ofIdent, Node.places, placesOfEdges] at hpl
    · simp [Node.entry, Node.form, Node.label, Label.ident?] at hpl
    · simp only [Node.entry, Node.form, Node.places, placesOfEdges, Label.kind?, List.append_nil,
        List.mem_append, List.mem_map] at hpl
      cases hpl
      case inl hpl =>
        have ⟨i, _, hpl⟩ := hpl
        exact .inl <| by simp [← hpl, Place.isReference]
      case inr hpl =>
        refine (htarget.isReference_or_mem_places hpl).imp_right fun hpl => .inl <| .inr ?_
        exact .inl <| .inr hpl
    · exact (hrest.isReference_or_mem_places hpl).imp_right .inr

theorem RewritesEdges.isReference_or_mem_places {bs : List Binding} {k : Option Kind}
    {es es' : List Edge} :
    RewritesEdges bs es es' → pl ∈ placesOfEdges k es' → pl.isReference = true ∨ pl ∈ placesOfEdges k es
  | .nil, hpl => .inr hpl
  | .cons hn hes, hpl => by
    simp only [placesOfEdges, List.mem_append, List.mem_map] at hpl ⊢
    rcases hpl with ((hpl | hpl) | hpl)
    · have ⟨i, hi, hpl⟩ := hpl
      exact .inr <| .inl <| .inl ⟨i, hn.ident?_eq (Option.mem_toList.mp hi) ▸ hi, hpl⟩
    · exact (hn.isReference_or_mem_places hpl).imp_right fun hpl => .inl <| .inr hpl
    · exact (hes.isReference_or_mem_places hpl).imp_right .inr

end

end RenderMemo
