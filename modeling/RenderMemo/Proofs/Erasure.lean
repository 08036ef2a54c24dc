import RenderMemo.Proofs.Scoping

open List

namespace RenderMemo

namespace Kind

-- The forms of types whose names a visit takes for variables.
def isOverlooked : Kind → Bool
  | tsExpressionWithTypeArguments | tsIndexSignature | tsInterfaceDeclaration
  | tsTypeAliasDeclaration => true
  | _ => false

-- The forms that hold types and nothing else.
def isTypeOnly (k : Kind) : Bool :=
  k.isType || k == tsTypeAnnot || k == tsTypeParameterDeclaration || k == tsTypeParameterInstantiation ||
    k.isOverlooked

-- The forms of an expression with a type. Their value is that of the expression.
def isAssertion : Kind → Bool
  | tsAsExpression | tsTypeAssertion | tsSatisfiesExpression | tsConstAssertion | tsNonNullExpression
  | tsInstantiation => true
  | _ => false

end Kind

namespace Node

def isTypeOnly (n : Node) : Bool := n.kind?.any Kind.isTypeOnly

def isAssertion (n : Node) : Bool := n.kind?.any Kind.isAssertion

end Node

-- An assertion that has nothing but its expression left is the expression.
def unasserted (l : Label) : List Edge → Node
  | [(f, n)] => if l.kind?.any Kind.isAssertion then n else .mk l [(f, n)]
  | es => .mk l es

-- A tree without its types.
mutual

def Node.erased : Node → Node
  | .mk l es => unasserted l (erasedEdges es)

def erasedEdges : List Edge → List Edge
  | [] => []
  | (f, n) :: es => if n.isTypeOnly then erasedEdges es else (f, n.erased) :: erasedEdges es

end

-- What stands in types where a variable is meant, as far as it is visited.
mutual

def Node.overlooked : Node → List Ident
  | .mk l es => if l.kind?.any Kind.holdsNoReference then [] else overlookedInEdges l.kind? es

def overlookedInEdges (k : Option Kind) : List Edge → List Ident
  | [] => []
  | (f, n) :: es =>
    (if k.any (·.holdsLabelOrTag f n) then []
      else if n.isTypeOnly then n.occurrences else n.overlooked) ++ overlookedInEdges k es

end

-- What is declared in types, by functions in their computed keys.
mutual

def Node.declaredByTypes : Node → List Ident
  | .mk _ es => declaredByTypesInEdges es

def declaredByTypesInEdges : List Edge → List Ident
  | [] => []
  | (_, n) :: es => (if n.isTypeOnly then n.declared else n.declaredByTypes) ++ declaredByTypesInEdges es

end

-- A pattern binds names and nothing else if no part through which it binds is an assertion or a type.
mutual

def Node.isNamePattern : Node → Bool
  | .mk l es =>
    !(Node.mk l es).isTypeOnly && !(Node.mk l es).isAssertion && edgesAreNamePatterns l.kind? es

def edgesAreNamePatterns (k : Option Kind) : List Edge → Bool
  | [] => true
  | (f, n) :: es => (!k.any (·.bindsThrough f) || n.isNamePattern) && edgesAreNamePatterns k es

end

namespace Node

-- Where types stand by the grammar: an annotation holds a type, what declares names is a pattern of
-- names, and a tag is no assertion.
def IsTyped (n : Node) : Prop :=
  ∀ m ∈ n.subtrees, ∀ e ∈ m.edges,
    (m.kind? = some .tsTypeAnnot → e.2.kind?.any Kind.isType) ∧
    (m.kind?.any (·.declares e.1) → e.2.isNamePattern) ∧
    (m.kind? = some .jsxOpeningElement → e.1 = .name → e.2.isAssertion = false)

-- What is declared in the types of an arrow function, apart from its own type parameters and the type of its
-- result, occurs nowhere else.
def TypesKeepTo (n : Node) : Prop :=
  ∀ i ∈ n.closure.erased.occurrences, ¬ i.BoundBy n.closure.declaredByTypes

instance (n : Node) : Decidable n.IsTyped :=
  inferInstanceAs (Decidable (∀ m ∈ n.subtrees, ∀ e ∈ m.edges, _ ∧ _ ∧ _))

instance (n : Node) : Decidable n.TypesKeepTo :=
  inferInstanceAs (Decidable (∀ i ∈ n.closure.erased.occurrences, _))

end Node

section

variable {k : Kind} {f : Field} {n : Node}

theorem Kind.holdsNoReference_of_isAssertion (h : k.isAssertion = true) :
    k.holdsNoReference = false := by
  unfold isAssertion at h
  split at h
  all_goals first | rfl | cases h

theorem Kind.holdsLabelOrTag_of_isAssertion (h : k.isAssertion = true) :
    k.holdsLabelOrTag f n = false := by
  unfold isAssertion at h
  split at h
  all_goals first | rfl | cases h

theorem Kind.declares_of_isAssertion (h : k.isAssertion = true) : k.declares f = false := by
  unfold isAssertion at h
  split at h
  all_goals first | rfl | cases h

end

section

variable {l : Label} {es : List Edge}

theorem unasserted_of_not_isAssertion (h : l.kind?.any Kind.isAssertion = false) :
    unasserted l es = .mk l es := by
  unfold unasserted
  split <;> simp [h]

theorem Label.ident?_of_kind? {k : Kind} (h : l.kind? = some k) : l.ident? = none := by
  cases l <;> simp_all [kind?, ident?]

-- Either nothing is left out, or the label of an assertion that holds a single part.
theorem unasserted_cases : unasserted l es = .mk l es ∨
    ∃ k f n, l.kind? = some k ∧ k.isAssertion = true ∧ es = [(f, n)] ∧ unasserted l es = n := by
  unfold unasserted
  split
  case h_1 f n =>
    split
    case isTrue h =>
      have ⟨k, hk, h⟩ := Option.any_eq_true .. |>.mp h
      exact .inr ⟨k, f, n, hk, h, rfl, rfl⟩
    case isFalse => exact .inl rfl
  case h_2 => exact .inl rfl

theorem occurrences_unasserted : (unasserted l es).occurrences = (Node.mk l es).occurrences := by
  rcases unasserted_cases with h | ⟨k, f, n, hk, ha, hes, h⟩
  · rw [h]
  · rw [h]
    simp [hes, Node.occurrences, occurrencesOfEdges, hk, Label.ident?_of_kind? hk,
      Kind.holdsNoReference_of_isAssertion ha, Kind.holdsLabelOrTag_of_isAssertion ha]

theorem declared_unasserted : (unasserted l es).declared = (Node.mk l es).declared := by
  rcases unasserted_cases with h | ⟨k, f, n, hk, ha, hes, h⟩
  · rw [h]
  · rw [h]
    simp [hes, Node.declared, declaredByEdges, hk, Kind.declares_of_isAssertion ha]

end

namespace Node

variable {n : Node} {l : Label} {es : List Edge}

theorem IsTyped.of_mem_edges {e : Edge} (h : (mk l es).IsTyped) (he : e ∈ es) : e.2.IsTyped :=
  fun m hm => h m <| mem_subtrees_mk.mpr <| .inr ⟨e, he, hm⟩

theorem erased_of_not_isAssertion (h : n.isAssertion = false) :
    n.erased = mk n.label (erasedEdges n.edges) := by
  cases n
  case mk l es => exact unasserted_of_not_isAssertion h

end Node

section

variable {k : Kind} {f : Field} {n : Node}

-- A tag keeps its label, and what stands in the place of a label is one whatever it is.
theorem Kind.holdsLabelOrTag_erased
    (h : k = .jsxOpeningElement → f = .name → n.isAssertion = false) :
    k.holdsLabelOrTag f n.erased = k.holdsLabelOrTag f n := by
  by_cases hk : k = .jsxOpeningElement ∧ f = .name
  case pos =>
    have hl : n.erased.label = n.label := by rw [Node.erased_of_not_isAssertion (h hk.1 hk.2)]; rfl
    rw [hk.1, hk.2]
    simp only [holdsLabelOrTag, hl]
  case neg =>
    unfold holdsLabelOrTag
    split
    case h_1 => rfl
    case h_2 => exact absurd ⟨rfl, rfl⟩ hk
    case h_3 =>
      split
      case h_1 => simp_all
      case h_2 => exact absurd ⟨rfl, rfl⟩ hk
      case h_3 => rfl

end

theorem Node.isTypeOnly_of_isNamePattern {n : Node} (h : n.isNamePattern = true) :
    n.isTypeOnly = false := by
  cases n
  simp only [isNamePattern, Bool.and_eq_true, Bool.not_eq_true'] at h
  exact h.1.1

-- What a pattern of names binds is left.
mutual

theorem Node.bound_erased : ∀ n : Node, n.isNamePattern → n.erased.bound = n.bound
  | .mk l es, h => by
    simp only [Node.isNamePattern, Bool.and_eq_true, Bool.not_eq_true'] at h
    have ⟨⟨_, ha⟩, hes⟩ := h
    rw [Node.erased_of_not_isAssertion ha]
    cases l
    case form k _ _ _ => exact boundByEdges_erased k es hes
    all_goals rfl

theorem boundByEdges_erased (k : Kind) :
    ∀ es : List Edge, edgesAreNamePatterns (some k) es →
      boundByEdges k (erasedEdges es) = boundByEdges k es
  | [], _ => rfl
  | (f, n) :: es, h => by
    simp only [edgesAreNamePatterns, Option.any_some, Bool.and_eq_true, Bool.or_eq_true,
      Bool.not_eq_true'] at h
    have ⟨hn, hes⟩ := h
    have hi := boundByEdges_erased k es hes
    simp only [erasedEdges, boundByEdges]
    by_cases hb : k.bindsThrough f = true
    case pos =>
      have hn := hn.resolve_left (by simp [hb])
      simp [Node.isTypeOnly_of_isNamePattern hn, boundByEdges, hb, Node.bound_erased n hn, hi]
    case neg =>
      split <;> simp [boundByEdges, hb, hi]

end

-- Of a list, one part is kept, and the rest is taken out.
structure Leaves (kept rest all : List Ident) : Prop where
  sublist : kept <+ all
  perm    : all ~ kept ++ rest

namespace Leaves

variable {kept rest all kept' rest' all' : List Ident}

theorem keeps (is : List Ident) : Leaves is [] is :=
  ⟨List.Sublist.refl _, by simp⟩

theorem takes (is : List Ident) : Leaves [] is is :=
  ⟨List.nil_sublist _, by simp⟩

theorem append (h : Leaves kept rest all) (h' : Leaves kept' rest' all') :
    Leaves (kept ++ kept') (rest ++ rest') (all ++ all') where
  sublist := h.sublist.append h'.sublist
  perm := by
    refine (h.perm.append h'.perm).trans ?_
    simp only [List.append_assoc]
    exact Perm.append_left _ <| by
      simp only [← List.append_assoc]
      exact Perm.append_right _ perm_append_comm

theorem filter (p : Ident → Bool) (h : Leaves kept rest all) :
    Leaves (kept.filter p) (rest.filter p) (all.filter p) where
  sublist := h.sublist.filter p
  perm := by simpa using h.perm.filter p

-- If nothing is taken out, everything is kept.
theorem eq_iff (h : Leaves kept rest all) : kept = all ↔ rest = [] := by
  have hlength := h.perm.length_eq
  rw [List.length_append] at hlength
  constructor
  case mp =>
    intro heq
    exact List.eq_nil_of_length_eq_zero <| by rw [heq] at hlength; omega
  case mpr =>
    intro hnil
    exact h.sublist.eq_of_length <| by simp [hlength, hnil]

end Leaves

-- Without its types, a tree has the variables left that do not occur in types.
mutual

theorem Node.leaves_erased :
    ∀ n : Node, n.IsTyped → Leaves n.erased.occurrences n.overlooked n.occurrences
  | .mk l es, h => by
    simp only [Node.erased, occurrences_unasserted, Node.occurrences, Node.overlooked]
    split
    case isTrue => exact .keeps []
    case isFalse =>
      exact (Leaves.keeps l.ident?.toList).append <| leaves_erasedEdges l.kind? es
        (fun e he => h.of_mem_edges he) fun e he => (h _ (Node.mem_subtrees_self _) e he).2.2

theorem leaves_erasedEdges (k : Option Kind) : ∀ es : List Edge, (∀ e ∈ es, e.2.IsTyped) →
    (∀ e ∈ es, k = some .jsxOpeningElement → e.1 = .name → e.2.isAssertion = false) →
    Leaves (occurrencesOfEdges k (erasedEdges es)) (overlookedInEdges k es) (occurrencesOfEdges k es)
  | [], _, _ => .keeps []
  | (f, n) :: es, h, ht => by
    have ⟨hn, hes⟩ := List.forall_mem_cons.mp h
    have ⟨htn, htes⟩ := List.forall_mem_cons.mp ht
    have hi := leaves_erasedEdges k es hes htes
    simp only [erasedEdges, overlookedInEdges, occurrencesOfEdges]
    have hl : k.any (·.holdsLabelOrTag f n.erased) = k.any (·.holdsLabelOrTag f n) := by
      cases k
      case none => rfl
      case some k => exact Kind.holdsLabelOrTag_erased fun hk hf => htn (hk ▸ rfl) hf
    split
    case isTrue =>
      split
      case isTrue => exact hi
      case isFalse => exact (Leaves.takes _).append hi
    case isFalse =>
      simp only [occurrencesOfEdges, hl]
      split
      case isTrue => exact hi
      case isFalse => exact (Node.leaves_erased n hn).append hi

end

-- What is declared in a tree is declared by what is left of it or by its types.
mutual

theorem Node.declared_erased {i : Ident} :
    ∀ n : Node, n.IsTyped → (i ∈ n.declared ↔ i ∈ n.erased.declared ∨ i ∈ n.declaredByTypes)
  | .mk l es, h => by
    simp only [Node.erased, declared_unasserted, Node.declared, Node.declaredByTypes]
    exact declaredByEdges_erased l.kind? es (fun e he => h.of_mem_edges he) fun e he =>
      (h _ (Node.mem_subtrees_self _) e he).2.1

theorem declaredByEdges_erased {i : Ident} (k : Option Kind) :
    ∀ es : List Edge, (∀ e ∈ es, e.2.IsTyped) →
      (∀ e ∈ es, k.any (·.declares e.1) → e.2.isNamePattern) →
      (i ∈ declaredByEdges k es ↔
        i ∈ declaredByEdges k (erasedEdges es) ∨ i ∈ declaredByTypesInEdges es)
  | [], _, _ => by simp [declaredByEdges, erasedEdges, declaredByTypesInEdges]
  | (f, n) :: es, h, hp => by
    have ⟨hn, hes⟩ := List.forall_mem_cons.mp h
    have ⟨hpn, hpes⟩ := List.forall_mem_cons.mp hp
    have hi := declaredByEdges_erased k es hes hpes (i := i)
    have hd := Node.declared_erased n hn (i := i)
    by_cases hk : k.any (·.declares f) = true
    case pos =>
      have hname := hpn hk
      simp only [declaredByEdges, erasedEdges, declaredByTypesInEdges, hk,
        Node.isTypeOnly_of_isNamePattern hname, Node.bound_erased n hname, List.mem_append, hi, hd,
        Bool.false_eq_true, ↓reduceIte]
      grind
    case neg =>
      cases ht : n.isTypeOnly
      · simp only [declaredByEdges, erasedEdges, declaredByTypesInEdges, hk, ht, List.mem_append, hi, hd,
          Bool.false_eq_true, ↓reduceIte, List.not_mem_nil, false_or]
        grind
      · simp only [declaredByEdges, erasedEdges, declaredByTypesInEdges, hk, ht, List.mem_append, hi,
          Bool.false_eq_true, ↓reduceIte, List.not_mem_nil, false_or]
        grind

end

-- What is visited of types stands in one of the forms that are overlooked.

namespace Node

variable {n : Node} {i : Ident}

theorem occurrences_of_isType (h : n.kind?.any Kind.isType = true) : n.occurrences = [] := by
  cases n
  case mk l es =>
    have hl : l.kind?.any Kind.holdsNoReference = true := by
      have ⟨k, hk, h⟩ := Option.any_eq_true .. |>.mp h
      exact Option.any_eq_true .. |>.mpr ⟨k, hk, by simp [Kind.holdsNoReference, h]⟩
    simp [occurrences, hl]

theorem occurrences_of_isTypeOnly (hn : n.IsTyped) (ht : n.isTypeOnly = true)
    (ho : n.kind?.any Kind.isOverlooked = false) : n.occurrences = [] := by
  cases n
  case mk l es =>
    obtain ⟨k, hk, ht⟩ := Option.any_eq_true .. |>.mp ht
    have hk : l.kind? = some k := hk
    simp only [kind?, label, hk, Option.any_some] at ho
    simp only [Kind.isTypeOnly, ho, Bool.or_eq_true, beq_iff_eq, Bool.false_eq_true, or_false] at ht
    rcases ht with ((ht | ht) | ht) | ht
    · exact occurrences_of_isType <| by simp [kind?, label, hk, ht]
    · subst ht
      have hes : occurrencesOfEdges (some .tsTypeAnnot) es = [] := by
        refine List.eq_nil_iff_forall_not_mem.mpr fun i hi => ?_
        obtain ⟨e, he, hi⟩ := mem_occurrencesOfEdges.mp hi
        have htype := (hn _ (mem_subtrees_self _) e he).1 hk
        simpa [occurrences_of_isType htype] using mem_occurrences_of_edge hi
      simp [occurrences, hk, Label.ident?_of_kind? hk, hes]
    · simp [occurrences, hk, ht, Kind.holdsNoReference]
    · simp [occurrences, hk, ht, Kind.holdsNoReference]

theorem mem_overlookedInEdges {k : Option Kind} {es : List Edge} (hi : i ∈ overlookedInEdges k es) :
    ∃ e ∈ es, (e.2.isTypeOnly = true ∧ i ∈ e.2.occurrences) ∨ i ∈ e.2.overlooked := by
  induction es
  case nil => simp [overlookedInEdges] at hi
  case cons e es hes =>
    simp only [overlookedInEdges, List.mem_append] at hi
    cases hi
    case inl hi =>
      refine ⟨e, List.mem_cons_self, ?_⟩
      grind
    case inr hi =>
      have ⟨e', he', hi⟩ := hes hi
      exact ⟨e', List.mem_cons_of_mem _ he', hi⟩

theorem exists_of_mem_overlooked (hn : n.IsTyped) (hi : i ∈ n.overlooked) :
    ∃ m ∈ n.subtrees, m.kind?.any Kind.isOverlooked = true ∧ i ∈ m.occurrences := by
  induction n using partsInduction
  case step l es hes =>
    rw [overlooked] at hi
    split at hi
    case isTrue => simp at hi
    case isFalse =>
      have ⟨e, he, hi⟩ := mem_overlookedInEdges hi
      have hsub (m) (hm : m ∈ e.2.subtrees) : m ∈ (mk l es).subtrees :=
        mem_subtrees_mk.mpr <| .inr ⟨e, he, hm⟩
      have hne := hn.of_mem_edges he
      cases hi
      case inl hi =>
        have ⟨ht, hi⟩ := hi
        cases ho : e.2.kind?.any Kind.isOverlooked
        case true => exact ⟨e.2, hsub _ (mem_subtrees_self _), ho, hi⟩
        case false => simp [occurrences_of_isTypeOnly hne ht ho] at hi
      case inr hi =>
        have ⟨m, hm, h⟩ := hes e he hne hi
        exact ⟨m, hsub m hm, h⟩

-- The parts of an arrow function without types.

theorem mem_erasedEdges {es : List Edge} {e' : Edge} :
    e' ∈ erasedEdges es ↔ ∃ e ∈ es, e.2.isTypeOnly = false ∧ e' = (e.1, e.2.erased) := by
  induction es
  case nil           => simp [erasedEdges]
  case cons e es hes =>
    rw [erasedEdges, exists_mem_cons_iff, ← hes]
    split <;> simp_all

theorem erasedEdges_append (es fs : List Edge) :
    erasedEdges (es ++ fs) = erasedEdges es ++ erasedEdges fs := by
  induction es
  case nil => rfl
  case cons e es hes =>
    simp only [List.cons_append, erasedEdges, hes]
    split <;> rfl

theorem erasedEdges_map (f : Field) (ms : List Node) :
    erasedEdges (ms.map (f, ·)) = (ms.filter (!·.isTypeOnly)).map fun m => (f, m.erased) := by
  induction ms
  case nil => rfl
  case cons m ms hms =>
    simp only [List.map_cons, erasedEdges, hms]
    split <;> simp_all

theorem at_erasedEdges {l : Label} {es : List Edge} (f : Field) :
    (mk l (erasedEdges es)).at f = (((mk l es).at f).filter (!·.isTypeOnly)).map erased := by
  induction es
  case nil => rfl
  case cons e es hes =>
    obtain ⟨g, m⟩ := e
    simp only [erasedEdges, at_cons]
    split <;> split <;> simp_all [at_cons]

theorem erased_of_isClosure (hc : n.label.isClosure = true) :
    n.erased = mk n.label (erasedEdges n.edges) :=
  erased_of_not_isAssertion <| by simp [isAssertion, kind?, Label.kind?_of_isClosure hc, Kind.isAssertion]

theorem at_erased (hc : n.label.isClosure = true) (f : Field) :
    n.erased.at f = ((n.at f).filter (!·.isTypeOnly)).map erased := by
  rw [erased_of_isClosure hc, at_erasedEdges, mk_label_edges]

theorem closure_erased (hc : n.label.isClosure = true) : n.closure.erased = n.erased.closure := by
  simp only [closure, at_erased hc, erased, erasedEdges_append, erasedEdges_map, List.map_map]
  rw [unasserted_of_not_isAssertion rfl]
  rfl

theorem mem_functionParts_erased (hc : n.label.isClosure = true) {m' : Node} :
    m' ∈ n.erased.functionParts ↔ ∃ m ∈ n.functionParts, m.isTypeOnly = false ∧ m' = m.erased := by
  simp only [functionParts, at_erased hc, List.mem_append, List.mem_map, List.mem_filter]
  grind

theorem mem_edges_of_closure {e : Edge} (he : e ∈ n.closure.edges) : e ∈ n.edges := by
  simp only [closure, edges, List.mem_append, List.mem_map, mem_at] at he
  rcases he with ⟨_, he, rfl⟩ | ⟨_, he, rfl⟩
  · exact he
  · exact he

theorem IsTyped.closure (hc : n.label.isClosure = true) (h : n.IsTyped) : n.closure.IsTyped := by
  intro m hm
  cases mem_subtrees_closure hm
  case inl hm =>
    intro e he
    subst hm
    have hn := h n n.mem_subtrees_self e (mem_edges_of_closure he)
    rwa [show n.kind? = n.closure.kind? from Label.kind?_of_isClosure hc] at hn
  case inr hm => exact h m hm

theorem IsTyped.of_mem_functionParts (h : n.IsTyped) {m : Node} (hm : m ∈ n.functionParts) :
    m.IsTyped := by
  rw [← n.mk_label_edges] at h
  cases mem_functionParts.mp hm
  case inl hm => exact h.of_mem_edges hm
  case inr hm => exact h.of_mem_edges hm

theorem parameterNames_erased (hc : n.label.isClosure = true) (h : n.IsTyped) :
    n.erased.parameterNames = n.parameterNames := by
  have hparams (m) (hm : m ∈ n.at .params) : m.isNamePattern = true := by
    refine (h n n.mem_subtrees_self _ (mem_at.mp hm)).2.1 ?_
    rw [show n.kind? = some .arrowFunctionExpression from Label.kind?_of_isClosure hc]
    rfl
  have hall : (n.at .params).filter (!·.isTypeOnly) = n.at .params :=
    List.filter_eq_self.mpr fun m hm => by simp [isTypeOnly_of_isNamePattern (hparams m hm)]
  rw [parameterNames, parameterNames, at_erased hc, hall, List.flatMap_map]
  congr 1
  exact List.flatMap_congr fun m hm => bound_erased m (hparams m hm)

theorem mem_declaredByTypesInEdges {es : List Edge} :
    i ∈ declaredByTypesInEdges es ↔
      ∃ e ∈ es, i ∈ if e.2.isTypeOnly then e.2.declared else e.2.declaredByTypes := by
  induction es
  case nil           => simp [declaredByTypesInEdges]
  case cons e es hes => simp only [declaredByTypesInEdges, mem_append, hes, exists_mem_cons_iff]

theorem mem_declaredByTypes_closure {m : Node} (hm : m ∈ n.functionParts)
    (hi : i ∈ if m.isTypeOnly then m.declared else m.declaredByTypes) : i ∈ n.closure.declaredByTypes := by
  rw [← functionParts_closure] at hm
  cases mem_functionParts.mp hm
  case inl hm => exact mem_declaredByTypesInEdges.mpr ⟨_, hm, hi⟩
  case inr hm => exact mem_declaredByTypesInEdges.mpr ⟨_, hm, hi⟩

-- What is declared in types apart, the parts that are left declare what all parts declare.
theorem not_boundBy_erased (hc : n.label.isClosure = true) (h : n.IsTyped)
    (hi : ¬ i.BoundBy n.closure.declaredByTypes) :
    (∀ m' ∈ n.erased.functionParts, ¬ i.BoundBy m'.declared) ↔
      ∀ m ∈ n.functionParts, ¬ i.BoundBy m.declared := by
  constructor
  case mp =>
    intro hparts m hm hb
    have ⟨j, hj, heq⟩ := List.mem_map.mp hb
    have hj' : j ∉ n.closure.declaredByTypes := fun hj => hi <| List.mem_map.mpr ⟨j, hj, heq⟩
    cases ht : m.isTypeOnly
    case true => exact hj' <| mem_declaredByTypes_closure hm <| by simpa [ht] using hj
    case false =>
      cases (declared_erased m (h.of_mem_functionParts hm)).mp hj
      case inl hj =>
        apply hparts m.erased <| (mem_functionParts_erased hc).mpr ⟨m, hm, ht, rfl⟩
        exact List.mem_map.mpr ⟨j, hj, heq⟩
      case inr hj => exact hj' <| mem_declaredByTypes_closure hm <| by simpa [ht] using hj
  case mpr =>
    intro hparts m' hm' hb
    have ⟨m, hm, _, heq⟩ := (mem_functionParts_erased hc).mp hm'
    apply hparts m hm
    refine hb.mono fun j hj => ?_
    exact (declared_erased m (h.of_mem_functionParts hm)).mpr <| .inl <| heq ▸ hj

-- An arrow function without its types binds what it bound before, but for what is declared in types.
theorem isFreeIn_erased (hc : n.label.isClosure = true) (h : n.IsTyped)
    (hi : ¬ i.BoundBy n.closure.declaredByTypes) : n.erased.isFreeIn i = n.isFreeIn i := by
  rw [Bool.eq_iff_iff, isFreeIn_iff, isFreeIn_iff, ← not_mem_parameterNames, ← not_mem_parameterNames,
    parameterNames_erased hc h, not_boundBy_erased hc h hi]

-- How the types of an arrow function bear on what it captures. Without them it captures the same, in the
-- same order, apart from the free identifiers that are overlooked in types. They stand in the forms that
-- are not told from expressions, and an arrow function that has none of these forms loses nothing.
structure CapturesThroughTypes (n : Node) : Prop where
  leaves     : Leaves n.erased.captured (n.closure.overlooked.filter n.isFreeIn) n.captured
  overlooked : ∀ i ∈ n.closure.overlooked,
    ∃ m ∈ n.subtrees, m.kind?.any Kind.isOverlooked = true ∧ i ∈ m.occurrences
  eq_iff     : n.erased.captured = n.captured ↔ ∀ i ∈ n.closure.overlooked, n.isFreeIn i = false
  eq         : (∀ m ∈ n.subtrees, m.kind?.any Kind.isOverlooked = false) → n.erased.captured = n.captured

theorem capturesThroughTypes (hc : n.label.isClosure = true) (htyped : n.IsTyped)
    (hkeeps : n.TypesKeepTo) : n.CapturesThroughTypes := by
  have hleaves : Leaves n.erased.captured (n.closure.overlooked.filter n.isFreeIn) n.captured := by
    have h := (leaves_erased n.closure (htyped.closure hc)).filter n.isFreeIn
    rw [closure_erased hc, occurrences_closure, occurrences_closure] at h
    have hfilter : n.erased.captured = (n.erased.functionParts.flatMap occurrences).filter n.isFreeIn := by
      refine List.filter_congr fun i hi => isFreeIn_erased hc htyped <| hkeeps i ?_
      rwa [closure_erased hc, occurrences_closure]
    rwa [hfilter, captured]
  have hoverlooked (i) (hi : i ∈ n.closure.overlooked) :
      ∃ m ∈ n.subtrees, m.kind?.any Kind.isOverlooked = true ∧ i ∈ m.occurrences := by
    obtain ⟨m, hm, ho, hi⟩ := exists_of_mem_overlooked (htyped.closure hc) hi
    cases mem_subtrees_closure hm
    case inl hm =>
      subst hm
      cases ho
    case inr hm => exact ⟨m, hm, ho, hi⟩
  have hiff : n.erased.captured = n.captured ↔ ∀ i ∈ n.closure.overlooked, n.isFreeIn i = false := by
    rw [hleaves.eq_iff, List.filter_eq_nil_iff]
    simp only [Bool.not_eq_true]
  refine ⟨hleaves, hoverlooked, hiff, fun hnone => hiff.mpr fun i hi => ?_⟩
  obtain ⟨m, hm, ho, _⟩ := hoverlooked i hi
  simp [hnone m hm] at ho

-- `(a: T = b as U) => {
--   class C<P> extends D<Q> implements I<R> { [k: string]: S; m(x: X): Y { return x! satisfies Z; } }
--   return f<V>(a, C);
-- }`
def manyTypes : Node :=
  let ident (name : String) (scope : Nat) : Node := .ofIdent { name, scope }
  let type (name : String) : Node := .form .tsTypeReference [] [(.typeName, ident name 1)]
  let typed (name : String) (scope : Nat) (t : String) : Node :=
    .mk (.ident { name, scope }) [(.annot, .form .tsTypeAnnot [] [(.annot, type t)])]
  let typeArguments (name : String) : Node := .form .tsTypeParameterInstantiation [] [(.params, type name)]
  .arrow [.form .assignmentPattern [] [(.left, typed "a" 2 "T"),
      (.right, .form .tsAsExpression [] [(.expression, ident "b" 1), (.annot, type "U")])]]
    (.form .blockStatement [] [
      (.stmts, .form .classDeclaration [] [(.identifier, ident "C" 2),
        (.body, .form .tsIndexSignature [] [(.params, typed "k" 3 "K"),
          (.annot, .form .tsTypeAnnot [] [(.annot, type "S")])]),
        (.body, .form .classMethod [] [(.key, .propertyName "m"), (.params, .parameter (typed "x" 4 "X")),
          (.body, .returnBlock (.form .tsSatisfiesExpression []
            [(.expression, .form .tsNonNullExpression [] [(.expression, ident "x" 4)]), (.annot, type "Z")])),
          (.returnType, .form .tsTypeAnnot [] [(.annot, type "Y")])]),
        (.superClass, ident "D" 1),
        (.typeParams, .form .tsTypeParameterDeclaration [] [(.parameters, .form .tsTypeParameter []
          [(.name, ident "P" 3)])]),
        (.superTypeParams, typeArguments "Q"),
        (.implemented, .form .tsExpressionWithTypeArguments [] [(.expression, ident "I" 1),
          (.typeArguments, typeArguments "R")])]),
      (.stmts, .form .returnStatement [] [(.argument, .form .callExpression [] [(.callee, ident "f" 1),
        (.arguments, .entry (ident "a" 2)), (.arguments, .entry (ident "C" 2)),
        (.typeArguments, typeArguments "V")])])])

theorem capturesThroughTypes_manyTypes :
    manyTypes.IsTyped ∧ manyTypes.TypesKeepTo ∧ manyTypes.CapturesThroughTypes ∧
      manyTypes.captured.map Ident.name = ["b", "k", "D", "I", "f"] ∧
      manyTypes.erased.captured.map Ident.name = ["b", "D", "f"] :=
  have htyped : manyTypes.IsTyped := by decide +kernel
  have hkeeps : manyTypes.TypesKeepTo := by decide +kernel
  ⟨htyped, hkeeps, capturesThroughTypes rfl htyped hkeeps, by decide +kernel, by decide +kernel⟩

-- `() => class implements I {}`
def implementingClosure : Node :=
  .arrow [] <| .form .classExpression [] [(.implemented, .form .tsExpressionWithTypeArguments []
    [(.expression, .ofIdent { name := "I", scope := 1 })])]

-- The interfaces of a class are taken for variables.
theorem not_erased_implements :
    implementingClosure.IsTyped ∧ implementingClosure.TypesKeepTo ∧
      implementingClosure.captured ≠ implementingClosure.erased.captured := by
  decide +kernel

end Node

end RenderMemo
