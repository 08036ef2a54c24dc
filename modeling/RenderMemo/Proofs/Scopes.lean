import RenderMemo.Proofs.Captures
import RenderMemo.Proofs.Rewriting

namespace RenderMemo

-- An identifier is bound by one of several others.
def Ident.BoundBy (i : Ident) (is : List Ident) : Prop := i.binding ∈ is.map Ident.binding

instance (i : Ident) (is : List Ident) : Decidable (i.BoundBy is) :=
  inferInstanceAs (Decidable (_ ∈ _))

@[simp]
theorem Ident.boundBy_append {i : Ident} {is js : List Ident} :
    i.BoundBy (is ++ js) ↔ i.BoundBy is ∨ i.BoundBy js := by
  simp [BoundBy]

theorem Ident.BoundBy.mono {i : Ident} {is js : List Ident} (h : i.BoundBy is) (hsub : is ⊆ js) :
    i.BoundBy js :=
  List.map_subset _ hsub h

-- What is declared inside the arrow functions of a tree.
def Node.inner (n : Node) : List Ident := n.closures.flatMap Node.declared

def innerOfEdges (es : List Edge) : List Ident := (closuresOfEdges es).flatMap Node.declared

-- One part of a form does not speak of what is declared inside the arrow functions of another one.
def KeepsTo (k : Option Kind) (e e' : Edge) : Prop :=
  ∀ i ∈ occurrencesOfEdges k [e'], ¬ i.BoundBy e.2.inner

instance (k : Option Kind) (e e' : Edge) : Decidable (KeepsTo k e e') :=
  inferInstanceAs (Decidable (∀ i ∈ occurrencesOfEdges k [e'], _))

namespace Node

-- Variables are resolved if what is declared inside an arrow function occurs only there: wherever a
-- tree branches, the arrow functions of every branch keep their bindings to themselves.
def Resolved (n : Node) : Prop :=
  ∀ m ∈ n.subtrees, m.edges.Pairwise fun e e' => KeepsTo m.kind? e e' ∧ KeepsTo m.kind? e' e

-- Without types, an identifier has no parts, and an arrow function has its parameters and its body.
def Untyped (n : Node) : Prop :=
  ∀ m ∈ n.subtrees, (m.label.ident?.isSome → m.edges = []) ∧
    (m.label.isClosure → ∀ e ∈ m.edges, e.1 = .params ∨ e.1 = .body)

instance (n : Node) : Decidable n.Resolved :=
  inferInstanceAs (Decidable (∀ m ∈ n.subtrees, List.Pairwise _ _))

instance (n : Node) : Decidable n.Untyped :=
  inferInstanceAs (Decidable (∀ m ∈ n.subtrees, _ ∧ _))

variable {n m : Node} {l : Label} {es : List Edge}

theorem Resolved.of_mem_subtrees (h : n.Resolved) (hm : m ∈ n.subtrees) : m.Resolved :=
  fun k hk => h k (subtrees_trans hk n hm)

theorem Untyped.of_mem_subtrees (h : n.Untyped) (hm : m ∈ n.subtrees) : m.Untyped :=
  fun k hk => h k (subtrees_trans hk n hm)

end Node

-- The parts of a form, taken together, are resolved.
structure ResolvedEdges (k : Option Kind) (es : List Edge) : Prop where
  parts : ∀ e ∈ es, e.2.Resolved
  apart : es.Pairwise fun e e' => KeepsTo k e e' ∧ KeepsTo k e' e

def UntypedEdges (es : List Edge) : Prop := ∀ e ∈ es, e.2.Untyped

theorem Node.mem_subtrees_of_mem_edges {n m : Node} {f : Field} (h : (f, m) ∈ n.edges) :
    m ∈ n.subtrees :=
  mem_subtrees_of_mem_at <| mem_at.mpr h

theorem Node.Resolved.edges {n : Node} (h : n.Resolved) : ResolvedEdges n.kind? n.edges where
  parts _ he := h.of_mem_subtrees <| mem_subtrees_of_mem_edges he
  apart := h n n.mem_subtrees_self

theorem Node.Untyped.edges {n : Node} (h : n.Untyped) : UntypedEdges n.edges :=
  fun _ he => h.of_mem_subtrees <| mem_subtrees_of_mem_edges he

section

variable {k : Option Kind} {e : Edge} {es : List Edge}

theorem resolvedEdges_cons :
    ResolvedEdges k (e :: es) ↔
      e.2.Resolved ∧ (∀ e' ∈ es, KeepsTo k e e' ∧ KeepsTo k e' e) ∧ ResolvedEdges k es := by
  constructor
  case mp =>
    intro ⟨hparts, hapart⟩
    have ⟨hhead, htail⟩ := List.pairwise_cons.mp hapart
    exact ⟨hparts e List.mem_cons_self, hhead,
      ⟨fun e' he' => hparts e' (List.mem_cons_of_mem _ he'), htail⟩⟩
  case mpr =>
    intro ⟨he, hhead, ⟨hparts, htail⟩⟩
    exact ⟨List.forall_mem_cons.mpr ⟨he, hparts⟩, List.pairwise_cons.mpr ⟨hhead, htail⟩⟩

theorem untypedEdges_cons : UntypedEdges (e :: es) ↔ e.2.Untyped ∧ UntypedEdges es :=
  List.forall_mem_cons

theorem mem_occurrencesOfEdges {i : Ident} :
    i ∈ occurrencesOfEdges k es ↔ ∃ e ∈ es, i ∈ occurrencesOfEdges k [e] := by
  induction es
  case nil => simp [occurrencesOfEdges]
  case cons e es hi => simp [occurrencesOfEdges, hi]

theorem mem_declaredByEdges {i : Ident} :
    i ∈ declaredByEdges k es ↔
      ∃ e ∈ es, (k.any (·.declares e.1) = true ∧ i ∈ e.2.bound) ∨ i ∈ e.2.declared := by
  induction es
  case nil => simp [declaredByEdges]
  case cons e es hi =>
    simp only [declaredByEdges, List.mem_append, hi]
    split <;> simp_all

end

theorem Node.mem_declared {n : Node} {i : Ident} :
    i ∈ n.declared ↔
      ∃ e ∈ n.edges, (n.kind?.any (·.declares e.1) = true ∧ i ∈ e.2.bound) ∨ i ∈ e.2.declared := by
  cases n
  case mk => exact mem_declaredByEdges

theorem Kind.declares_arrowFunctionExpression (f : Field) :
    arrowFunctionExpression.declares f = true ↔ f = .params := by
  cases f <;> simp [declares]

-- An occurrence in an arrow function refers to something outside of it if it is no parameter, is not
-- called `arguments`, and is declared in no part of the function.
theorem Node.isFreeIn_iff {n : Node} {i : Ident} :
    n.isFreeIn i = true ↔
      (∀ m, (.params, m) ∈ n.edges → ∀ j ∈ m.bound, j.name ≠ i.name) ∧ i.name ≠ "arguments" ∧
      ∀ m ∈ n.functionParts, ¬ i.BoundBy m.declared := by
  simp only [isFreeIn, Bool.and_eq_true, Bool.not_eq_true', bne_iff_ne, List.contains_eq_mem,
    decide_eq_false_iff_not, List.mem_map, List.mem_flatMap, mem_at, Ident.BoundBy, and_assoc,
    not_exists, not_and, forall_exists_index, and_imp]
  refine and_congr ⟨fun h m hm j hj => h j m hm hj, fun h j m hm hj => h m hm j hj⟩ ?_
  exact and_congr_right fun _ => ⟨fun h m hm j hj => h j m hm hj, fun h j m hm hj => h m hm j hj⟩

theorem mem_occurrences_of_edge {k : Option Kind} {e : Edge} {i : Ident}
    (h : i ∈ occurrencesOfEdges k [e]) : i ∈ e.2.occurrences := by
  simp only [occurrencesOfEdges, List.append_nil] at h
  split at h
  case isTrue  => simp at h
  case isFalse => exact h

theorem Node.mem_occurrences_mk {l : Label} {es : List Edge} {i : Ident} :
    i ∈ (Node.mk l es).occurrences ↔
      l.kind?.any Kind.holdsNoReference = false ∧
        (l.ident? = some i ∨ i ∈ occurrencesOfEdges l.kind? es) := by
  simp only [occurrences]
  split <;> simp_all

@[simp]
theorem Node.occurrences_ofIdent (i : Ident) : (ofIdent i).occurrences = [i] :=
  rfl

@[simp]
theorem Node.occurrences_entry (n : Node) : (entry n).occurrences = n.occurrences := by
  have hkind : Kind.entry.holdsNoReference = false := rfl
  simp [entry, form, occurrences, occurrencesOfEdges, Label.kind?, Label.ident?, Kind.holdsLabelOrTag,
    hkind]

-- The call of a closure speaks of its binder, of the closure and of what the closure captures.
theorem Hoisted.mem_occurrences_call {h : Hoisted} {binder : String} {i : Ident}
    (hi : i ∈ (h.call binder).occurrences) :
    i.name = binder ∨ i.name = h.name ∨ i ∈ h.captured := by
  have ⟨_, hi⟩ := Node.mem_occurrences_mk.mp hi
  have ⟨e, he, hi⟩ := mem_occurrencesOfEdges.mp <| hi.resolve_left (by simp [Label.ident?])
  have hi := mem_occurrences_of_edge hi
  simp only [List.map_cons, List.map_map, List.mem_cons, List.mem_map] at he
  rcases he with rfl | rfl | rfl | ⟨j, hj, rfl⟩
  · exact .inl <| by simp [Node.named] at hi; simp [hi]
  · exact .inr <| .inl <| by simp [Node.named] at hi; simp [hi]
  · simp [Node.this, Node.form, Node.occurrences, occurrencesOfEdges, Label.ident?] at hi
  · exact .inr <| .inr <| by simp at hi; simp [hi, hj]

theorem Label.kind?_of_isClosure {l : Label} (h : l.isClosure = true) :
    l.kind? = some .arrowFunctionExpression := by
  unfold isClosure at h
  split at h
  case h_1 => rfl
  case h_2 => simp at h

theorem occurrencesOfEdges_arrow (es : List Edge) :
    occurrencesOfEdges (some .arrowFunctionExpression) es = es.flatMap (·.2.occurrences) := by
  induction es
  case nil => rfl
  case cons e es hi => simp [occurrencesOfEdges, Kind.holdsLabelOrTag, hi]

theorem Node.occurrences_subset_of_mem_functionParts {n m : Node} (hc : n.label.isClosure = true)
    (hm : m ∈ n.functionParts) : m.occurrences ⊆ n.occurrences := by
  intro i hi
  cases n
  case mk l es =>
    have hl := Label.kind?_of_isClosure hc
    simp only [label] at hl
    refine mem_occurrences_mk.mpr ⟨by rw [hl]; rfl, .inr ?_⟩
    rw [hl, occurrencesOfEdges_arrow, List.mem_flatMap]
    cases mem_functionParts.mp hm
    case inl hm => exact ⟨_, hm, hi⟩
    case inr hm => exact ⟨_, hm, hi⟩

theorem Node.captured_subset_occurrences {n : Node} (hc : n.label.isClosure = true) :
    n.captured ⊆ n.occurrences := by
  intro i hi
  have ⟨⟨m, hm, hoccurs⟩, _⟩ := mem_captured.mp hi
  exact occurrences_subset_of_mem_functionParts hc hm hoccurs

section

variable {bs : List Binding} {n n' : Node} {i : Ident}

theorem Kind.holdsLabelOrTag_of_not_ident {k : Kind} {f : Field} (h : n.label.ident? = none) :
    k.holdsLabelOrTag f n = (k == .labeledStatement && f == .label) := by
  unfold holdsLabelOrTag
  split
  case h_1      => rfl
  case h_2 heq  => simp [heq, Label.ident?] at h
  case h_3 hlabel _ => simpa using hlabel

theorem Rewrites.holdsLabelOrTag_eq {f : Field} {k : Option Kind} (h : Rewrites bs n n') :
    k.any (·.holdsLabelOrTag f n') = k.any (·.holdsLabelOrTag f n) := by
  cases h
  case keep => rfl
  case bind => rfl
  case closure h _ _ hc =>
    have hl : h.arrow.label.ident? = none := by
      cases hl : h.arrow.label <;> simp_all [Label.isClosure, Label.ident?]
    have hcall (b : String) : (h.call b).label.ident? = none := rfl
    simp only [Kind.holdsLabelOrTag_of_not_ident, hl, hcall]

-- A bind call and the call that goes through a binder instead have the same parts.

section

variable {s : Span} {as : List (String × Json)} {es rest : List Edge} {target : Node} {binder : String}

theorem Node.occurrences_bindCall (hp : bindParts? es = some (target, rest)) :
    (mk (.form .callExpression s as) es).occurrences =
      target.occurrences ++ occurrencesOfEdges (some .callExpression) rest := by
  obtain ⟨_, _, _, hes⟩ := bindParts?_eq_some_iff.mp hp
  have hcall : Kind.callExpression.holdsNoReference = false := rfl
  have hmember : Kind.memberExpression.holdsNoReference = false := rfl
  simp [hes, occurrences, occurrencesOfEdges, Label.kind?, Label.ident?, Kind.holdsLabelOrTag, hcall,
    hmember]

theorem Node.occurrences_boundCall :
    (mk (.form .callExpression s as)
      ((.callee, named binder) :: (.arguments, entry target) :: rest)).occurrences =
      { name := binder } :: (target.occurrences ++ occurrencesOfEdges (some .callExpression) rest) := by
  have hcall : Kind.callExpression.holdsNoReference = false := rfl
  rw [occurrences]
  simp [occurrencesOfEdges, Label.kind?, Label.ident?, Kind.holdsLabelOrTag, hcall, named]

theorem Node.declared_bindCall (hp : bindParts? es = some (target, rest)) :
    (mk (.form .callExpression s as) es).declared =
      target.declared ++ declaredByEdges (some .callExpression) rest := by
  obtain ⟨_, _, _, hes⟩ := bindParts?_eq_some_iff.mp hp
  simp [hes, declared, declaredByEdges, Label.kind?, Kind.declares]

theorem Node.declared_boundCall :
    (mk (.form .callExpression s as)
      ((.callee, named binder) :: (.arguments, entry target) :: rest)).declared =
      target.declared ++ declaredByEdges (some .callExpression) rest := by
  simp [declared, declaredByEdges, Label.kind?, Kind.declares, named, ofIdent, entry, form]

end

-- Rewriting makes no variable occur that did not occur before, apart from the names of the bindings.
mutual

theorem Rewrites.mem_occurrences {n n' : Node} (hbs : ∀ b ∈ bs, ∀ h ∈ b.hoisted, h.captured ⊆ h.arrow.captured) :
    Rewrites bs n n' → i ∈ n'.occurrences → (∃ b ∈ bs, i.name ∈ b.names) ∨ i ∈ n.occurrences
  | .keep hes, hi => by
    have ⟨hk, hi⟩ := Node.mem_occurrences_mk.mp hi
    cases hi
    case inl hi => exact .inr <| Node.mem_occurrences_mk.mpr ⟨hk, .inl hi⟩
    case inr hi =>
      refine (hes.mem_occurrences hbs hi).imp_right fun hi => ?_
      exact Node.mem_occurrences_mk.mpr ⟨hk, .inr hi⟩
  | .closure hb hh hc, hi => by
    rcases Hoisted.mem_occurrences_call hi with hi | hi | hi
    · exact .inl ⟨_, hb, by simp [hi, Binding.names]⟩
    · exact .inl ⟨_, hb, hi ▸ List.mem_cons_of_mem _ (List.mem_map_of_mem hh)⟩
    · exact .inr <| Node.captured_subset_occurrences hc <| hbs _ hb _ hh hi
  | .bind hb hp htarget hrest, hi => by
    rw [Node.occurrences_boundCall, List.mem_cons, List.mem_append] at hi
    rw [Node.occurrences_bindCall hp, List.mem_append]
    rcases hi with hi | hi | hi
    · exact .inl ⟨_, hb, by simp [hi, Binding.names]⟩
    · exact (htarget.mem_occurrences hbs hi).imp_right .inl
    · exact (hrest.mem_occurrences hbs hi).imp_right .inr

theorem RewritesEdges.mem_occurrences {k : Option Kind} {es es' : List Edge}
    (hbs : ∀ b ∈ bs, ∀ h ∈ b.hoisted, h.captured ⊆ h.arrow.captured) :
    RewritesEdges bs es es' → i ∈ occurrencesOfEdges k es' →
      (∃ b ∈ bs, i.name ∈ b.names) ∨ i ∈ occurrencesOfEdges k es
  | .nil, hi => by simp [occurrencesOfEdges] at hi
  | .cons hn hes, hi => by
    simp only [occurrencesOfEdges, List.mem_append, hn.holdsLabelOrTag_eq] at hi ⊢
    cases hi
    case inl hi =>
      split at hi
      case isTrue  => simp at hi
      case isFalse hl =>
        rw [if_neg hl]
        exact (hn.mem_occurrences hbs hi).imp_right .inl
    case inr hi => exact (hes.mem_occurrences hbs hi).imp_right .inr

end

theorem boundByEdges_eq_nil {k : Kind} (hk : ∀ f, k.bindsThrough f = false) (es : List Edge) :
    boundByEdges k es = [] := by
  induction es
  case nil => rfl
  case cons e es hi => simp [boundByEdges, hk, hi]

theorem Node.bound_eq_nil {n : Node} (hc : n.label.isClosure = true) : n.bound = [] := by
  cases n
  case mk l es =>
    cases l
    case form k s as =>
      have hk : k = .arrowFunctionExpression := Option.some.inj <| Label.kind?_of_isClosure hc
      exact hk ▸ boundByEdges_eq_nil (fun _ => rfl) es
    all_goals simp [label, Label.isClosure] at hc

-- Rewriting keeps what a pattern binds.
mutual

theorem Rewrites.bound_eq {n n' : Node} : Rewrites bs n n' → n'.bound = n.bound
  | .keep (l := l) hes => by
    cases l
    case form k _ _ => exact hes.bound_eq k
    all_goals rfl
  | .bind .. => by
    simp only [Node.bound]
    rw [boundByEdges_eq_nil fun _ => rfl, boundByEdges_eq_nil fun _ => rfl]
  | .closure _ _ hc => by
    rw [Node.bound_eq_nil hc]
    exact boundByEdges_eq_nil (fun _ => rfl) _

theorem RewritesEdges.bound_eq {es es' : List Edge} (k : Kind) :
    RewritesEdges bs es es' → boundByEdges k es' = boundByEdges k es
  | .nil => rfl
  | .cons hn hes => by simp only [boundByEdges, hn.bound_eq, hes.bound_eq k]

end

end

theorem Node.inner_of_isClosure {n : Node} (hc : n.label.isClosure = true) : n.inner = n.declared := by
  cases n
  case mk l es =>
    simp only [label] at hc
    simp [inner, closures, hc]

theorem Node.inner_mk {l : Label} {es : List Edge} (hc : l.isClosure = false) :
    (mk l es).inner = innerOfEdges es := by
  simp [inner, innerOfEdges, closures, hc]

@[simp]
theorem innerOfEdges_cons {e : Edge} {es : List Edge} :
    innerOfEdges (e :: es) = e.2.inner ++ innerOfEdges es := by
  simp [innerOfEdges, Node.inner, closuresOfEdges]

theorem Node.inner_bindCall {s : Span} {as : List (String × Json)} {es rest : List Edge} {target : Node}
    (hp : bindParts? es = some (target, rest)) :
    (mk (.form .callExpression s as) es).inner = target.inner ++ innerOfEdges rest := by
  obtain ⟨_, _, _, hes⟩ := bindParts?_eq_some_iff.mp hp
  rw [hes, inner_mk rfl, innerOfEdges_cons, inner_mk rfl, innerOfEdges_cons, innerOfEdges_cons,
    inner_mk rfl]
  simp [innerOfEdges, closuresOfEdges]

section

variable {bs : List Binding} {i : Ident}

-- A declaration is only lost with the arrow function in which it stands.
mutual

theorem Rewrites.boundBy_declared {n n' : Node} :
    Rewrites bs n n' → i.BoundBy n.declared → i.BoundBy n'.declared ∨ i.BoundBy n.inner
  | @Rewrites.keep _ l es _ hes, hi => by
    cases hl : l.isClosure
    case true => exact .inr <| (Node.inner_of_isClosure (n := .mk l es) hl) ▸ hi
    case false =>
      rw [Node.inner_mk hl]
      exact hes.boundBy_declared hi
  | .bind _ hp htarget hrest, hi => by
    rw [Node.declared_bindCall hp, Ident.boundBy_append] at hi
    rw [Node.declared_boundCall, Node.inner_bindCall hp, Ident.boundBy_append, Ident.boundBy_append]
    cases hi
    case inl hi => exact (htarget.boundBy_declared hi).imp .inl .inl
    case inr hi => exact (hrest.boundBy_declared hi).imp .inr .inr
  | .closure _ _ hc, hi => .inr <| (Node.inner_of_isClosure hc) ▸ hi

theorem RewritesEdges.boundBy_declared {k : Option Kind} {es es' : List Edge} :
    RewritesEdges bs es es' → i.BoundBy (declaredByEdges k es) →
      i.BoundBy (declaredByEdges k es') ∨ i.BoundBy (innerOfEdges es)
  | .nil, hi => .inl hi
  | .cons hn hes, hi => by
    simp only [declaredByEdges, hn.bound_eq, Ident.boundBy_append, innerOfEdges_cons] at hi ⊢
    rcases hi with ((hi | hi) | hi)
    · exact .inl <| .inl <| .inl hi
    · exact (hn.boundBy_declared hi).imp (fun hi => .inl <| .inr hi) .inl
    · exact (hes.boundBy_declared hi).imp .inr .inr

end

theorem mem_innerOfEdges {j : Ident} {es : List Edge} :
    j ∈ innerOfEdges es ↔ ∃ e ∈ es, j ∈ e.2.inner := by
  induction es
  case nil => simp [innerOfEdges, closuresOfEdges]
  case cons e es hi => simp [hi]

-- What an arrow function takes from its surroundings is not declared inside of it.
theorem Node.not_boundBy_of_isFreeIn {n : Node} (hc : n.label.isClosure = true)
    (hu : ∀ e ∈ n.edges, e.1 = .params ∨ e.1 = .body) (hi : n.isFreeIn i = true) :
    ¬ i.BoundBy n.declared := by
  have ⟨hbound, _, hdeclared⟩ := isFreeIn_iff.mp hi
  intro hd
  have ⟨j, hj, heq⟩ := List.mem_map.mp hd
  have ⟨e, he, hj⟩ := mem_declared.mp hj
  rw [show n.kind? = some .arrowFunctionExpression from Label.kind?_of_isClosure hc] at hj
  cases hj
  case inl hj =>
    have ⟨hf, hj⟩ := hj
    have hf := (Kind.declares_arrowFunctionExpression e.1).mp hf
    exact hbound e.2 (hf ▸ he) j hj (Ident.binding_eq_iff.mp heq).1
  case inr hj => exact hdeclared e.2 (mem_functionParts_of_mem_edges he (hu e he)) <| List.mem_map.mpr ⟨j, hj, heq⟩

-- What occurs in one part and is declared in another one is not declared inside an arrow function, so
-- the declaration is still there.
theorem boundBy_cons {bs : List Binding} {k : Option Kind} {f : Field} {n n' : Node} {es es' : List Edge}
    (hbs : ∀ b ∈ bs, ∀ h ∈ b.hoisted, h.captured ⊆ h.arrow.captured) (hgen : ∀ b ∈ bs, i.name ∉ b.names)
    (hn : Rewrites bs n n') (hes : RewritesEdges bs es es') (hr : ResolvedEdges k ((f, n) :: es))
    (hhead : i ∈ n'.occurrences → i.BoundBy n.declared → i.BoundBy n'.declared)
    (htail : i ∈ occurrencesOfEdges k es' → i.BoundBy (declaredByEdges k es) →
      i.BoundBy (declaredByEdges k es'))
    (hi : i ∈ occurrencesOfEdges k ((f, n') :: es'))
    (hd : i.BoundBy (declaredByEdges k ((f, n) :: es))) :
    i.BoundBy (declaredByEdges k ((f, n') :: es')) := by
  have ⟨_, hapart, _⟩ := resolvedEdges_cons.mp hr
  simp only [declaredByEdges, hn.bound_eq, Ident.boundBy_append] at hd ⊢
  have hi : i ∈ occurrencesOfEdges k [(f, n')] ∨ i ∈ occurrencesOfEdges k es' := by
    simpa [occurrencesOfEdges] using hi
  have hfirst : i ∈ occurrencesOfEdges k [(f, n')] → ¬ i.BoundBy (innerOfEdges es) := by
    intro hi hb
    have hi := ((RewritesEdges.cons hn .nil).mem_occurrences hbs hi).resolve_left (by simpa using hgen)
    have ⟨j, hj, heq⟩ := List.mem_map.mp hb
    have ⟨e, he, hj⟩ := mem_innerOfEdges.mp hj
    exact (hapart e he).2 i hi <| List.mem_map.mpr ⟨j, hj, heq⟩
  have hlast : i ∈ occurrencesOfEdges k es' → ¬ i.BoundBy n.inner := by
    intro hi
    have hi := (hes.mem_occurrences hbs hi).resolve_left (by simpa using hgen)
    have ⟨e, he, hi⟩ := mem_occurrencesOfEdges.mp hi
    exact (hapart e he).1 i hi
  rcases hd with ((hd | hd) | hd)
  · exact .inl <| .inl hd
  · cases hi
    case inl hi => exact .inl <| .inr <| hhead (mem_occurrences_of_edge hi) hd
    case inr hi => exact .inl <| .inr <| (hn.boundBy_declared hd).resolve_right (hlast hi)
  · cases hi
    case inl hi => exact .inr <| (hes.boundBy_declared hd).resolve_right (hfirst hi)
    case inr hi => exact .inr <| htail hi hd

theorem Node.Resolved.bindCall {s : Span} {as : List (String × Json)} {es rest : List Edge}
    {target : Node} (h : (mk (.form .callExpression s as) es).Resolved)
    (hp : bindParts? es = some (target, rest)) :
    ResolvedEdges (some .callExpression) ((.arguments, target) :: rest) := by
  obtain ⟨_, _, _, hes⟩ := bindParts?_eq_some_iff.mp hp
  subst hes
  obtain ⟨hmember, hapart, hrest⟩ := resolvedEdges_cons.mp h.edges
  obtain ⟨htarget, _⟩ := resolvedEdges_cons.mp hmember.edges
  refine resolvedEdges_cons.mpr ⟨htarget, fun e he => ?_, hrest⟩
  obtain ⟨hfirst, hlast⟩ := hapart e he
  constructor
  · intro i hi hb
    apply hfirst i hi
    rw [inner_mk rfl, innerOfEdges_cons]
    exact Ident.boundBy_append.mpr <| .inl hb
  · intro i hi
    have hmember : Kind.memberExpression.holdsNoReference = false := rfl
    apply hlast i
    simp only [occurrencesOfEdges, Option.any_some, Kind.holdsLabelOrTag, occurrences, Label.kind?,
      Label.ident?, hmember] at hi ⊢
    simpa using hi

theorem Node.Untyped.bindCall {s : Span} {as : List (String × Json)} {es rest : List Edge}
    {target : Node} (h : (mk (.form .callExpression s as) es).Untyped)
    (hp : bindParts? es = some (target, rest)) : target.Untyped ∧ UntypedEdges rest := by
  obtain ⟨_, _, _, hes⟩ := bindParts?_eq_some_iff.mp hp
  subst hes
  obtain ⟨hmember, hrest⟩ := untypedEdges_cons.mp h.edges
  exact ⟨(untypedEdges_cons.mp hmember.edges).1, hrest⟩

-- A variable that still occurs after a rewriting is still declared if it was declared before.
mutual

theorem Rewrites.boundBy_of_occurs {bs : List Binding} {n n' : Node}
    (hbs : ∀ b ∈ bs, ∀ h ∈ b.hoisted, h.captured ⊆ h.arrow.captured) (hgen : ∀ b ∈ bs, i.name ∉ b.names) :
    Rewrites bs n n' → n.Resolved → n.Untyped → i ∈ n'.occurrences → i.BoundBy n.declared →
      i.BoundBy n'.declared
  | @Rewrites.keep _ l es _ hes, hr, hu, hi, hd => by
    have ⟨_, hi⟩ := Node.mem_occurrences_mk.mp hi
    cases hi
    case inl hi =>
      have hnil : es = [] := (hu _ (Node.mem_subtrees_self _)).1 <| Option.isSome_of_mem hi
      subst hnil
      simp [Node.declared, declaredByEdges, Ident.BoundBy] at hd
    case inr hi => exact hes.boundBy_of_occurs hbs hgen hr.edges hu.edges hi hd
  | .closure hb hh hc, _, hu, hi, hd => by
    rcases Hoisted.mem_occurrences_call hi with hi | hi | hi
    · exact absurd hi fun hi => hgen _ hb <| by simp [hi, Binding.names]
    · exact absurd hi fun hi => hgen _ hb <| hi ▸ List.mem_cons_of_mem _ (List.mem_map_of_mem hh)
    · have hfree := (Node.mem_captured.mp <| hbs _ hb _ hh hi).2
      have hparts := (hu _ (Node.mem_subtrees_self _)).2 hc
      exact absurd hd <| Node.not_boundBy_of_isFreeIn hc hparts hfree
  | .bind hb hp htarget hrest, hr, hu, hi, hd => by
    have ⟨hu₁, hu₂⟩ := hu.bindCall hp
    have hr := hr.bindCall hp
    have ⟨hr₁, _, hr₂⟩ := resolvedEdges_cons.mp hr
    rw [Node.occurrences_boundCall, List.mem_cons] at hi
    have hi := hi.resolve_left fun hi => hgen _ hb <| by simp [hi, Binding.names]
    have := boundBy_cons hbs hgen htarget hrest hr (htarget.boundBy_of_occurs hbs hgen hr₁ hu₁)
      (hrest.boundBy_of_occurs hbs hgen hr₂ hu₂)
    rw [Node.declared_bindCall hp] at hd
    rw [Node.declared_boundCall]
    simp only [occurrencesOfEdges, declaredByEdges] at this
    exact this hi hd

theorem RewritesEdges.boundBy_of_occurs {bs : List Binding} {k : Option Kind} {es es' : List Edge}
    (hbs : ∀ b ∈ bs, ∀ h ∈ b.hoisted, h.captured ⊆ h.arrow.captured) (hgen : ∀ b ∈ bs, i.name ∉ b.names) :
    RewritesEdges bs es es' → ResolvedEdges k es → UntypedEdges es → i ∈ occurrencesOfEdges k es' →
      i.BoundBy (declaredByEdges k es) → i.BoundBy (declaredByEdges k es')
  | .nil, _, _, hi, _ => by simp [occurrencesOfEdges] at hi
  | .cons hn hes, hr, hu, hi, hd => by
    have ⟨hr₁, _, hr₂⟩ := resolvedEdges_cons.mp hr
    have ⟨hu₁, hu₂⟩ := untypedEdges_cons.mp hu
    exact boundBy_cons hbs hgen hn hes hr (hn.boundBy_of_occurs hbs hgen hr₁ hu₁)
      (hes.boundBy_of_occurs hbs hgen hr₂ hu₂) hi hd

end

end

end RenderMemo
