import RenderMemo.Proofs.Eclipsed
import RenderMemo.Proofs.Erasure
import RenderMemo.Proofs.LeadingParameters

open List

namespace RenderMemo

namespace Kind

-- The places of a form to which it assigns. What a declaration in the head of a loop declares is no
-- target.
def writes (k : Kind) (f : Field) : Bool :=
  match k, f with
  | assignmentExpression, .left | updateExpression, .argument | forInStatement, .left
  | forOfStatement, .left => true
  | _, _ => false

-- The places of a target that are assigned to with the target: those of a pattern, and what stands in
-- parentheses or has a type.
def writesThrough (k : Kind) (f : Field) : Bool :=
  k.bindsThrough f || (k == parenthesisExpression || k.isAssertion) && f == .expression

variable {k : Kind} {f : Field} {n : Node}

theorem writesThrough_cases (h : k.writesThrough f = true) :
    k.bindsThrough f = true ∨ k = parenthesisExpression ∨ k.isAssertion = true := by
  simp only [writesThrough, Bool.or_eq_true, Bool.and_eq_true, beq_iff_eq] at h
  exact h.imp_right And.left

theorem holdsNoReference_of_writesThrough (h : k.writesThrough f = true) : k.holdsNoReference = false := by
  rcases writesThrough_cases h with h | rfl | h
  · unfold bindsThrough at h
    split at h
    all_goals first | rfl | cases h
  · rfl
  · exact holdsNoReference_of_isAssertion h

theorem holdsLabelOrTag_of_writesThrough (h : k.writesThrough f = true) : k.holdsLabelOrTag f n = false := by
  rcases writesThrough_cases h with h | rfl | h
  · unfold bindsThrough at h
    split at h
    all_goals first | rfl | cases h
  · rfl
  · exact holdsLabelOrTag_of_isAssertion h

end Kind

-- The variables that a target of an assignment assigns. The object whose property is assigned is not
-- among them.
mutual

def Node.targets : Node → List Ident
  | .mk (.ident i) _ => [i]
  | .mk (.form k _ _) es => targetsOfEdges k es
  | _ => []

def targetsOfEdges (k : Kind) : List Edge → List Ident
  | [] => []
  | (f, n) :: es => (if k.writesThrough f then n.targets else []) ++ targetsOfEdges k es

end

-- The variables that a tree assigns, at any depth, once for each time that it does.
mutual

def Node.written : Node → List Ident
  | .mk l es => if l.kind?.any Kind.holdsNoReference then [] else writtenOfEdges l.kind? es

def writtenOfEdges (k : Option Kind) : List Edge → List Ident
  | [] => []
  | (f, n) :: es =>
    (if k.any (·.holdsLabelOrTag f n) then []
      else (if k.any (·.writes f) then n.targets else []) ++ n.written) ++ writtenOfEdges k es

end

-- The variables that a function assigns.
def Node.writes (n : Node) : List Ident := n.functionParts.flatMap written

theorem mem_targetsOfEdges {k : Kind} {es : List Edge} {i : Ident} :
    i ∈ targetsOfEdges k es ↔ ∃ e ∈ es, k.writesThrough e.1 = true ∧ i ∈ e.2.targets := by
  induction es
  case nil => simp [targetsOfEdges]
  case cons e es hi =>
    simp only [targetsOfEdges, mem_append, hi]
    split <;> simp_all

theorem mem_writtenOfEdges {k : Option Kind} {es : List Edge} {i : Ident} :
    i ∈ writtenOfEdges k es ↔ ∃ e ∈ es, k.any (·.holdsLabelOrTag e.1 e.2) = false ∧
      (k.any (·.writes e.1) = true ∧ i ∈ e.2.targets ∨ i ∈ e.2.written) := by
  induction es
  case nil => simp [writtenOfEdges]
  case cons e es hi =>
    simp only [writtenOfEdges, mem_append, hi, mem_cons, exists_eq_or_imp]
    refine or_congr ?_ .rfl
    split
    case isTrue hl  => simp [hl]
    case isFalse hl =>
      rw [mem_append, mem_ite_nil_right, Bool.not_eq_true _ |>.mp hl]
      exact (and_iff_right rfl).symm

-- A call assigns nothing itself.
theorem writtenOfEdges_call (es : List Edge) :
    writtenOfEdges (some .callExpression) es = es.flatMap (·.2.written) := by
  induction es
  case nil => rfl
  case cons e es hi => simp [writtenOfEdges, Kind.holdsLabelOrTag, Kind.writes, hi]

namespace Node

variable {n : Node} {i j : Ident}

-- What is assigned occurs as a variable.

theorem targets_subset_occurrences (n : Node) : n.targets ⊆ n.occurrences := by
  intro i hi
  induction n using partsInduction
  case step l es hes =>
    cases l
    case ident j =>
      have heq : i = j := mem_singleton.mp hi
      exact mem_occurrences_mk.mpr ⟨rfl, .inl <| heq ▸ rfl⟩
    case form k span as =>
      have ⟨e, he, hk, hi⟩ := mem_targetsOfEdges.mp hi
      refine mem_occurrences_mk.mpr ⟨Kind.holdsNoReference_of_writesThrough hk, .inr ?_⟩
      refine mem_occurrencesOfEdges.mpr ⟨e, he, ?_⟩
      simpa [occurrencesOfEdges, Label.kind?, Kind.holdsLabelOrTag_of_writesThrough hk] using hes e he hi
    all_goals simp [targets] at hi

theorem written_subset_occurrences (n : Node) : n.written ⊆ n.occurrences := by
  intro i hi
  induction n using partsInduction
  case step l es hes =>
    simp only [written, mem_ite_nil_left, Bool.not_eq_true] at hi
    have ⟨hl, hi⟩ := hi
    have ⟨e, he, hlabel, hi⟩ := mem_writtenOfEdges.mp hi
    refine mem_occurrences_mk.mpr ⟨hl, .inr <| mem_occurrencesOfEdges.mpr ⟨e, he, ?_⟩⟩
    have hi : i ∈ e.2.occurrences := hi.elim (e.2.targets_subset_occurrences ·.2) (hes e he)
    simpa [occurrencesOfEdges, hlabel] using hi

theorem isFreeIn_congr (h : i.binding = j.binding) : n.isFreeIn i = n.isFreeIn j := by
  have hname : i.name = j.name := congrArg Prod.fst h
  simp only [isFreeIn, hname, h]

-- A captured variable is one that occurs, so of what a function assigns, it captures what is free in it.
theorem mem_captured_of_mem_writes (hi : i ∈ n.writes) : i ∈ n.captured ↔ n.isFreeIn i = true := by
  have ⟨m, hm, hi⟩ := mem_flatMap.mp hi
  exact mem_captured.trans <| and_iff_right ⟨m, hm, m.written_subset_occurrences hi⟩

-- What is made around the parts of a closure assigns nothing.

theorem written_form {k : Kind} {f : Field} (hk : k.holdsNoReference = false) (hw : k.writes f = false)
    (hl : k.holdsLabelOrTag f n = false) : (form k [] [(f, n)]).written = n.written := by
  simp [form, written, writtenOfEdges, Label.kind?, hk, hw, hl]

theorem written_parameter (n : Node) : (parameter n).written = n.written :=
  written_form rfl rfl rfl

theorem written_entry (n : Node) : (entry n).written = n.written :=
  written_form rfl rfl rfl

theorem written_returnBlock (n : Node) : (returnBlock n).written = n.written :=
  (written_form rfl rfl rfl).trans <| written_form rfl rfl rfl

end Node

namespace Hoisted

variable {h : Hoisted} {i : Ident} {dedupe : Bool} {root : Node}

theorem written_bodyBlock (n : Node) : (bodyBlock n).written = n.written := by
  unfold bodyBlock
  split
  case isTrue  => rfl
  case isFalse => exact n.written_returnBlock

theorem writes_declaration (h : Hoisted) : h.declaration.writes = h.arrow.writes := by
  have hparameters : (h.captured.map fun i => Node.parameter (.ofIdent i)).flatMap Node.written = [] := by
    simp [Node.written_parameter, Node.ofIdent, Node.written, writtenOfEdges]
  rw [Node.writes, Node.functionParts, at_params_declaration, at_body_declaration, Node.writes,
    Node.functionParts, flatMap_append, flatMap_append, hparameters, flatMap_append, nil_append]
  simp only [flatMap_map, Node.written_parameter, written_bodyBlock]

theorem written_call (h : Hoisted) (binder : String) : (h.call binder).written = [] := by
  have hident (i : Ident) : (Node.ofIdent i).written = [] := rfl
  have hthis : Node.this.written = [] := rfl
  have hcall : Kind.callExpression.holdsNoReference = false := rfl
  simp [call, Node.callAt, Node.written, Label.kind?, hcall, writtenOfEdges_call, Node.written_entry,
    Node.named, hident, hthis, flatMap_map]

end Hoisted

-- Rewriting makes no assignment. It keeps those that stand in none of the closures that it replaces.

section

variable {bs : List Binding}

theorem targetsOfEdges_eq_nil {k : Kind} (hk : ∀ f, k.writesThrough f = false) (es : List Edge) :
    targetsOfEdges k es = [] := by
  induction es
  case nil => rfl
  case cons e es hi => simp [targetsOfEdges, hk, hi]

theorem Node.targets_of_isClosure {n : Node} (hc : n.label.isClosure = true) : n.targets = [] := by
  cases n
  case mk l es =>
    cases l
    case form k s as =>
      have hk : k = .arrowFunctionExpression := Option.some.inj <| Label.kind?_of_isClosure hc
      exact hk ▸ targetsOfEdges_eq_nil (fun _ => rfl) es
    all_goals simp [label, Label.isClosure] at hc

mutual

theorem Rewrites.targets_eq {n n' : Node} : Rewrites bs n n' → n'.targets = n.targets
  | .keep (l := l) hes => by
    cases l
    case form k _ _ => exact hes.targets_eq k
    all_goals rfl
  | .bind .. => by
    simp only [Node.targets]
    rw [targetsOfEdges_eq_nil fun _ => rfl, targetsOfEdges_eq_nil fun _ => rfl]
  | .closure _ _ hc => by
    rw [Node.targets_of_isClosure hc]
    exact targetsOfEdges_eq_nil (fun _ => rfl) _

theorem RewritesEdges.targets_eq {es es' : List Edge} (k : Kind) :
    RewritesEdges bs es es' → targetsOfEdges k es' = targetsOfEdges k es
  | .nil => rfl
  | .cons hn hes => by simp only [targetsOfEdges, hn.targets_eq, hes.targets_eq k]

end

theorem Node.written_bindCall {s : Span} {as : List (String × Json)} {es rest : List Edge} {target : Node}
    (hp : bindParts? es = some (target, rest)) :
    (mk (.form .callExpression s as) es).written = target.written ++ rest.flatMap (·.2.written) := by
  obtain ⟨_, _, _, hes⟩ := bindParts?_eq_some_iff.mp hp
  have hcall : Kind.callExpression.holdsNoReference = false := rfl
  have hmember : Kind.memberExpression.holdsNoReference = false := rfl
  simp [hes, written, writtenOfEdges, writtenOfEdges_call, Label.kind?, Kind.holdsLabelOrTag, Kind.writes,
    hcall, hmember]

theorem Node.written_boundCall {s : Span} {as : List (String × Json)} {rest : List Edge} {target : Node}
    {binder : String} :
    (mk (.form .callExpression s as)
      ((.callee, named binder) :: (.arguments, entry target) :: rest)).written =
      target.written ++ rest.flatMap (·.2.written) := by
  have hcall : Kind.callExpression.holdsNoReference = false := rfl
  have hnamed : (named binder).written = [] := rfl
  rw [written]
  simp [Label.kind?, hcall, writtenOfEdges_call, hnamed, written_entry]

mutual

theorem Rewrites.written_sublist {n n' : Node} : Rewrites bs n n' → n'.written <+ n.written
  | .keep (l := l) hes => by
    simp only [Node.written]
    split
    case isTrue  => exact .slnil
    case isFalse => exact hes.written_sublist l.kind?
  | .bind _ hp htarget hrest => by
    rw [Node.written_bindCall hp, Node.written_boundCall, ← writtenOfEdges_call, ← writtenOfEdges_call]
    exact htarget.written_sublist.append <| hrest.written_sublist _
  | .closure _ _ _ => by
    rw [Hoisted.written_call]
    exact nil_sublist _

theorem RewritesEdges.written_sublist {es es' : List Edge} (k : Option Kind) :
    RewritesEdges bs es es' → writtenOfEdges k es' <+ writtenOfEdges k es
  | .nil => .slnil
  | .cons hn hes => by
    simp only [writtenOfEdges, hn.holdsLabelOrTag_eq, hn.targets_eq]
    refine Sublist.append ?_ <| hes.written_sublist k
    split
    case isTrue  => exact .slnil
    case isFalse => exact .append (.refl _) hn.written_sublist

end

theorem RewritesEdges.written_at_sublist {l : Label} {es es' : List Edge} (f : Field) :
    RewritesEdges bs es es' →
      ((Node.mk l es').at f).flatMap Node.written <+ ((Node.mk l es).at f).flatMap Node.written
  | .nil => .refl _
  | .cons hn hes => by
    rw [Node.at_cons, Node.at_cons]
    split
    case isTrue =>
      rw [flatMap_cons, flatMap_cons]
      exact hn.written_sublist.append <| hes.written_at_sublist f
    case isFalse => exact hes.written_at_sublist f

theorem Hoisted.writes_sublist (h : Hoisted) {d : Node} (hd : Rewrites bs h.declaration d) :
    d.writes <+ h.arrow.writes := by
  rw [← h.writes_declaration]
  rw [h.declaration_eq] at hd ⊢
  have ⟨es, heq, hes⟩ := hd.keep_of_not_isSite rfl
  subst heq
  simp only [Node.writes, Node.functionParts, flatMap_append]
  exact (hes.written_at_sublist _).append (hes.written_at_sublist _)

end

namespace Hoisted

variable {h : Hoisted} {i : Ident} {dedupe : Bool} {root : Node}

-- What a hoisted function assigns to the variables that were taken along. These are parameters of the
-- function, so the assignment does not reach the variables.
def lostWrites (h : Hoisted) : List Ident :=
  h.declaration.writes.filter fun w => (h.captured.map Ident.binding).contains w.binding

-- The assignments of a closure that is hoisted.
structure CarriesWrites (h : Hoisted) : Prop where
  -- They are the assignments of the function that is declared.
  carried : h.declaration.writes = h.arrow.writes
  -- Lost are all those, and only those, to what the closure does not declare itself,
  lost    : h.lostWrites = h.arrow.writes.filter h.arrow.isFreeIn
  -- which are the variables that are declared outside.
  outside : ∀ strict, h.arrow.ResolvedBy strict → h.arrow.TagsAreBare →
    (∀ i ∈ h.arrow.captured, ¬ h.arrow.DeclaresTyped strict i) →
    h.lostWrites = h.arrow.writes.filter (· ∈ h.arrow.freeVariables Label.unranked strict)

theorem LiftedFrom.contains_binding_iff (lifted : h.LiftedFrom dedupe root) (hi : i ∈ h.arrow.writes) :
    (h.captured.map Ident.binding).contains i.binding = h.arrow.isFreeIn i := by
  rw [Bool.eq_iff_iff, contains_iff_mem, mem_map, ← Node.mem_captured_of_mem_writes hi]
  constructor
  case mp =>
    intro ⟨j, hj, hb⟩
    have ⟨_, hf⟩ := Node.mem_captured.mp <| lifted.captured_subset hj
    rwa [Node.mem_captured_of_mem_writes hi, ← Node.isFreeIn_congr hb]
  case mpr => exact lifted.exists_mem_captured

theorem LiftedFrom.carries (lifted : h.LiftedFrom dedupe root) : h.CarriesWrites := by
  have hlost : h.lostWrites = h.arrow.writes.filter h.arrow.isFreeIn := by
    rw [lostWrites, writes_declaration]
    exact filter_congr fun _ => lifted.contains_binding_iff
  refine ⟨h.writes_declaration, hlost, fun strict hr hbare hu => hlost.trans ?_⟩
  refine filter_congr fun w hw => ?_
  rw [Bool.eq_iff_iff, decide_eq_true_iff, ← Node.mem_captured_of_mem_writes hw, hr.mem_captured_iff hbare]
  exact or_iff_left fun h => hu w h.1 h.2

end Hoisted

namespace Program

-- What becomes of assignments in closures.
structure CarriesWrites (p : Program) (c : Config) : Prop where
  -- Every closure that is hoisted carries its assignments along, whatever they assign.
  closures : ∀ b ∈ p.bindings c.dedupeCaptures, ∀ h ∈ b.hoisted, h.CarriesWrites
  -- In a result one item declares the closure. It assigns no more, and no less but for the closures in it
  -- that are hoisted in their turn.
  items    : ∀ b ∈ p.bindings c.dedupeCaptures, ∀ h ∈ b.hoisted,
    ∃ d, (p.memoize c).program.body.filter (·.introduced? == some h.name) = [d] ∧
      Rewrites (p.bindings c.dedupeCaptures) h.declaration d ∧ d.writes <+ h.arrow.writes

theorem carriesWrites (p : Program) (c : Config) : p.CarriesWrites c where
  closures b hb h hh := by
    have ⟨⟨root, _, lifted⟩, _⟩ := exists_declared hb hh
    exact lifted.carries
  items b hb h hh := by
    have ⟨_, names, hbs, hitem⟩ := exists_declared hb hh
    have hrewrites := h.declaration.visit_rewrites c.dedupeCaptures names hbs
    exact ⟨_, hitem, hrewrites, h.writes_sublist hrewrites⟩

-- `function A() { let n = 0; return <a onClick={() => { n = n + 1; }}/>; }`
def counting : Program where
  kind := .script
  body :=
    let n : Node := .ofIdent { name := "n", scope := 2 }
    let count : Node := .form .assignmentExpression [("operator", .str "=")] [(.left, n),
      (.right, .form .binaryExpression [("operator", .str "+")] [(.left, n), (.right, .numericLiteral 1)])]
    let handler : Node := .arrow [] <| .form .blockStatement []
      [(.stmts, .form .expressionStatement [] [(.expression, count)])]
    let element : Node := .form .jsxElement [] [(.opening, .form .jsxOpeningElement [] [(.name, .named "a"),
      (.attributes, .form .jsxAttribute [] [(.name, .propertyName "onClick"),
        (.value, .form .jsxExpressionContainer [] [(.expression, handler)])])])]
    [.form .functionDeclaration [] [(.identifier, .named "A"), (.body, .form .blockStatement [] [
      (.stmts, .form .variableDeclaration [("kind", .str "let")] [(.declarations,
        .form .variableDeclarator [] [(.id, n), (.init, .numericLiteral 0)])]),
      (.stmts, .form .returnStatement [] [(.argument, element)])])]]

-- A closure is hoisted though it assigns a variable that it takes along.
theorem not_unassigned_counting :
    ¬ ∀ b ∈ counting.bindings Config.default.dedupeCaptures, ∀ h ∈ b.hoisted,
      ∀ i ∈ h.captured, i ∉ h.arrow.writes := by
  decide +kernel

end Program

end RenderMemo
