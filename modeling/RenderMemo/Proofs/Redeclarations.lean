import RenderMemo.Proofs.Eclipsed
import RenderMemo.Proofs.LeadingParameters

open List

namespace RenderMemo

namespace Node

-- What the declarators in a place of a statement declare.
def declaratorNames (f : Field) (stmt : Node) : List Ident :=
  ((stmt.at f).filter (·.isKind .variableDeclarator)).flatMap fun d => (d.at .id).flatMap bound

-- What a statement declares for the block in which it stands. At the top level of a function, functions
-- are declared like variables.
def lexicallyBound (stmt : Node) : List Ident :=
  match stmt.kind? with
  | some .classDeclaration    => (stmt.at .identifier).flatMap bound
  | some .usingDeclaration    => stmt.declaratorNames .decls
  | some .variableDeclaration => if stmt.label.isVar then [] else stmt.declaratorNames .declarations
  | _                         => []

-- What a block declares for itself. An expression that stands in place of a block declares nothing.
def blockNames (b : Node) : List Ident :=
  if b.isKind .blockStatement then (b.at .stmts).flatMap lexicallyBound else []

-- The names that are declared with `let`, with `const`, with `using` or as classes at the top level of
-- the body of a function.
def lexicalNames (n : Node) : List String :=
  ((n.at .body).flatMap blockNames).map Ident.name

variable {rank : Label → Field → Nat} {strict : List Nat → Bool} {σ : Surroundings} {n m : Node}
  {f : Field} {i : Ident}

-- What stands in a place of a node stands in the node.
theorem exists_spot_of_mem_at {p : Spot → Prop} (hm : m ∈ n.at f)
    (h : ∀ j, ∃ s ∈ m.spots rank strict (σ.enter strict n.label j f), p s) :
    ∃ s ∈ n.spots rank strict σ, p s := by
  have ⟨j, hj⟩ := List.mem_iff_getElem?.mp <| mem_at.mp hm
  have ⟨s, hs, hp⟩ := h j
  cases n
  case mk l es => exact ⟨s, mem_spots_mk.mpr <| .inr ⟨j, _, hj, hs⟩, hp⟩

theorem sights_enter_of_opens {l : Label} {j : Nat} {k : Kind} (hk : l.kind? = some k)
    (hopens : k.opens f σ.parent = []) : (σ.enter strict l j f).sights = σ.sights := by
  simp [Surroundings.enter, hk, hopens]

theorem exists_spot_of_mem_declared_at {d : Declaration} {k : Kind} (hm : m ∈ n.at f) (hi : i ∈ m.bound)
    (hk : n.kind? = some k) (hd : k.declaration? f (strict σ.place) σ.parent = some d)
    (hopens : k.opens f σ.parent = []) :
    ∃ s ∈ n.spots rank strict σ, s.ident = i ∧ s.declares = some d ∧ s.sights = σ.sights := by
  refine exists_spot_of_mem_at hm fun j => ?_
  have hsights : (σ.enter strict n.label j f).sights = σ.sights := sights_enter_of_opens hk hopens
  rw [← hsights]
  exact exists_spot_of_mem_bound hi <|
    Surroundings.role_enter.mpr ⟨k, hk, Kind.role_eq_declares_iff.mpr <| .inl hd⟩

theorem exists_spot_of_mem_declaratorNames {k : Kind} (hi : i ∈ n.declaratorNames f)
    (hvar : n.label.isVar = false) (hk : n.kind? = some k) (hopens : k.opens f σ.parent = []) :
    ∃ s ∈ n.spots rank strict σ, s.ident = i ∧ s.declares = some .lexical ∧ s.sights = σ.sights := by
  simp only [declaratorNames, mem_flatMap, mem_filter, isKind, beq_iff_eq] at hi
  have ⟨d, ⟨hd, hkind⟩, m, hm, hi⟩ := hi
  refine exists_spot_of_mem_at hd fun j => ?_
  have hsights : (σ.enter strict n.label j f).sights = σ.sights := sights_enter_of_opens hk hopens
  rw [← hsights]
  refine exists_spot_of_mem_declared_at hm hi hkind ?_ rfl
  simp [Kind.declaration?, Surroundings.enter, hvar]

-- What a statement declares for its block belongs to the scopes in which the statement stands.
theorem exists_spot_of_mem_lexicallyBound (hi : i ∈ n.lexicallyBound) :
    ∃ s ∈ n.spots rank strict σ, s.ident = i ∧ s.declares = some .lexical ∧ s.sights = σ.sights := by
  unfold lexicallyBound at hi
  split at hi
  case h_1 hk =>
    have ⟨m, hm, hi⟩ := mem_flatMap.mp hi
    exact exists_spot_of_mem_declared_at hm hi hk rfl rfl
  case h_2 hk =>
    have hvar : n.label.isVar = false := by
      obtain ⟨l, es⟩ := n
      cases l <;> simp_all [kind?, label, Label.kind?, Label.isVar]
    exact exists_spot_of_mem_declaratorNames hi hvar hk rfl
  case h_3 hk =>
    split at hi
    case isTrue => simp at hi
    case isFalse hvar =>
      exact exists_spot_of_mem_declaratorNames hi (Bool.not_eq_true _ |>.mp hvar) hk rfl
  case h_4 => simp at hi

-- The scope of an arrow function, as it is seen from the body.
def bodySight : Sight := ⟨⟨[], true⟩, false⟩

theorem exists_declared_lexical {name : String} (h : name ∈ n.lexicalNames) :
    ⟨name, ⟨[], true⟩, false⟩ ∈ n.declarations strict := by
  simp only [lexicalNames, blockNames, mem_map, mem_flatMap, mem_ite_nil_right, isKind, beq_iff_eq] at h
  obtain ⟨i, ⟨b, hb, hkind, stmt, hstmt, hi⟩, hname⟩ := h
  obtain ⟨s, hs, his, hd, hsights⟩ : ∃ s ∈ n.spotsInside Label.unranked strict,
      s.ident = i ∧ s.declares = some .lexical ∧ s.sights = [bodySight] := by
    refine exists_spot_of_mem_at (n.at_body_closure ▸ hb) fun j => exists_spot_of_mem_at hstmt fun j' => ?_
    -- The block of a function body opens no scope beside that of the function.
    let σ := Surroundings.enter strict ⟨[], .refers, false, .hole, []⟩ n.closure.label j .body
    have hsights : (σ.enter strict b.label j' .stmts).sights = [bodySight] := sights_enter_of_opens hkind rfl
    exact hsights ▸ exists_spot_of_mem_lexicallyBound hi
  refine mem_declarations.mpr ⟨s, hs, _, hd, ?_, his ▸ hname.symm, rfl⟩
  rw [Spot.home, hsights]
  rfl

theorem exists_spot_of_mem_body (hm : m ∈ n.at .body) (hi : i ∈ m.occurrences) :
    ∃ s ∈ n.spotsInside rank strict, s.ident = i ∧ bodySight ∈ s.sights := by
  refine exists_spot_of_mem_at (n.at_body_closure ▸ hm) fun j => ?_
  let σ := Surroundings.enter strict ⟨[], .refers, false, .hole, []⟩ n.closure.label j .body
  have hears : σ.Hears m.label := Surroundings.hears_enter rfl rfl rfl
  have ⟨s, hs, his⟩ : ∃ s ∈ m.spots rank strict σ, s.ident = i := exists_spot_of_mem_occurrences hears hi
  exact ⟨s, hs, his, (sights_suffix hs).subset mem_cons_self⟩

-- What refers from the body to a name that the body declares stands for no variable from outside.
theorem scopeOf_ne_none_of_lexical {s : Spot} (hv : bodySight ∈ s.sights) (hd : s.declares = none)
    (h : s.ident.name ∈ n.lexicalNames) : n.scopeOf strict s ≠ none := by
  simp only [scopeOf_of_refers hd, ne_eq, Option.map_eq_none_iff, List.find?_eq_none]
  intro hnone
  apply hnone _ hv
  exact List.any_eq_true.mpr ⟨_, exists_declared_lexical h, by simp [Sight.shows, bodySight]⟩

end Node

-- Only default values ask from outside for a name that the body declares, unless it is declared in the
-- closure in one of the ways of TypeScript.
theorem Node.ResolvedBy.mem_params_or_declaresTyped {strict : List Nat → Bool} {n : Node} {i : Ident}
    (hr : n.ResolvedBy strict) (hi : i ∈ n.captured) (h : i.name ∈ n.lexicalNames) :
    (∃ m ∈ n.at .params, i ∈ m.occurrences) ∨ n.DeclaresTyped strict i := by
  have ⟨⟨m, hm, hoccurs⟩, hf⟩ := mem_captured.mp hi
  cases mem_append.mp hm
  case inl hm => exact .inl ⟨m, hm, hoccurs⟩
  case inr hm =>
    have ⟨s, hs, his, hv⟩ : ∃ s ∈ n.spotsInside Label.unranked strict, s.ident = i ∧ bodySight ∈ s.sights :=
      exists_spot_of_mem_body hm hoccurs
    subst his
    refine (hr.outside_or_declaresTyped hs hf).imp_left fun hout => ?_
    exact absurd hout.2 <| scopeOf_ne_none_of_lexical hv hout.1 h

namespace Hoisted

variable {strict : List Nat → Bool} {dedupe : Bool} {root : Node} {h : Hoisted}

-- The body of a declaration declares what the body of the closure declares.
theorem lexicalNames_declaration (h : Hoisted) : h.declaration.lexicalNames = h.arrow.lexicalNames := by
  have hblock (m : Node) : (bodyBlock m).blockNames = m.blockNames := by
    unfold bodyBlock
    split
    case isTrue => rfl
    case isFalse hm =>
      rw [Node.blockNames, Node.blockNames, if_neg hm]
      rfl
  rw [Node.lexicalNames, at_body_declaration, flatMap_map, Node.lexicalNames]
  simp only [hblock]

-- The names that a hoisted closure declares at the top level of its body, beside those of its parameters.
structure Redeclarations (strict : List Nat → Bool) (h : Hoisted) : Prop where
  body     : h.declaration.lexicalNames = h.arrow.lexicalNames
  -- Variables that are taken along clash with the body only if they are asked for by a default value, or
  -- declared in the closure in one of the ways of TypeScript.
  captured : ∀ i ∈ h.captured, i.name ∈ h.arrow.lexicalNames →
    (∃ m ∈ h.arrow.at .params, i ∈ m.occurrences) ∨ h.arrow.DeclaresTyped strict i
  -- If the parameters of the closure do not clash, then nothing else makes those of the declaration clash.
  disjoint : Disjoint h.arrow.parameterNames h.arrow.lexicalNames →
    (Disjoint (h.declaration.parameterBindings.map Ident.name) h.declaration.lexicalNames ↔
      ∀ i ∈ h.arrow.captured, i.name ∉ h.arrow.lexicalNames)
  untyped  : Disjoint h.arrow.parameterNames h.arrow.lexicalNames →
    (∀ i ∈ h.arrow.captured, ¬ h.arrow.DeclaresTyped strict i) →
    (Disjoint (h.declaration.parameterBindings.map Ident.name) h.declaration.lexicalNames ↔
      ∀ m ∈ h.arrow.at .params, ∀ i ∈ m.occurrences, h.arrow.isFreeIn i → i.name ∉ h.arrow.lexicalNames)

theorem redeclarations (lifted : h.LiftedFrom dedupe root) (hr : h.arrow.ResolvedBy strict) :
    h.Redeclarations strict := by
  have hdisjoint (hown : Disjoint h.arrow.parameterNames h.arrow.lexicalNames) :
      Disjoint (h.declaration.parameterBindings.map Ident.name) h.declaration.lexicalNames ↔
        ∀ i ∈ h.arrow.captured, i.name ∉ h.arrow.lexicalNames := by
    rw [h.parameterBindings_declaration, h.lexicalNames_declaration, map_append, disjoint_append_left]
    refine (and_iff_left hown).trans ?_
    simp only [List.Disjoint, lifted.mem_names_iff, forall_mem_map]
  exact {
    body := h.lexicalNames_declaration
    captured i hi := hr.mem_params_or_declaresTyped (lifted.captured_subset hi)
    disjoint := hdisjoint
    untyped hown hu := by
      rw [hdisjoint hown]
      constructor
      case mp =>
        intro hclash m hm i hi hf
        exact hclash i <| Node.mem_captured.mpr ⟨⟨m, mem_append_left _ hm, hi⟩, hf⟩
      case mpr =>
        intro hclash i hi hname
        have ⟨m, hm, hoccurs⟩ := (hr.mem_params_or_declaresTyped hi hname).resolve_right (hu i hi)
        have ⟨_, hf⟩ := Node.mem_captured.mp hi
        exact hclash m hm i hoccurs hf hname }

-- `(a = x) => { let b = 1; return f(a, b); }`
def blockClosure : Node :=
  let ident (name : String) (scope : Nat) : Node := .ofIdent { name, scope }
  .arrow [.form .assignmentPattern [] [(.left, ident "a" 2), (.right, ident "x" 1)]] <|
    .form .blockStatement [] [
      (.stmts, .form .variableDeclaration [("kind", .str "let")] [(.declarations,
        .form .variableDeclarator [] [(.id, ident "b" 2), (.init, .numericLiteral 1)])]),
      (.stmts, .form .returnStatement [] [(.argument,
        .call (ident "f" 1) [.entry (ident "a" 2), .entry (ident "b" 2)])])]

theorem redeclarations_blockClosure :
    (distinctly blockClosure).LiftedFrom true blockClosure ∧ blockClosure.ResolvedBy (fun _ => true) ∧
      (distinctly blockClosure).Redeclarations (fun _ => true) ∧ blockClosure.lexicalNames = ["b"] ∧
      (distinctly blockClosure).declaration.parameterBindings.map Ident.name = ["x", "f", "a"] :=
  have lifted : (distinctly blockClosure).LiftedFrom true blockClosure := ⟨Node.mem_subtrees_self _, rfl, rfl⟩
  have hresolved : blockClosure.ResolvedBy fun _ => true := by decide +kernel
  ⟨lifted, hresolved, redeclarations lifted hresolved, by decide +kernel, by decide +kernel⟩

-- `(a = x) => { const x = 1; return a + x; }`
def shadowingClosure : Node :=
  let ident (name : String) (scope : Nat) : Node := .ofIdent { name, scope }
  .arrow [.form .assignmentPattern [] [(.left, ident "a" 2), (.right, ident "x" 1)]] <|
    .form .blockStatement [] [
      (.stmts, .form .variableDeclaration [("kind", .str "const")] [(.declarations,
        .form .variableDeclarator [] [(.id, ident "x" 2), (.init, .numericLiteral 1)])]),
      (.stmts, .form .returnStatement [] [(.argument, .form .binaryExpression [("operator", .str "+")]
        [(.left, ident "a" 2), (.right, ident "x" 2)])])]

-- The body may declare a name for itself that stands for another variable in a default value.
theorem not_disjoint_shadowing :
    shadowingClosure.IsPlain ∧ shadowingClosure.ResolvedBy (fun _ => true) ∧
      Disjoint shadowingClosure.parameterNames shadowingClosure.lexicalNames ∧
      ¬ Disjoint ((distinctly shadowingClosure).declaration.parameterBindings.map Ident.name)
        (distinctly shadowingClosure).declaration.lexicalNames := by
  have hparams : shadowingClosure.parameterNames = ["a"] := by decide +kernel
  have hlexical : shadowingClosure.lexicalNames = ["x"] := by decide +kernel
  have hbindings :
      (distinctly shadowingClosure).declaration.parameterBindings.map Ident.name = ["x", "a"] := by
    decide +kernel
  refine ⟨by decide +kernel, by decide +kernel, ?_, ?_⟩
  · simp [hparams, hlexical]
  · rw [hbindings, lexicalNames_declaration]
    simp [distinctly, hlexical]

end Hoisted

end RenderMemo
