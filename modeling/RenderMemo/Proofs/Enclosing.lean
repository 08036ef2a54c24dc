import RenderMemo.Proofs.Detection

open List

namespace RenderMemo.Program

variable {p : Program} {v u : List Nat} {f : Node}

-- What is listed holds markup, and so does everything around it.
theorem holdsMarkup_of_mem_listed (h : v ++ u ∈ p.listed) (hf : p.root.reached? v = some f) : f.HoldsMarkup := by
  have ⟨n, hn, hk⟩ := mem_listed.mp h
  rw [Node.reached?_append, hf] at hn
  have ⟨_, hrenders⟩ := Node.isSome_renderKind?_iff.mp hk
  exact hrenders.holdsMarkup.of_mem_subtrees <| Node.mem_subtrees_of_reached? hn

theorem mem_listed_of_renders {k : RenderKind} (hf : p.root.reached? v = some f) (h : f.Renders k) :
    v ∈ p.listed :=
  mem_listed.mpr ⟨f, hf, Node.isSome_renderKind?_iff.mpr ⟨k, h⟩⟩

-- A function that is listed stands in front of those inside it.
theorem pair_sublist_listed (hu : u ≠ []) (hv : v ∈ p.listed) (h : v ++ u ∈ p.listed) :
    [v, v ++ u] <+ p.listed :=
  pair_sublist_of_lt p.pairwise_listed hv h <| lt_append_of_ne_nil v hu

-- An arrow function is listed for what is in its body, and for nothing else.
theorem mem_listed_of_arrow (hf : p.root.reached? v = some f) (hk : f.kind? = some .arrowFunctionExpression) :
    v ∈ p.listed ↔ ∃ body ∈ f.at .body, body.HoldsMarkup := by
  constructor
  case mp =>
    intro h
    have ⟨n, hn, hlisted⟩ := mem_listed.mp h
    cases hf.symm.trans hn
    have ⟨k, hrenders⟩ := Node.isSome_renderKind?_iff.mp hlisted
    cases hrenders with
    | method hfun _ _ _    => simp [hk] at hfun
    | declaration hfun _   => simp [hk] at hfun
    | expression hfun _    => simp [hk] at hfun
    | arrow _ hbody h      => exact ⟨_, hbody, h⟩
  case mpr => exact fun ⟨_, hbody, h⟩ => mem_listed_of_renders hf <| .arrow hk hbody h

-- How the functions around a listed function are listed.
structure Encloses (p : Program) : Prop where
  -- The entries stand in the order of the ways to the functions.
  entries : Forall₂ (fun w r => p.functionAt? w = some r) p.listed p.renderFunctions
  -- A function declaration, a function expression, and a method of the right name are listed in front of
  -- what is listed anywhere inside them.
  functions : ∀ v u f, v ++ u ∈ p.listed → u ≠ [] → p.root.reached? v = some f →
    f.kind? = some .functionDeclaration ∨ f.kind? = some .functionExpression → [v, v ++ u] <+ p.listed
  methods : ∀ v u f, v ++ u ∈ p.listed → u ≠ [] → p.root.reached? v = some f →
    f.kind? = some .classMethod ∨ f.kind? = some .methodProperty → (f.at .key).any Node.isRenderName = true →
      [v, v ++ u] <+ p.listed
  -- An arrow function is so if and only if there is markup in its body,
  arrows : ∀ v u f, v ++ u ∈ p.listed → u ≠ [] → p.root.reached? v = some f →
    f.kind? = some .arrowFunctionExpression →
      ([v, v ++ u] <+ p.listed ↔ ∃ body ∈ f.at .body, body.HoldsMarkup)
  -- as there is if the way to what is listed inside it leads through the body.
  bodies : ∀ v i u f e, v ++ i :: u ∈ p.listed → p.root.reached? v = some f →
    f.kind? = some .arrowFunctionExpression → f.edges[i]? = some e → e.1 = .body →
      [v, v ++ i :: u] <+ p.listed

theorem encloses (p : Program) : p.Encloses where
  entries := p.forall₂_listed
  functions v u f h hu hf hk := by
    have hmarkup := holdsMarkup_of_mem_listed h hf
    cases hk
    case inl hk => exact pair_sublist_listed hu (mem_listed_of_renders hf <| .declaration hk hmarkup) h
    case inr hk => exact pair_sublist_listed hu (mem_listed_of_renders hf <| .expression hk hmarkup) h
  methods v u f h hu hf hk hkey := by
    have ⟨_, hmem, hname⟩ := any_eq_true.mp hkey
    have hrenders : f.Renders .renderMethod := .method hk hmem hname <| holdsMarkup_of_mem_listed h hf
    exact pair_sublist_listed hu (mem_listed_of_renders hf hrenders) h
  arrows v u f h hu hf hk := by
    rw [← mem_listed_of_arrow hf hk]
    exact ⟨fun hpair => hpair.subset mem_cons_self, fun hv => pair_sublist_listed hu hv h⟩
  bodies v i u f e h hf hk he hbody := by
    refine pair_sublist_listed nofun ((mem_listed_of_arrow hf hk).mpr ?_) h
    refine ⟨e.2, Node.mem_at.mpr (hbody ▸ mem_of_getElem? he), ?_⟩
    have hreached : p.root.reached? (v ++ [i]) = some e.2 := by
      rw [Node.reached?_append, hf]
      simp [Node.reached?, he]
    exact holdsMarkup_of_mem_listed (u := u) (append_cons v i u ▸ h) hreached

-- `(r = () => <a/>) => r()`
def defaulting : Program where
  kind := .script
  body :=
    let element : Node := .form .jsxElement [] [(.opening, .form .jsxOpeningElement [] [(.name, .named "a")])]
    let parameter : Node := .form .assignmentPattern [] [(.left, .named "r"), (.right, .arrow [] element)]
    [.form .expressionStatement [] [(.expression, .arrow [parameter] (.call (.named "r") []))]]

-- The outer function is not listed, though the inner one is.
theorem not_listed_defaulting :
    ¬ ∀ v u, v ++ u ∈ defaulting.listed → u ≠ [] →
      (defaulting.root.reached? v).any (·.isKind .arrowFunctionExpression) = true → v ∈ defaulting.listed := by
  intro h
  have hlisted := h [0, 0] [0, 1] (by decide +kernel) (by decide) (by decide +kernel)
  exact absurd hlisted (by decide +kernel)

end RenderMemo.Program
