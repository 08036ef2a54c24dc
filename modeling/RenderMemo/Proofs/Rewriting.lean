import RenderMemo.Proofs.Visits

namespace RenderMemo

theorem bindParts?_eq_some_iff {es rest : List Edge} {target : Node} :
    bindParts? es = some (target, rest) ↔
      ∃ s as ps, es = (.callee, .mk (.form .memberExpression s as)
        [(.object, target), (.property, .mk (.name "bind" ps) [])]) :: rest := by
  constructor
  case mp =>
    intro h
    unfold bindParts? at h
    split at h
    case h_1 =>
      simp only [Option.some.injEq, Prod.mk.injEq] at h
      obtain ⟨rfl, rfl⟩ := h
      exact ⟨_, _, _, rfl⟩
    case h_2 => simp at h
  case mpr =>
    rintro ⟨s, as, ps, rfl⟩
    rfl

-- What a tree may become in a run that makes the given bindings: some of its bind calls go through
-- binders, some of its closures are replaced by the calls that stand for them, and everything else
-- stays as and where it is.
mutual

inductive Rewrites (bs : List Binding) : Node → Node → Prop
  | keep {l : Label} {es es' : List Edge} :
      RewritesEdges bs es es' → Rewrites bs (.mk l es) (.mk l es')
  | bind {b : Binding} {s : Span} {as : List (String × Json)} {es rest rest' : List Edge}
      {target target' : Node} :
      b ∈ bs → bindParts? es = some (target, rest) → Rewrites bs target target' →
      RewritesEdges bs rest rest' →
      Rewrites bs (.mk (.form .callExpression s as) es)
        (.mk (.form .callExpression s as)
          ((.callee, .named b.binder) :: (.arguments, .entry target') :: rest'))
  | closure {b : Binding} {h : Hoisted} :
      b ∈ bs → h ∈ b.hoisted → h.arrow.label.isClosure = true → Rewrites bs h.arrow (h.call b.binder)

inductive RewritesEdges (bs : List Binding) : List Edge → List Edge → Prop
  | nil : RewritesEdges bs [] []
  | cons {f : Field} {n n' : Node} {es es' : List Edge} :
      Rewrites bs n n' → RewritesEdges bs es es' →
      RewritesEdges bs ((f, n) :: es) ((f, n') :: es')

end

variable {bs : List Binding} {n n' : Node} {l l' : Label} {es es' : List Edge}

mutual

theorem Rewrites.refl : ∀ n : Node, Rewrites bs n n
  | .mk _ es => .keep (RewritesEdges.refl es)

theorem RewritesEdges.refl : ∀ es : List Edge, RewritesEdges bs es es
  | [] => .nil
  | (_, n) :: es => .cons (Rewrites.refl n) (RewritesEdges.refl es)

end

namespace Rewrites

-- A node that was made by a rewriting and is no call was not made by it.
theorem keep_of_not_call (h : Rewrites bs n (.mk l es')) (hl : l.kind? ≠ some .callExpression) :
    ∃ es, n = .mk l es ∧ RewritesEdges bs es es' := by
  generalize hn : Node.mk l es' = n' at h
  cases h
  case keep hes =>
    cases hn
    exact ⟨_, rfl, hes⟩
  case bind =>
    cases hn
    exact absurd rfl hl
  case closure =>
    cases hn
    exact absurd rfl hl

-- A node that is no site keeps its label, and its parts are rewritten one by one.
theorem keep_of_not_isSite (h : Rewrites bs (.mk l es) n') (hs : (Node.mk l es).isSite = false) :
    ∃ es', n' = .mk l es' ∧ RewritesEdges bs es es' := by
  have ⟨hl, hb⟩ := Node.isSite_eq_false_iff.mp hs
  generalize hn : Node.mk l es = n at h
  cases h
  case keep hes =>
    cases hn
    exact ⟨_, rfl, hes⟩
  case bind hp _ _ =>
    cases hn
    simp [Node.isBindCall, hp] at hb
  case closure hc =>
    rw [← hn] at hc
    exact absurd hc (hl ▸ Bool.false_ne_true)

-- The declaration of a closure keeps its name.
theorem of_declaration {h : Hoisted} (hr : Rewrites bs h.declaration n) :
    ∃ es, n = .mk h.declarationLabel ((.identifier, .named h.name) :: es) ∧
      RewritesEdges bs h.declaredEdges es := by
  rw [h.declaration_eq] at hr
  have ⟨_, hn, hes⟩ := hr.keep_of_not_isSite rfl
  cases hes
  case cons hname hes =>
    have ⟨_, hname, hnil⟩ := hname.keep_of_not_isSite rfl
    subst hname
    cases hnil
    exact ⟨_, hn, hes⟩

end Rewrites

-- Parts that are rewritten correspond to each other, place by place.
namespace RewritesEdges

theorem exists_of_cons {e : Edge} (h : RewritesEdges bs (e :: es) es') :
    ∃ n' rest', es' = (e.1, n') :: rest' ∧ Rewrites bs e.2 n' ∧ RewritesEdges bs es rest' := by
  cases h
  case cons hn hes => exact ⟨_, _, rfl, hn, hes⟩

theorem exists_rewritten {e : Edge} :
    ∀ {es es' : List Edge}, RewritesEdges bs es es' → e ∈ es → ∃ n', (e.1, n') ∈ es' ∧ Rewrites bs e.2 n'
  | _, _, .nil, he => by simp at he
  | _, _, .cons hn hes, he => by
    cases List.mem_cons.mp he
    case inl heq => exact heq ▸ ⟨_, List.mem_cons_self, hn⟩
    case inr he =>
      have ⟨n', hn', hr⟩ := hes.exists_rewritten he
      exact ⟨n', List.mem_cons_of_mem _ hn', hr⟩

theorem exists_original {e' : Edge} :
    ∀ {es es' : List Edge}, RewritesEdges bs es es' → e' ∈ es' → ∃ n, (e'.1, n) ∈ es ∧ Rewrites bs n e'.2
  | _, _, .nil, he => by simp at he
  | _, _, .cons hn hes, he => by
    cases List.mem_cons.mp he
    case inl heq => exact heq ▸ ⟨_, List.mem_cons_self, hn⟩
    case inr he =>
      have ⟨n, hn, hr⟩ := hes.exists_original he
      exact ⟨n, List.mem_cons_of_mem _ hn, hr⟩

theorem exists_of_mem_at {f : Field} {n' : Node} (h : RewritesEdges bs es es')
    (hn : n' ∈ (Node.mk l es').at f) : ∃ n ∈ (Node.mk l es).at f, Rewrites bs n n' := by
  have ⟨n, hn, hr⟩ := h.exists_original (Node.mem_at.mp hn)
  exact ⟨n, Node.mem_at.mpr hn, hr⟩

end RewritesEdges

-- What goes through a binder after its parts were rewritten is a bind call before that.
theorem RewritesEdges.bindParts? {rest' : List Edge} {target' : Node} (h : RewritesEdges bs es es')
    (hp : bindParts? es' = some (target', rest')) :
    ∃ target rest, bindParts? es = some (target, rest) ∧ Rewrites bs target target' ∧
      RewritesEdges bs rest rest' := by
  obtain ⟨_, _, _, hes'⟩ := bindParts?_eq_some_iff.mp hp
  subst hes'
  cases h
  case cons hcallee hrest =>
    obtain ⟨_, hn, hmember⟩ := hcallee.keep_of_not_call (by simp [Label.kind?])
    subst hn
    cases hmember
    case cons htarget hproperty =>
      cases hproperty
      case cons hproperty hnil =>
        obtain ⟨_, hn, hname⟩ := hproperty.keep_of_not_call (by simp [Label.kind?])
        subst hn
        cases hname
        cases hnil
        exact ⟨_, _, rfl, htarget, hrest⟩

theorem RewritesEdges.throughBinder {b : Binding} (hb : b ∈ bs) (h : RewritesEdges bs es es') :
    Rewrites bs (.mk l es) ((Node.mk l es').throughBinder b.binder) := by
  unfold Node.throughBinder
  split
  case h_1 s as es'' hn =>
    cases hn
    split
    case h_1 hp =>
      have ⟨_, _, hp, htarget, hrest⟩ := h.bindParts? hp
      exact .bind hb hp htarget hrest
    case h_2 => exact .keep h
  case h_2 => exact .keep h

-- To lead a tree through a binder is to rewrite it.
mutual

theorem Node.rebound_rewrites {b : Binding} (hb : b ∈ bs) :
    ∀ (n : Node) (hs : List Hoisted), hs ⊆ b.hoisted → hs.map Hoisted.arrow = n.closures →
      Rewrites bs n (n.rebound b.binder (hs.map (·.call b.binder)))
  | .mk l es, hs, hsub, hc => by
    simp only [Node.closures] at hc
    simp only [Node.rebound]
    split
    case isTrue hl =>
      rw [if_pos hl, List.map_eq_singleton_iff] at hc
      have ⟨h, hh, ha⟩ := hc
      subst hh
      have := Rewrites.closure hb (hsub List.mem_cons_self) (h := h) (by rwa [ha])
      rwa [ha] at this
    case isFalse hl =>
      rw [if_neg hl] at hc
      exact (reboundEdges_rewrites hb es hs hsub hc).throughBinder hb

theorem reboundEdges_rewrites {b : Binding} (hb : b ∈ bs) :
    ∀ (es : List Edge) (hs : List Hoisted), hs ⊆ b.hoisted →
      hs.map Hoisted.arrow = closuresOfEdges es →
      RewritesEdges bs es (reboundEdges b.binder es (hs.map (·.call b.binder)))
  | [], _, _, _ => .nil
  | (_, n) :: es, hs, hsub, hc => by
    have ⟨hs₁, hs₂, hhs, h₁, h₂⟩ := List.map_eq_append_iff.mp hc
    subst hhs
    have ⟨hsub₁, hsub₂⟩ := List.append_subset.mp hsub
    have hlen : n.closures.length = (hs₁.map (·.call b.binder)).length := by simp [← h₁]
    simp only [reboundEdges, List.map_append, hlen, List.take_left, List.drop_left]
    exact .cons (Node.rebound_rewrites hb n hs₁ hsub₁ h₁) (reboundEdges_rewrites hb es hs₂ hsub₂ h₂)

end

-- A visit rewrites the tree that is visited. A body goes through a binder among the bindings, or it
-- has no site and stays the same.
mutual

theorem Node.visit_rewrites (dedupe : Bool) :
    ∀ (n : Node) (names : Names), (n.visit dedupe names).bindings ⊆ bs →
      Rewrites bs n (n.visit dedupe names).result
  | .mk l es, names, hbs => by
    cases hr : (Node.mk l es).isRenderWithBody
    case false =>
      rw [Node.visit_of_not_isRenderWithBody hr] at hbs ⊢
      exact .keep (visitEdges_rewrites dedupe es names hbs)
    case true =>
      rw [Node.visit_of_isRenderWithBody hr] at hbs ⊢
      simp only at hbs ⊢
      split at hbs
      case isTrue =>
        have ⟨hb, hbs⟩ := List.cons_subset.mp hbs
        exact .keep <| visitBound_rewrites dedupe l es _ _ hbs (Node.map_arrow_binding ..) <|
          .inr ⟨_, hb, rfl, List.Subset.refl _⟩
      case isFalse hu =>
        exact .keep <| visitBound_rewrites dedupe l es _ _ hbs (Node.map_arrow_binding ..) <|
          .inl <| (Node.isUsed_binding_eq_false_iff ..).mp (by simpa using hu)

theorem visitEdges_rewrites (dedupe : Bool) :
    ∀ (es : List Edge) (names : Names), (visitEdges dedupe es names).bindings ⊆ bs →
      RewritesEdges bs es (visitEdges dedupe es names).result
  | [], _, _ => .nil
  | (_, n) :: es, names, hbs => by
    have ⟨hn, hes⟩ := List.append_subset.mp hbs
    exact .cons (Node.visit_rewrites dedupe n _ hn) (visitEdges_rewrites dedupe es _ hes)

theorem visitBound_rewrites (dedupe : Bool) {binder : String} :
    ∀ (l : Label) (es : List Edge) (hs : List Hoisted) (names : Names),
      (visitBound dedupe binder es (hs.map (·.call binder)) names).bindings ⊆ bs →
      hs.map Hoisted.arrow = ((Node.mk l es).at .body).flatMap Node.closures →
      (∀ body ∈ (Node.mk l es).at .body, body.Siteless) ∨
        (∃ b ∈ bs, b.binder = binder ∧ hs ⊆ b.hoisted) →
      RewritesEdges bs es (visitBound dedupe binder es (hs.map (·.call binder)) names).result
  | _, [], _, _, _, _, _ => .nil
  | l, (f, n) :: es, hs, names, hbs, hc, hb => by
    simp only [visitBound] at hbs ⊢
    split at hbs
    case isTrue hf =>
      simp only [Node.at_cons, hf, if_true, List.flatMap_cons] at hc hb ⊢
      have ⟨hs₁, hs₂, hhs, h₁, h₂⟩ := List.map_eq_append_iff.mp hc
      subst hhs
      have hlen : n.closures.length = (hs₁.map (·.call binder)).length := by simp [← h₁]
      simp only [List.map_append, hlen, List.take_left, List.drop_left] at hbs ⊢
      cases hb
      case inl hs =>
        have ⟨hn, hes⟩ := List.forall_mem_cons.mp hs
        rw [Node.rebound_of_siteless _ _ n hn] at hbs ⊢
        exact .cons (.refl n) (visitBound_rewrites dedupe l es hs₂ _ hbs h₂ (.inl hes))
      case inr hused =>
        have ⟨b, hb, hbinder, hsub⟩ := hused
        subst hbinder
        have ⟨hsub₁, hsub₂⟩ := List.append_subset.mp hsub
        exact .cons (Node.rebound_rewrites hb n hs₁ hsub₁ h₁)
          (visitBound_rewrites dedupe l es hs₂ _ hbs h₂ (.inr ⟨b, hb, rfl, hsub₂⟩))
    case isFalse hf =>
      simp only [Node.at_cons, hf, if_false] at hc hb ⊢
      have ⟨hn, hes⟩ := List.append_subset.mp hbs
      exact .cons (Node.visit_rewrites dedupe n _ hn) (visitBound_rewrites dedupe l es hs _ hes hc hb)

end

end RenderMemo
