import Mathlib.Data.List.Perm.Basic
import RenderMemo.Proofs.Captures
import RenderMemo.Proofs.Rewriting

open List

namespace RenderMemo

-- What a binder is called for: in the place of a bind call, or in that of a closure.
inductive Use where
  | bindCall (b : Binding)
  | closure (b : Binding) (h : Hoisted)

-- The calls of a binder that a run makes.
def Binding.uses (b : Binding) : List Use :=
  replicate b.bindSites (.bindCall b) ++ b.hoisted.map (.closure b)

theorem Binding.uses_of_not_isUsed {b : Binding} (h : b.isUsed = false) : b.uses = [] := by
  simp only [isUsed, Bool.not_eq_false', Bool.and_eq_true, List.isEmpty_iff, beq_iff_eq] at h
  simp [uses, h]

def Use.binding : Use → Binding
  | bindCall b | closure b _ => b

theorem Binding.binding_of_mem_uses {b : Binding} {u : Use} (h : u ∈ b.uses) : u.binding = b := by
  simp only [uses, mem_append, mem_replicate, mem_map] at h
  cases h
  case inl h =>
    rw [h.2]
    rfl
  case inr h =>
    obtain ⟨_, _, heq⟩ := h
    exact heq ▸ rfl

-- How a tree is rewritten, call by call: every use stands for one call of a binder in the new tree, and
-- for one site of the old tree in its place.
mutual

inductive RewritesBy : List Use → Node → Node → Prop
  | keep {us : List Use} {l : Label} {es es' : List Edge} :
      RewritesEdgesBy us es es' → RewritesBy us (.mk l es) (.mk l es')
  | bind {us vs : List Use} {b : Binding} {s : Span} {as : List (String × Json)}
      {es rest rest' : List Edge} {target target' : Node} :
      bindParts? es = some (target, rest) → RewritesBy us target target' →
      RewritesEdgesBy vs rest rest' →
      RewritesBy (.bindCall b :: (us ++ vs)) (.mk (.form .callExpression s as) es)
        (.mk (.form .callExpression s as)
          ((.callee, .named b.binder) :: (.arguments, .entry target') :: rest'))
  | closure {b : Binding} {h : Hoisted} :
      h ∈ b.hoisted → h.arrow.label.isClosure = true →
      RewritesBy [.closure b h] h.arrow (h.call b.binder)

inductive RewritesEdgesBy : List Use → List Edge → List Edge → Prop
  | nil : RewritesEdgesBy [] [] []
  | cons {us vs : List Use} {f : Field} {n n' : Node} {es es' : List Edge} :
      RewritesBy us n n' → RewritesEdgesBy vs es es' →
      RewritesEdgesBy (us ++ vs) ((f, n) :: es) ((f, n') :: es')

end

-- Where every binding is among the given ones, nothing else is made of the tree.
mutual

theorem RewritesBy.rewrites {bs : List Binding} {us : List Use} {n n' : Node} :
    RewritesBy us n n' → us.map Use.binding ⊆ bs → Rewrites bs n n'
  | .keep hes, hbs => .keep (hes.rewrites hbs)
  | .closure hh hc, hbs => .closure (hbs mem_cons_self) hh hc
  | .bind hp htarget hrest, hbs => by
    simp only [map_cons, map_append, cons_subset, append_subset] at hbs
    have ⟨hb, hus, hvs⟩ := hbs
    exact .bind hb hp (htarget.rewrites hus) (hrest.rewrites hvs)

theorem RewritesEdgesBy.rewrites {bs : List Binding} {us : List Use} {es es' : List Edge} :
    RewritesEdgesBy us es es' → us.map Use.binding ⊆ bs → RewritesEdges bs es es'
  | .nil, _ => .nil
  | .cons hn hes, hbs => by
    simp only [map_append, append_subset] at hbs
    exact .cons (hn.rewrites hbs.1) (hes.rewrites hbs.2)

end

-- Where nothing is used, nothing is rewritten.
mutual

theorem RewritesBy.eq_of_nil {us : List Use} {n n' : Node} : RewritesBy us n n' → us = [] → n' = n
  | .keep hes, hus => by rw [hes.eq_of_nil hus]
  | .bind .., hus | .closure .., hus => nomatch hus

theorem RewritesEdgesBy.eq_of_nil {us : List Use} {es es' : List Edge} :
    RewritesEdgesBy us es es' → us = [] → es' = es
  | .nil, _ => rfl
  | .cons hn hes, hus => by
    have ⟨hus, hvs⟩ := append_eq_nil_iff.mp hus
    rw [hn.eq_of_nil hus, hes.eq_of_nil hvs]

end

section

variable {us : List Use} {n n' target : Node} {l : Label} {es es' rest : List Edge}

-- A node that is no site keeps its label, and its parts account for everything that is used.
theorem RewritesBy.keep_of_not_isSite (h : RewritesBy us (.mk l es) n')
    (hs : (Node.mk l es).isSite = false) : ∃ es', n' = .mk l es' ∧ RewritesEdgesBy us es es' := by
  have ⟨hl, hb⟩ := Node.isSite_eq_false_iff.mp hs
  generalize hn : Node.mk l es = n at h
  cases h
  case keep hes =>
    cases hn
    exact ⟨_, rfl, hes⟩
  case bind hp _ _ =>
    cases hn
    simp [Node.isBindCall, hp] at hb
  case closure hc =>
    rw [← hn] at hc
    exact absurd hc (hl ▸ Bool.false_ne_true)

theorem RewritesEdgesBy.exists_of_cons {e : Edge} (h : RewritesEdgesBy us (e :: es) es') :
    ∃ us₁ us₂ n' rest', us = us₁ ++ us₂ ∧ es' = (e.1, n') :: rest' ∧ RewritesBy us₁ e.2 n' ∧
      RewritesEdgesBy us₂ es rest' := by
  cases h
  case cons hn hes => exact ⟨_, _, _, _, rfl, rfl, hn, hes⟩

-- A bind call has the parts of a bind call after they were rewritten.
theorem RewritesEdgesBy.bindParts? (h : RewritesEdgesBy us es es')
    (hp : bindParts? es = some (target, rest)) :
    ∃ us₁ us₂ target' rest', us = us₁ ++ us₂ ∧ RewritesBy us₁ target target' ∧
      RewritesEdgesBy us₂ rest rest' ∧ RenderMemo.bindParts? es' = some (target', rest') := by
  obtain ⟨s, as, ps, heq⟩ := bindParts?_eq_some_iff.mp hp
  subst heq
  obtain ⟨us₁, us₂, _, rest', hus, hes', hcallee, hrest⟩ := h.exists_of_cons
  obtain ⟨_, hmember, hparts⟩ := hcallee.keep_of_not_isSite rfl
  obtain ⟨vs₁, vs₂, target', _, hvs, heq, htarget, hproperty⟩ := hparts.exists_of_cons
  obtain ⟨ws₁, ws₂, _, _, hws, heq', hname, hnil⟩ := hproperty.exists_of_cons
  obtain ⟨_, hname', hleaf⟩ := hname.keep_of_not_isSite rfl
  cases hnil
  cases hleaf
  subst hws hvs hus hname' heq' heq hmember hes'
  exact ⟨vs₁, us₂, target', rest', by simp, htarget, hrest, rfl⟩

-- To lead a call through a binder is to use the binder, if the call is a bind call.
theorem RewritesEdgesBy.throughBinder (b : Binding) (h : RewritesEdgesBy us es es') :
    RewritesBy (replicate (if (Node.mk l es).isBindCall then 1 else 0) (.bindCall b) ++ us)
      (.mk l es) ((Node.mk l es').throughBinder b.binder) := by
  cases hb : (Node.mk l es).isBindCall
  case false =>
    have hb' : (Node.mk l es').isBindCall = false := by
      rw [← Bool.not_eq_true, Node.isBindCall_mk] at hb ⊢
      refine fun ⟨hl, hp⟩ => hb ⟨hl, ?_⟩
      obtain ⟨⟨target', rest'⟩, hp⟩ := Option.isSome_iff_exists.mp hp
      obtain ⟨target, rest, hp, _⟩ := (h.rewrites (Subset.refl _)).bindParts? hp
      exact hp ▸ rfl
    rw [Node.throughBinder_of_not_isBindCall _ hb']
    exact .keep h
  case true =>
    obtain ⟨hl, hp⟩ := Node.isBindCall_mk.mp hb
    obtain ⟨⟨target, rest⟩, hp⟩ := Option.isSome_iff_exists.mp hp
    obtain ⟨us₁, us₂, target', rest', hus, htarget, hrest, hp'⟩ := h.bindParts? hp
    cases l
    case form k s as =>
      cases hl
      subst hus
      rw [if_pos rfl, replicate_one, singleton_append, Node.throughBinder, hp']
      exact .bind hp htarget hrest
    all_goals cases hl

end

-- To lead a tree through a binder is to use it once for every bind call and closure.
mutual

theorem Node.rebound_by {b : Binding} :
    ∀ (n : Node) (hs : List Hoisted), hs ⊆ b.hoisted → hs.map Hoisted.arrow = n.closures →
      ∃ us, RewritesBy us n (n.rebound b.binder (hs.map (·.call b.binder))) ∧
        us ~ replicate n.bindCalls (.bindCall b) ++ hs.map (.closure b)
  | .mk l es, hs, hsub, hc => by
    simp only [Node.closures] at hc
    simp only [Node.rebound, Node.bindCalls]
    split
    case isTrue hl =>
      rw [if_pos hl, map_eq_singleton_iff] at hc
      obtain ⟨h, hh, ha⟩ := hc
      subst hh
      have hused := RewritesBy.closure (hsub mem_cons_self) (h := h) (by rwa [ha])
      rw [ha] at hused
      exact ⟨_, hused, .refl _⟩
    case isFalse hl =>
      rw [if_neg hl] at hc
      obtain ⟨us, hes, hp⟩ := reboundEdges_by es hs hsub hc
      refine ⟨_, hes.throughBinder b, ?_⟩
      rw [replicate_add, append_assoc]
      exact hp.append_left _

theorem reboundEdges_by {b : Binding} :
    ∀ (es : List Edge) (hs : List Hoisted), hs ⊆ b.hoisted →
      hs.map Hoisted.arrow = closuresOfEdges es →
      ∃ us, RewritesEdgesBy us es (reboundEdges b.binder es (hs.map (·.call b.binder))) ∧
        us ~ replicate (bindCallsOfEdges es) (.bindCall b) ++ hs.map (.closure b)
  | [], hs, _, hc => by
    cases map_eq_nil_iff.mp hc
    exact ⟨[], .nil, .refl _⟩
  | (_, n) :: es, hs, hsub, hc => by
    obtain ⟨hs₁, hs₂, hhs, h₁, h₂⟩ := map_eq_append_iff.mp hc
    subst hhs
    obtain ⟨hsub₁, hsub₂⟩ := append_subset.mp hsub
    have hlen : n.closures.length = (hs₁.map (·.call b.binder)).length := by simp [← h₁]
    simp only [reboundEdges, bindCallsOfEdges, map_append, hlen, take_left, drop_left]
    obtain ⟨us₁, hn, hp₁⟩ := Node.rebound_by n hs₁ hsub₁ h₁
    obtain ⟨us₂, hes, hp₂⟩ := reboundEdges_by es hs₂ hsub₂ h₂
    refine ⟨us₁ ++ us₂, .cons hn hes, (hp₁.append hp₂).trans ?_⟩
    rw [replicate_add, append_assoc, append_assoc]
    exact .append_left _ <| perm_append_comm_assoc ..

end

-- A visit uses every binder that it makes for every one of its sites. A function whose binder is not
-- used has no site to use it for.
mutual

theorem Node.visit_by (dedupe : Bool) : ∀ (n : Node) (names : Names),
    ∃ us, RewritesBy us n (n.visit dedupe names).result ∧
      us ~ (n.visit dedupe names).bindings.flatMap Binding.uses
  | .mk l es, names => by
    cases hr : (Node.mk l es).isRenderWithBody
    case false =>
      rw [Node.visit_of_not_isRenderWithBody hr]
      obtain ⟨us, hes, hp⟩ := visitEdges_by dedupe es names
      exact ⟨us, .keep hes, hp⟩
    case true =>
      rw [Node.visit_of_isRenderWithBody hr]
      have ⟨us, hes, hp⟩ := visitBound_by dedupe l ((Node.mk l es).binding dedupe names) es
        ((Node.mk l es).binding dedupe names).hoisted ((Node.mk l es).namesOfBinding dedupe names)
        (Subset.refl _) (Node.map_arrow_binding ..)
      refine ⟨us, .keep hes, ?_⟩
      simp only
      split
      case isTrue => exact hp
      case isFalse hu =>
        have huses := Binding.uses_of_not_isUsed (by simpa using hu)
        exact hp.trans (.of_eq <| congrArg (· ++ _) huses)

theorem visitEdges_by (dedupe : Bool) : ∀ (es : List Edge) (names : Names),
    ∃ us, RewritesEdgesBy us es (visitEdges dedupe es names).result ∧
      us ~ (visitEdges dedupe es names).bindings.flatMap Binding.uses
  | [], _ => ⟨[], .nil, .refl _⟩
  | (_, n) :: es, names => by
    obtain ⟨us₁, hn, hp₁⟩ := Node.visit_by dedupe n names
    obtain ⟨us₂, hes, hp₂⟩ := visitEdges_by dedupe es (n.visit dedupe names).names
    refine ⟨us₁ ++ us₂, .cons hn hes, ?_⟩
    simpa [visitEdges] using hp₁.append hp₂

theorem visitBound_by (dedupe : Bool) : ∀ (l : Label) (b : Binding) (es : List Edge) (hs : List Hoisted)
    (names : Names), hs ⊆ b.hoisted →
      hs.map Hoisted.arrow = ((Node.mk l es).at .body).flatMap Node.closures →
      ∃ us, RewritesEdgesBy us es (visitBound dedupe b.binder es (hs.map (·.call b.binder)) names).result ∧
        us ~ (replicate (((Node.mk l es).at .body).foldr (·.bindCalls + ·) 0) (.bindCall b) ++
            hs.map (.closure b)) ++
          (visitBound dedupe b.binder es (hs.map (·.call b.binder)) names).bindings.flatMap Binding.uses
  | _, _, [], hs, _, _, hc => by
    cases map_eq_nil_iff.mp hc
    exact ⟨[], .nil, .refl _⟩
  | l, b, (f, n) :: es, hs, names, hsub, hc => by
    simp only [visitBound]
    split
    case isTrue hf =>
      simp only [Node.at_cons, hf, if_true, flatMap_cons, foldr_cons] at hc ⊢
      obtain ⟨hs₁, hs₂, hhs, h₁, h₂⟩ := map_eq_append_iff.mp hc
      subst hhs
      obtain ⟨hsub₁, hsub₂⟩ := append_subset.mp hsub
      have hlen : n.closures.length = (hs₁.map (·.call b.binder)).length := by simp [← h₁]
      simp only [map_append, hlen, take_left, drop_left]
      obtain ⟨us₁, hn, hp₁⟩ := Node.rebound_by n hs₁ hsub₁ h₁
      obtain ⟨us₂, hes, hp₂⟩ := visitBound_by dedupe l b es hs₂ _ hsub₂ h₂
      refine ⟨us₁ ++ us₂, .cons hn hes, (hp₁.append hp₂).trans ?_⟩
      rw [replicate_add]
      simp only [append_assoc]
      exact .append_left _ <| perm_append_comm_assoc ..
    case isFalse hf =>
      simp only [Node.at_cons, hf, if_false] at hc ⊢
      obtain ⟨us₁, hn, hp₁⟩ := Node.visit_by dedupe n names
      obtain ⟨us₂, hes, hp₂⟩ := visitBound_by dedupe l b es hs (n.visit dedupe names).names hsub hc
      refine ⟨us₁ ++ us₂, .cons hn hes, (hp₁.append hp₂).trans ?_⟩
      rw [flatMap_append]
      exact perm_append_comm_assoc ..

end

end RenderMemo
