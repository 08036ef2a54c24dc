import Mathlib.Data.List.Forall2
import RenderMemo.Proofs.Rewriting

namespace RenderMemo

-- Parts that correspond to each other place by place.
def EdgesRelated (R : Node → Node → Prop) : List Edge → List Edge → Prop :=
  List.Forall₂ fun e e' => e'.1 = e.1 ∧ R e.2 e'.2

theorem RewritesEdges.related {bs : List Binding} :
    ∀ {es es' : List Edge}, RewritesEdges bs es es' ↔ EdgesRelated (Rewrites bs) es es'
  | [], es' => by
    constructor
    case mp =>
      intro h
      cases h
      exact .nil
    case mpr =>
      intro h
      cases h
      exact .nil
  | e :: es, es' => by
    constructor
    case mp =>
      intro h
      have ⟨n', rest', heq, hn, hrest⟩ := h.exists_of_cons
      exact heq ▸ .cons ⟨rfl, hn⟩ (related.mp hrest)
    case mpr =>
      intro h
      cases h
      case cons e' es' he hes =>
        have ⟨hf, hn⟩ := he
        rw [← Prod.eta e', hf]
        exact .cons hn (related.mpr hes)

namespace Hoisted

-- The place of a parameter of a declaration in the arrow function that the declaration was made of.
def undeclaredEdge : Edge → Edge
  | (.params, .mk (.form .parameter _ _) [(.pat, n)]) => (.params, n)
  | e => e

-- The parts of a closure with the body that its declaration has.
def blockEdge : Edge → Edge
  | (.body, n) => (.body, bodyBlock n)
  | e => e

theorem fst_blockEdge {e : Edge} : (blockEdge e).1 = e.1 := by
  unfold blockEdge
  split <;> rfl

theorem snd_blockEdge {e : Edge} : (blockEdge e).2 = e.2 ∨ (blockEdge e).2 = bodyBlock e.2 := by
  unfold blockEdge
  split
  case h_1 => exact .inr rfl
  case h_2 => exact .inl rfl

theorem undeclaredEdge_of_ne {e : Edge} (hf : e.1 ≠ .params) : undeclaredEdge e = e := by
  unfold undeclaredEdge
  split
  case h_1 => exact absurd rfl hf
  case h_2 => rfl

-- What a part of a declaration is related to is related to the part of the closure as well, so long as
-- a parameter is related to parameters only.
theorem undeclaredEdge_related {R : Node → Node → Prop} {e e' : Edge}
    (hparameter : ∀ n m, R (.parameter n) m → ∃ m', m = .parameter m' ∧ R n m')
    (h : e'.1 = (declaredEdge e).1 ∧ R (declaredEdge e).2 e'.2) :
    (undeclaredEdge e').1 = (blockEdge e).1 ∧ R (blockEdge e).2 (undeclaredEdge e').2 := by
  obtain ⟨f, m⟩ := e'
  have ⟨hf, hm⟩ := h
  simp only at hf hm
  subst hf
  unfold declaredEdge at hm ⊢
  split at hm
  case h_1 n =>
    have ⟨m', heq, hm'⟩ := hparameter n m hm
    exact heq ▸ ⟨rfl, hm'⟩
  case h_2 n => exact ⟨rfl, hm⟩
  case h_3 hparams hbody =>
    have hblock : blockEdge e = e := by
      unfold blockEdge
      split
      case h_1 => exact (hbody _ rfl).elim
      case h_2 => rfl
    have hf : e.1 ≠ .params := fun hf => hparams e.2 (by rw [← hf])
    have hm' : undeclaredEdge (e.1, m) = (e.1, m) := undeclaredEdge_of_ne hf
    rw [hblock, hm']
    exact ⟨rfl, hm⟩

end Hoisted

theorem EdgesRelated.undeclare {R : Node → Node → Prop} {es es' : List Edge}
    (hparameter : ∀ n m, R (.parameter n) m → ∃ m', m = .parameter m' ∧ R n m')
    (h : EdgesRelated R (es.map Hoisted.declaredEdge) es') :
    EdgesRelated R (es.map Hoisted.blockEdge) (es'.map Hoisted.undeclaredEdge) := by
  refine List.forall₂_map_left_iff.mpr <| List.forall₂_map_right_iff.mpr ?_
  refine (List.forall₂_map_left_iff.mp h).imp fun _ _ he => ?_
  exact Hoisted.undeclaredEdge_related hparameter he

theorem Rewrites.of_parameter {bs : List Binding} (n m : Node) (h : Rewrites bs (.parameter n) m) :
    ∃ m', m = .parameter m' ∧ Rewrites bs n m' := by
  have ⟨_, hm, hes⟩ := h.keep_of_not_isSite rfl
  have ⟨m', _, heq, hm', hnil⟩ := hes.exists_of_cons
  cases hnil
  subst hm heq
  exact ⟨m', rfl, hm'⟩

-- The parts of a declaration after a rewriting are the parts of the closure after a rewriting.
theorem RewritesEdges.undeclare {bs : List Binding} {es es' : List Edge}
    (h : RewritesEdges bs (es.map Hoisted.declaredEdge) es') :
    RewritesEdges bs (es.map Hoisted.blockEdge) (es'.map Hoisted.undeclaredEdge) :=
  related.mpr <| (related.mp h).undeclare Rewrites.of_parameter

end RenderMemo
