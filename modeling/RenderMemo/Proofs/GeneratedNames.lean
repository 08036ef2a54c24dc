import RenderMemo.Proofs.Expansions

open List

namespace RenderMemo

-- The names that are handed out between two states are the names of the bindings that are made, and
-- one more for every function whose binder is not used.
def Names.Account (names : Names) (bs : List Binding) (detected : Nat) (names' : Names) : Prop :=
  ∃ fresh unused, names.Hands fresh names' ∧ fresh ~ bs.flatMap Binding.names ++ unused ∧
    bs.length + unused.length = detected

namespace Names.Account

variable {names names₁ names₂ : Names} {bs bs₁ bs₂ : List Binding} {i j : Nat}

theorem nil : names.Account [] 0 names :=
  ⟨[], [], .none _, .refl _, rfl⟩

theorem append (h₁ : names.Account bs₁ i names₁) (h₂ : names₁.Account bs₂ j names₂) :
    names.Account (bs₁ ++ bs₂) (i + j) names₂ := by
  have ⟨fresh₁, unused₁, hands₁, hp₁, hl₁⟩ := h₁
  have ⟨fresh₂, unused₂, hands₂, hp₂, hl₂⟩ := h₂
  refine ⟨_, unused₁ ++ unused₂, hands₁.append hands₂, ?_, ?_⟩
  · refine (hp₁.append hp₂).trans ?_
    simp only [flatMap_append, append_assoc]
    exact .append_left _ <| perm_append_comm_assoc ..
  · simp only [length_append]
    omega

theorem perm (h : names.Account bs₁ i names₁) (hp : bs₁ ~ bs₂) : names.Account bs₂ i names₁ := by
  have ⟨fresh, unused, hands, hf, hl⟩ := h
  exact ⟨fresh, unused, hands, hf.trans <| (hp.flatMap_right _).append_right _, hp.length_eq ▸ hl⟩

theorem reserve (names : Names) (k : Nat) :
    names.Account [] k (names.reserve "bindRenderFunc" k) :=
  ⟨_, _, .generateMany .., .refl _, by simp⟩

theorem used {dedupe : Bool} {n : Node} :
    names.Account [n.binding dedupe names] 1 (n.namesOfBinding dedupe names) :=
  ⟨_, [], Node.binding_hands, by simp, rfl⟩

theorem unused {dedupe : Bool} {n : Node} (h : (n.binding dedupe names).isUsed = false) :
    names.Account [] 1 (n.namesOfBinding dedupe names) := by
  have hh : (n.binding dedupe names).hoisted = [] := by
    simp only [Binding.isUsed, Bool.not_eq_false', Bool.and_eq_true, List.isEmpty_iff] at h
    exact h.left
  refine ⟨_, _, Node.binding_hands, .refl _, ?_⟩
  simp [hh]

end Names.Account

mutual

theorem Node.visit_account (dedupe : Bool) : ∀ (n : Node) (names : Names),
    names.Account (n.visit dedupe names).bindings (n.visit dedupe names).detected
      (n.visit dedupe names).names
  | .mk l es, names => by
    cases hr : (Node.mk l es).isRenderWithBody
    case false =>
      rw [Node.visit_of_not_isRenderWithBody hr]
      exact visitEdges_account dedupe es names
    case true =>
      rw [Node.visit_of_isRenderWithBody hr]
      have hrest := visitBound_account dedupe ((Node.mk l es).binding dedupe names).binder es
        (((Node.mk l es).binding dedupe names).hoisted.map
          (·.call ((Node.mk l es).binding dedupe names).binder))
        ((Node.mk l es).namesOfBinding dedupe names)
      simp only [Nat.add_comm _ 1]
      split
      case isTrue     => exact .append .used hrest
      case isFalse hu => exact .append (.unused (by simpa using hu)) hrest

theorem visitEdges_account (dedupe : Bool) : ∀ (es : List Edge) (names : Names),
    names.Account (visitEdges dedupe es names).bindings (visitEdges dedupe es names).detected
      (visitEdges dedupe es names).names
  | [], _ => .nil
  | (_, n) :: es, names => .append (Node.visit_account dedupe n names) (visitEdges_account dedupe es _)

theorem visitBound_account (dedupe : Bool) (binder : String) :
    ∀ (es : List Edge) (rs : List Node) (names : Names),
      names.Account (visitBound dedupe binder es rs names).bindings
        (visitBound dedupe binder es rs names).detected (visitBound dedupe binder es rs names).names
  | [], _, _ => .nil
  | (f, n) :: es, rs, names => by
    simp only [visitBound]
    split
    case isTrue  => exact .append (.reserve ..) (visitBound_account dedupe binder es _ _)
    case isFalse => exact .append (Node.visit_account dedupe n names) (visitBound_account dedupe binder es _ _)

end

def Pending.binding? : Pending → Option Binding
  | binder b => some b
  | _ => none

theorem Pending.filterMap_ofBindings (bs : List Binding) :
    (ofBindings bs).filterMap binding? = bs := by
  induction bs
  case nil => rfl
  case cons b bs hi =>
    simp only [ofBindings, flatMap_cons, filterMap_append, filterMap_cons, binding?] at hi ⊢
    simp [hi, Function.comp_def, binding?]

-- The names of the bindings that are in front of an item are handed out before those that the
-- closures in front of it need.
theorem expand_account {dedupe : Bool} {emit : Node → Emitted} {item : Node} {names : Names}
    (hemit : ∀ n, (emit n).binding? = none) :
    names.Account (expand dedupe emit item names).bindings (expand dedupe emit item names).detected
      (expand dedupe emit item names).names := by
  induction emit, item, names using expand_induction dedupe
    (F := fun ps names =>
      ∃ bs, (expandPending dedupe ps names).bindings ~ ps.filterMap Pending.binding? ++ bs ∧
        names.Account bs (expandPending dedupe ps names).detected
          (expandPending dedupe ps names).names)
  case nil => exact ⟨[], .refl _, .nil⟩
  case binder b ps names hi =>
    obtain ⟨bs, hp, account⟩ := hi
    exact ⟨bs, hp.cons b, account⟩
  case closure h ps names hclosure hi =>
    obtain ⟨bs, hp, account⟩ := hi
    refine ⟨_, ?_, (hclosure fun _ => rfl).append account⟩
    simp only [expandPending, Expansion.bindings, filterMap_append] at hp ⊢
    exact (hp.append_left _).trans <| perm_append_comm_assoc ..
  case item emit item names hi =>
    obtain ⟨bs, hp, account⟩ := hi
    rw [expand_eq]
    refine ((Node.visit_account dedupe item names).append account).perm ?_
    rw [show (item.pending dedupe names).filterMap _ = _ from Pending.filterMap_ofBindings _] at hp
    simpa [Expansion.bindings, hemit] using hp.symm

theorem expandItems_account (dedupe : Bool) (items : List Node) (names : Names) :
    names.Account (expandItems dedupe items names).bindings (expandItems dedupe items names).detected
      (expandItems dedupe items names).names := by
  induction items generalizing names
  case nil => exact .nil
  case cons item items hi =>
    simp only [expandItems, Expansion.bindings, filterMap_append]
    exact (expand_account fun _ => rfl).append (hi _)

end RenderMemo
