import Mathlib.Data.List.Forall2
import Mathlib.Data.List.Perm.Subperm
import Mathlib.Data.List.TakeWhile

open List

namespace RenderMemo

-- A computation that may fail is a sequence of such. What was computed is handed on, and the first fault
-- ends the sequence.
section

variable {ε σ α β : Type}

@[simp]
theorem ok_bind (a : α) (f : α → Except ε β) : (.ok a >>= f) = f a := rfl

@[simp]
theorem error_bind (e : ε) (f : α → Except ε β) : (.error e >>= f) = .error e := rfl

@[simp]
theorem pure_eq_ok (a : α) : (pure a : Except ε α) = .ok a := rfl

theorem bind_eq_ok_iff {x : Except ε α} {f : α → Except ε β} {b : β} :
    (x >>= f) = .ok b ↔ ∃ a, x = .ok a ∧ f a = .ok b := by
  cases x <;> simp

theorem foldlM_single {f : σ → α → Except ε σ} {s : σ} {a : α} : [a].foldlM f s = f s a :=
  foldlM_cons.trans (bind_pure _)

end

section

variable {α β γ : Type}

-- What is taken from the front of a list ends where the test fails.
theorem takeWhile_append_of_stops {p : α → Bool} {as bs : List α} (h : ∀ a ∈ as, p a)
    (hrest : ∀ b ∈ bs.head?, p b = false) :
    (as ++ bs).takeWhile p = as ∧ (as ++ bs).dropWhile p = bs := by
  rw [takeWhile_append_of_pos h, dropWhile_append_of_pos h]
  cases bs
  case nil => simp
  case cons b bs => simp [hrest b rfl]

theorem forall_head?_append {p : α → Prop} {as bs : List α} (has : ∀ a ∈ as.head?, p a)
    (hbs : ∀ b ∈ bs.head?, p b) : ∀ a ∈ (as ++ bs).head?, p a := by
  cases as
  case nil  => exact hbs
  case cons => exact has

theorem eq_of_cons_suffix {a b : α} {as bs : List α} (ha : a :: as <:+ bs) (hb : b :: as <:+ bs) : a = b := by
  have h := (suffix_of_suffix_length_le ha hb <| Nat.le_refl _).eq_of_length rfl
  exact (cons.inj h).1

theorem exists_related {R : α → β → Prop} {xs : List α} {ys : List β} {x : α} (h : Forall₂ R xs ys)
    (hx : x ∈ xs) : ∃ y ∈ ys, R x y := by
  induction h
  case nil => simp at hx
  case cons y xs ys hy _ hi =>
    cases mem_cons.mp hx
    case inl heq => exact heq ▸ ⟨y, mem_cons_self, hy⟩
    case inr hx =>
      have ⟨z, hz, hr⟩ := hi hx
      exact ⟨z, mem_cons_of_mem _ hz, hr⟩

theorem forall₂_comp {R : α → β → Prop} {S : β → γ → Prop} {T : α → γ → Prop}
    (h : ∀ a b c, R a b → S b c → T a c) {as : List α} {bs : List β} {cs : List γ} :
    Forall₂ R as bs → Forall₂ S bs cs → Forall₂ T as cs
  | .nil,         .nil         => .nil
  | .cons hr hrs, .cons hs hss => .cons (h _ _ _ hr hs) (forall₂_comp h hrs hss)

theorem subperm_flatMap {f g : α → List β} {xs : List α} (h : ∀ x ∈ xs, f x <+~ g x) :
    xs.flatMap f <+~ xs.flatMap g := by
  induction xs
  case nil => exact .refl _
  case cons x xs hi =>
    have ⟨hx, hxs⟩ := forall_mem_cons.mp h
    exact hx.append (hi hxs)

-- What only one of several parts can have is counted in that part.
theorem count_flatMap_of_nodup [BEq β] [LawfulBEq β] {f g : α → List β} {as : List α} {a : α} {x : β}
    (hsub : ∀ a, f a ⊆ g a) (hnodup : (as.flatMap g).Nodup) (ha : a ∈ as) (hx : x ∈ g a) :
    (as.flatMap f).count x = (f a).count x := by
  have ⟨front, rest, heq⟩ := append_of_mem ha
  subst heq
  rw [flatMap_append, flatMap_cons, nodup_append, nodup_append] at hnodup
  have ⟨_, ⟨_, _, hrest⟩, hfront⟩ := hnodup
  have hnone (bs : List α) (hbs : ∀ b ∈ bs, x ∉ g b) : (bs.flatMap f).count x = 0 := by
    refine count_eq_zero_of_not_mem fun hm => ?_
    have ⟨b, hb, hm⟩ := mem_flatMap.mp hm
    exact hbs b hb (hsub b hm)
  have hfront := hnone front fun b hb hm =>
    hfront x (mem_flatMap_of_mem hb hm) x (mem_append_left _ hx) rfl
  have hrest := hnone rest fun b hb hm => hrest x hx x (mem_flatMap_of_mem hb hm) rfl
  rw [flatMap_append, flatMap_cons, count_append, count_append, hfront, hrest, Nat.zero_add, Nat.add_zero]

theorem join_map_getD (xs : List α) (f : α → Option String) :
    String.join (xs.map fun x => (f x).getD "") = String.join (xs.filterMap f) := by
  induction xs
  case nil => rfl
  case cons x xs hi => cases h : f x <;> simp [h, hi]

end

end RenderMemo
