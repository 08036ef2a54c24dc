import Mathlib.Data.List.Nodup
import Mathlib.Data.List.Perm.Subperm
import RenderMemo.Names

namespace RenderMemo.Names

theorem repr_injective {i j : Nat} (h : i.repr = j.repr) : i = j := by
  have hd : Nat.toDigits 10 i = Nat.toDigits 10 j := by
    rw [← Nat.toList_repr, ← Nat.toList_repr, h]
  rw [← Nat.ofDigitChars_ten_toDigits (n := i), hd, Nat.ofDigitChars_ten_toDigits]

-- A numbered candidate is longer than the bare one, and two numbers are not written alike.
theorem candidate_injective (base : String) : Function.Injective (candidate base) := by
  have hbare (i : Nat) : candidate base (i + 1) ≠ candidate base 0 := by
    intro h
    have := congrArg String.length h
    simp [candidate, Nat.repr_ne_empty] at this
  intro i j h
  cases i <;> cases j
  case zero.zero => rfl
  case zero.succ j => exact absurd h.symm (hbare j)
  case succ.zero i => exact absurd h (hbare i)
  case succ.succ i j =>
    simp only [candidate, String.append_right_inj, Nat.toString_eq_repr] at h
    exact congrArg _ (Nat.add_right_cancel (repr_injective h))

-- No name of a source text that does not start with an underscore is a candidate.
theorem head?_candidate (base : String) (i : Nat) :
    (candidate base i).toList.head? = some '_' := by
  cases i <;> simp [candidate]

-- There is one candidate more than there are names taken, so one of the candidates is free.
theorem exists_free (names : Names) (base : String) :
    ∃ i < names.taken.length + 1, candidate base i ∉ names.taken := by
  by_contra hc
  push Not at hc
  have hsub : (List.range (names.taken.length + 1)).map (candidate base) ⊆ names.taken := by
    intro x hx
    obtain ⟨i, hi, rfl⟩ := List.mem_map.mp hx
    exact hc i (List.mem_range.mp hi)
  have hnodup : ((List.range (names.taken.length + 1)).map (candidate base)).Nodup :=
    List.Nodup.map (candidate_injective base) List.nodup_range
  have := (List.subperm_of_subset hnodup hsub).length_le
  simp only [List.length_map, List.length_range] at this
  omega

theorem find?_firstFree (names : Names) (base : String) :
    (List.range (names.taken.length + 1)).find? (fun i => !names.taken.contains (candidate base i)) =
      some (names.firstFree base) := by
  obtain ⟨i, hi, hfree⟩ := names.exists_free base
  simp only [firstFree]
  cases h : (List.range (names.taken.length + 1)).find?
    fun i => !names.taken.contains (candidate base i)
  case some j => rfl
  case none =>
    have := List.find?_eq_none.mp h i (List.mem_range.mpr hi)
    simp [hfree] at this

theorem candidate_firstFree_not_mem (names : Names) (base : String) :
    candidate base (names.firstFree base) ∉ names.taken := by
  have := List.find?_some (names.find?_firstFree base)
  simpa using this

theorem candidate_mem_of_lt_firstFree {names : Names} {base : String} {i : Nat}
    (h : i < names.firstFree base) : candidate base i ∈ names.taken := by
  have ⟨_, _, hbefore⟩ := List.find?_range_eq_some.mp (names.find?_firstFree base)
  simpa using hbefore i h

theorem generate_not_mem (names : Names) (base : String) :
    (names.generate base).1 ∉ names.taken :=
  names.candidate_firstFree_not_mem base

-- The names that are handed out between two states, the first one in front.
inductive Hands : Names → List String → Names → Prop
  | none (names : Names) : Hands names [] names
  | next {names names₁ : Names} {base : String} {xs : List String} :
      Hands (names.generate base).2 xs names₁ → Hands names ((names.generate base).1 :: xs) names₁

namespace Hands

variable {names names₁ names₂ : Names} {base x : String} {xs ys : List String}

theorem one : Hands names [(names.generate base).1] (names.generate base).2 :=
  .next (.none _)

theorem append (h₁ : Hands names xs names₁) (h₂ : Hands names₁ ys names₂) :
    Hands names (xs ++ ys) names₂ := by
  induction h₁
  case none => exact h₂
  case next hi => exact .next (hi h₂)

theorem taken_eq (h : Hands names xs names₁) : names₁.taken = xs.reverse ++ names.taken := by
  induction h
  case none => rfl
  case next hi => simp [hi, generate]

theorem not_mem_taken (h : Hands names xs names₁) (hx : x ∈ xs) : x ∉ names.taken := by
  induction h
  case none => simp at hx
  case next names _ base _ _ hi =>
    cases List.mem_cons.mp hx
    case inl heq =>
      subst heq
      exact names.generate_not_mem base
    case inr hx => exact fun hm => hi hx (List.mem_cons_of_mem _ hm)

theorem nodup (h : Hands names xs names₁) : xs.Nodup := by
  induction h
  case none => exact List.nodup_nil
  case next names _ base _ h hi =>
    exact List.nodup_cons.mpr ⟨fun hm => h.not_mem_taken hm List.mem_cons_self, hi⟩

theorem head?_eq (h : Hands names xs names₁) (hx : x ∈ xs) : x.toList.head? = some '_' := by
  induction h
  case none => simp at hx
  case next hi =>
    cases List.mem_cons.mp hx
    case inl heq =>
      subst heq
      exact head?_candidate ..
    case inr hx => exact hi hx

theorem generateMany (names : Names) (base : String) (k : Nat) :
    Hands names (names.generateMany base k).1 (names.generateMany base k).2 := by
  induction k generalizing names
  case zero => exact .none _
  case succ hi => exact .next (hi _)

end Hands

@[simp]
theorem length_generateMany (names : Names) (base : String) (k : Nat) :
    (names.generateMany base k).1.length = k := by
  induction k generalizing names
  case zero => rfl
  case succ hi => simp [generateMany, hi]

theorem generateMany_add (names : Names) (base : String) (j k : Nat) :
    (names.generateMany base (j + k)).2 = ((names.generateMany base j).2.generateMany base k).2 := by
  induction j generalizing names
  case zero => simp [generateMany]
  case succ j hi => simp [Nat.succ_add, generateMany, hi]

theorem reserve_add (names : Names) (base : String) (j k : Nat) :
    names.reserve base (j + k) = (names.reserve base j).reserve base k :=
  names.generateMany_add base j k

end RenderMemo.Names
