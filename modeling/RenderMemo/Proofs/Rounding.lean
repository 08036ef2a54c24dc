import Mathlib.Algebra.Group.Nat.Defs
import RenderMemo.Decimal.Double

namespace RenderMemo.Decimal

-- The whole numbers that are doubles, that is, those with at most 53 significant bits. The exponent of a
-- double is bounded as well, but only far above all numbers of 64 bits.
def IsDouble (m : Nat) : Prop := ∃ s e, s < 2 ^ 53 ∧ m = s * 2 ^ e

-- The leading bits of a number, as many as a double has room for.
def significand (m : Nat) : Nat := m / 2 ^ unitExponent m

-- That a number is rounded to a double. No double is nearer, and if another one is as near, the one with
-- the even significand is taken.
structure RoundsTo (n d : Nat) : Prop where
  isDouble : IsDouble d
  nearest  : ∀ m, IsDouble m → distance d n ≤ distance m n
  even     : ∀ m, IsDouble m → m ≠ d → distance d n = distance m n → significand d % 2 = 0

section

variable {n m d s k : Nat}

-- The exponent of a number is known from the place of its leading bit.
theorem unitExponent_eq (hle : 2 ^ (52 + k) ≤ n) (hlt : n < 2 ^ (53 + k)) : unitExponent n = k := by
  have hn : n ≠ 0 := by have := Nat.two_pow_pos (52 + k); omega
  have hge := (Nat.le_log2 hn).mpr hle
  have hlt := (Nat.log2_lt hn).mpr hlt
  rw [unitExponent]
  omega

theorem significand_lt (n : Nat) : significand n < 2 ^ 53 := by
  rw [significand, Nat.div_lt_iff_lt_mul (Nat.two_pow_pos _), ← Nat.pow_add]
  refine Nat.lt_of_lt_of_le Nat.lt_log2_self (Nat.pow_le_pow_right (by omega) ?_)
  rw [unitExponent]
  omega

-- If bits are cut off, all 53 places of the significand are taken.
theorem le_significand (h : 0 < unitExponent n) : 2 ^ 52 ≤ significand n := by
  have hn : n ≠ 0 := by rintro rfl; exact absurd h (by decide)
  have hself := (Nat.le_log2 hn).mp (Nat.le_refl _)
  rw [significand, Nat.le_div_iff_mul_le (Nat.two_pow_pos _), ← Nat.pow_add]
  refine Nat.le_trans (Nat.pow_le_pow_right (by omega) ?_) hself
  rw [unitExponent] at h ⊢
  omega

theorem significand_mul (hle : 2 ^ 52 ≤ s) (hlt : s < 2 ^ 53) : significand (s * 2 ^ k) = s := by
  have hexp : unitExponent (s * 2 ^ k) = k := by
    apply unitExponent_eq
    · exact Nat.pow_add .. ▸ Nat.mul_le_mul_right _ hle
    · exact Nat.pow_add .. ▸ Nat.mul_lt_mul_of_pos_right hlt (Nat.two_pow_pos k)
  rw [significand, hexp, Nat.mul_div_cancel _ (Nat.two_pow_pos k)]

-- A significand that does not fit any more loses a zero bit.
theorem significand_next (hle : 2 ^ 52 ≤ s) (hlt : s < 2 ^ 53) :
    significand ((s + 1) * 2 ^ k) % 2 = (s + 1) % 2 := by
  by_cases hs : s + 1 < 2 ^ 53
  case pos => rw [significand_mul (by omega) hs]
  case neg =>
    have hs : s + 1 = 2 ^ 52 * 2 := by omega
    have hnext : (s + 1) * 2 ^ k = 2 ^ 52 * 2 ^ (k + 1) := by rw [hs, Nat.mul_assoc, ← Nat.pow_succ']
    rw [hnext, significand_mul (Nat.le_refl _) (by decide)]
    omega

theorem isDouble_mul (h : s ≤ 2 ^ 53) (k : Nat) : IsDouble (s * 2 ^ k) := by
  by_cases hs : s = 2 ^ 53
  case pos => exact ⟨1, 53 + k, by decide, by rw [hs, Nat.one_mul, Nat.pow_add]⟩
  case neg => exact ⟨s, k, by omega, rfl⟩

theorem isDouble_of_le (h : n ≤ 2 ^ 53) : IsDouble n := by
  simpa using isDouble_mul h 0

-- Large doubles are far apart.
theorem IsDouble.dvd (h : IsDouble m) (hle : 2 ^ (52 + k) ≤ m) : 2 ^ k ∣ m := by
  obtain ⟨s, e, hs, rfl⟩ := h
  have hlt : 2 ^ (52 + k) < 2 ^ (53 + e) := by
    refine Nat.lt_of_le_of_lt hle ?_
    exact Nat.pow_add .. ▸ Nat.mul_lt_mul_of_pos_right hs (Nat.two_pow_pos e)
  have hk : k ≤ e := by
    have := (Nat.pow_lt_pow_iff_right (by omega)).mp hlt
    omega
  exact Nat.dvd_mul_left_of_dvd (Nat.pow_dvd_pow 2 hk) s

-- The doubles around a number: none stands between the multiples of the unit.
theorem IsDouble.le_or_ge (h : IsDouble m) (n : Nat) :
    m ≤ significand n * 2 ^ unitExponent n ∨ (significand n + 1) * 2 ^ unitExponent n ≤ m := by
  by_cases hm : m ≤ significand n * 2 ^ unitExponent n
  case pos => exact .inl hm
  case neg =>
    refine .inr ?_
    have hdvd : 2 ^ unitExponent n ∣ m := by
      by_cases hexp : unitExponent n = 0
      case pos => simp [hexp]
      case neg =>
        have hle := Nat.mul_le_mul_right (2 ^ unitExponent n) <| le_significand (Nat.pos_of_ne_zero hexp)
        exact h.dvd <| Nat.pow_add .. ▸ Nat.le_trans hle (by omega)
    obtain ⟨t, rfl⟩ := hdvd
    rw [Nat.mul_comm (2 ^ _) t] at hm ⊢
    exact Nat.mul_le_mul_right _ <| Nat.lt_of_mul_lt_mul_right <| Nat.lt_of_not_le hm

-- What is cut off decides between the two multiples of the unit.
theorem toDouble_cases (n : Nat) :
    toDouble n = significand n * 2 ^ unitExponent n ∧
        (2 * (n % 2 ^ unitExponent n) < 2 ^ unitExponent n ∨
          2 * (n % 2 ^ unitExponent n) = 2 ^ unitExponent n ∧ significand n % 2 = 0) ∨
      toDouble n = (significand n + 1) * 2 ^ unitExponent n ∧
        (2 ^ unitExponent n < 2 * (n % 2 ^ unitExponent n) ∨
          2 * (n % 2 ^ unitExponent n) = 2 ^ unitExponent n ∧ significand n % 2 = 1) := by
  have hpow : Nat.pow 2 (unitExponent n) = 2 ^ unitExponent n := rfl
  simp only [toDouble, divNearest, significand, hpow]
  split
  case isTrue h => exact .inl ⟨rfl, .inl h⟩
  case isFalse h =>
    split
    case isTrue h => exact .inr ⟨rfl, .inl h⟩
    case isFalse h₂ =>
      have heq : 2 * (n % 2 ^ unitExponent n) = 2 ^ unitExponent n := by omega
      split
      case isTrue heven => exact .inl ⟨rfl, .inr ⟨heq, heven⟩⟩
      case isFalse hodd => exact .inr ⟨rfl, .inr ⟨heq, by omega⟩⟩

-- A number and the two multiples of the unit around it.
theorem around (n : Nat) :
    significand n * 2 ^ unitExponent n + n % 2 ^ unitExponent n = n ∧
      n % 2 ^ unitExponent n < 2 ^ unitExponent n ∧
      (significand n + 1) * 2 ^ unitExponent n =
        significand n * 2 ^ unitExponent n + 2 ^ unitExponent n :=
  ⟨Nat.div_add_mod' .., Nat.mod_lt _ (Nat.two_pow_pos _), Nat.succ_mul ..⟩

-- Where two doubles are equally near, bits are cut off.
theorem unitExponent_pos (h : 2 * (n % 2 ^ unitExponent n) = 2 ^ unitExponent n) : 0 < unitExponent n := by
  refine Nat.pos_of_ne_zero fun hzero => ?_
  rw [hzero, Nat.pow_zero] at h
  omega

theorem roundsTo_toDouble (n : Nat) : RoundsTo n (toDouble n) := by
  have ⟨hn, hlt, hsucc⟩ := around n
  have hcases := toDouble_cases n
  have hbound := significand_lt n
  constructor
  case isDouble =>
    cases hcases
    case inl h => exact h.1 ▸ isDouble_mul (Nat.le_of_lt hbound) _
    case inr h => exact h.1 ▸ isDouble_mul hbound _
  case nearest =>
    intro m hm
    have := hm.le_or_ge n
    simp only [distance]
    omega
  case even =>
    intro m hm hne hdistance
    have := hm.le_or_ge n
    simp only [distance] at hdistance
    have htie : 2 * (n % 2 ^ unitExponent n) = 2 ^ unitExponent n := by omega
    have hle := le_significand (unitExponent_pos htie)
    cases hcases
    case inl h =>
      rw [h.1, significand_mul hle hbound]
      omega
    case inr h =>
      rw [h.1, significand_next hle hbound]
      omega

-- The rule of rounding leaves no choice. If there were two results, they would be the multiples of the unit
-- below and above, and the significands of these are not both even.
theorem RoundsTo.eq_toDouble (h : RoundsTo n d) : d = toDouble n := by
  have ht := roundsTo_toDouble n
  have ⟨hn, hlt, hsucc⟩ := around n
  refine Decidable.byContradiction fun hne => ?_
  have hdistance := Nat.le_antisymm (h.nearest _ ht.isDouble) (ht.nearest _ h.isDouble)
  have heven₁ := h.even _ ht.isDouble (Ne.symm hne) hdistance
  have heven₂ := ht.even _ h.isDouble hne hdistance.symm
  have hd := h.isDouble.le_or_ge n
  have hcases := toDouble_cases n
  simp only [distance] at hdistance
  have htie : 2 * (n % 2 ^ unitExponent n) = 2 ^ unitExponent n := by omega
  have hle := le_significand (unitExponent_pos htie)
  have hbelow := significand_mul (k := unitExponent n) hle (significand_lt n)
  have habove := significand_next (k := unitExponent n) hle (significand_lt n)
  cases hcases
  case inl hcases =>
    have heq : d = (significand n + 1) * 2 ^ unitExponent n := by omega
    rw [heq, habove] at heven₁
    rw [hcases.1, hbelow] at heven₂
    omega
  case inr hcases =>
    have heq : d = significand n * 2 ^ unitExponent n := by omega
    rw [heq, hbelow] at heven₁
    rw [hcases.1, habove] at heven₂
    omega

theorem roundsTo_iff : RoundsTo n d ↔ d = toDouble n :=
  ⟨RoundsTo.eq_toDouble, fun h => h ▸ roundsTo_toDouble n⟩

-- A number is kept exactly if it is a double.
theorem toDouble_eq_self_iff : toDouble n = n ↔ IsDouble n := by
  constructor
  case mp => exact fun h => h ▸ (roundsTo_toDouble n).isDouble
  case mpr =>
    intro h
    have := (roundsTo_toDouble n).nearest n h
    simp only [distance] at this
    omega

theorem toDouble_pos (h : 0 < n) : 0 < toDouble n := by
  have := (roundsTo_toDouble n).nearest 1 (isDouble_of_le (by decide))
  simp only [distance] at this
  omega

-- At most half a unit is lost.
theorem distance_toDouble_le (n : Nat) : 2 * distance (toDouble n) n ≤ 2 ^ unitExponent n := by
  have ⟨hn, hlt, hsucc⟩ := around n
  have hcases := toDouble_cases n
  simp only [distance]
  omega

theorem distance_toDouble_le_of_lt (h : n < 2 ^ 64) : distance (toDouble n) n ≤ 1024 := by
  have hlog : n.log2 < 64 := by
    by_cases hn : n = 0
    case pos => simp [hn]
    case neg => exact (Nat.log2_lt hn).mpr h
  have hexp : unitExponent n ≤ 11 := by
    rw [unitExponent]
    omega
  have hpow : 2 ^ unitExponent n ≤ 2 ^ 11 := Nat.pow_le_pow_right (by omega) hexp
  have := distance_toDouble_le n
  omega

end

end RenderMemo.Decimal
