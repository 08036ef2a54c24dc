import Mathlib.Data.List.Basic
import RenderMemo.Json.Printer
import RenderMemo.Json.Reader
import RenderMemo.Proofs.Prelude
import RenderMemo.Proofs.Rounding

open List

namespace RenderMemo.Json

-- A string as it may be written between its quotes. Every character except quotes, backslashes and
-- control characters may stand for itself, and each one may be escaped by its units.
inductive Spells : List Char → List Char → Prop
  | nil : Spells [] []
  | plain {c : Char} {s body : List Char} :
      0x20 ≤ c.toNat → c ≠ '"' → c ≠ '\\' → Spells s body → Spells (c :: s) (c :: body)
  | short {e c : Char} {s body : List Char} :
      escaped? e = some c → Spells s body → Spells (c :: s) ('\\' :: e :: body)
  | unit {a b c d char : Char} {s body : List Char} :
      unit? a b c d = some char.toNat → Spells s body →
      Spells (char :: s) ('\\' :: 'u' :: a :: b :: c :: d :: body)
  | pair {a b c d e f g h char : Char} {u v : Nat} {s body : List Char} :
      unit? a b c d = some u → 0xd800 ≤ u → u < 0xdc00 →
      unit? e f g h = some v → 0xdc00 ≤ v → v < 0xe000 →
      char.toNat = 0x10000 + (u - 0xd800) * 0x400 + (v - 0xdc00) → Spells s body →
      Spells (char :: s) ('\\' :: 'u' :: a :: b :: c :: d :: '\\' :: 'u' :: e :: f :: g :: h :: body)

-- What may stand between the quotes of a string of which it does not matter what it spells. Its units may
-- stand alone.
inductive IsBody : List Char → Prop
  | nil : IsBody []
  | plain {c : Char} {body : List Char} :
      0x20 ≤ c.toNat → c ≠ '"' → c ≠ '\\' → IsBody body → IsBody (c :: body)
  | short {e : Char} {body : List Char} :
      (escaped? e).isSome → IsBody body → IsBody ('\\' :: e :: body)
  | unit {a b c d : Char} {body : List Char} :
      (unit? a b c d).isSome → IsBody body → IsBody ('\\' :: 'u' :: a :: b :: c :: d :: body)

section

variable {s body rest : List Char}

theorem Spells.isBody (h : Spells s body) : IsBody body := by
  induction h
  case nil                           => exact .nil
  case plain hge hquote hescape _ hi => exact .plain hge hquote hescape hi
  case short he _ hi                 => exact .short (by simp [he]) hi
  case unit hu _ hi                  => exact .unit (by simp [hu]) hi
  case pair hu _ _ hv _ _ _ _ hi     => exact .unit (by simp [hu]) <| .unit (by simp [hv]) hi

theorem readString_plain {c : Char} {cs : List Char} (hge : 0x20 ≤ c.toNat) (hquote : c ≠ '"')
    (hescape : c ≠ '\\') : readString (c :: cs) = (readString cs).map (prepend c) := by
  simp [readString, hescape, Nat.not_lt.mpr hge]

theorem readString_short {e c : Char} {cs : List Char} (he : escaped? e = some c) :
    readString ('\\' :: e :: cs) = (readString cs).map (prepend c) := by
  have hne : e ≠ 'u' := by
    rintro rfl
    cases he
  simp [readString, hne, he]

-- A character is no unit of a pair.
theorem not_isTrailing_toNat (c : Char) : isTrailing c.toNat = false ∧ isLeading c.toNat = false := by
  have := c.valid
  simp only [isTrailing, isLeading, Bool.and_eq_false_iff, decide_eq_false_iff_not]
  simp only [UInt32.isValidChar, Nat.isValidChar] at this
  have hc : c.val.toNat = c.toNat := rfl
  omega

theorem readString_spells (h : Spells s body) : readString (body ++ '"' :: rest) = .ok (s, rest) := by
  induction h
  case nil => exact readString.eq_2 rest
  case plain hge hquote hescape _ hi =>
    rw [cons_append, readString_plain hge hquote hescape, hi]
    rfl
  case short he _ hi =>
    rw [cons_append, cons_append, readString_short he, hi]
    rfl
  case unit char s body hu _ hi =>
    have ⟨htrailing, hleading⟩ := not_isTrailing_toNat char
    simp only [cons_append, readString, hu, htrailing, hleading, hi]
    simp [Except.map, prepend, Char.ofNat_toNat]
  case pair char u v s body hu hge hlt hv hge' hlt' hchar _ hi =>
    have hleading : isTrailing u = false ∧ isLeading u = true := by
      simp [isTrailing, isLeading]
      omega
    have htrailing : isTrailing v = true := by
      simp [isTrailing]
      omega
    have hcombine : combine u v = char := by
      rw [combine, ← hchar, Char.ofNat_toNat]
    simp only [cons_append, readString, hu, hleading, hv, htrailing, hi, hcombine]
    rfl

theorem skipString_isBody (h : IsBody body) : skipString (body ++ '"' :: rest) = .ok rest := by
  induction h
  case nil => rfl
  case plain hge hquote hescape _ hi =>
    simp [skipString, hescape, Nat.not_lt.mpr hge, hi]
  case short e body he _ hi =>
    have hne : e ≠ 'u' := by
      rintro rfl
      cases he
    simp [skipString, hne, he, hi]
  case unit hu _ hi =>
    simp only [cons_append, skipString, hu, hi]
    rfl

end

-- The digits of a part of a number.
def IsDigits (ds : List Char) : Prop := ds ≠ [] ∧ ∀ d ∈ ds, d.isDigit

-- The part of a number before the point, which starts with a zero only if it is one.
inductive IsWhole : List Char → Prop
  | zero : IsWhole ['0']
  | digits {d : Char} {ds : List Char} : d ≠ '0' → IsDigits (d :: ds) → IsWhole (d :: ds)

inductive IsFraction : List Char → Prop
  | none : IsFraction []
  | point {ds : List Char} : IsDigits ds → IsFraction ('.' :: ds)

inductive IsExponent : List Char → Prop
  | none : IsExponent []
  | unsigned {e : Char} {ds : List Char} : e = 'e' ∨ e = 'E' → IsDigits ds → IsExponent (e :: ds)
  | signed {e sign : Char} {ds : List Char} :
      e = 'e' ∨ e = 'E' → sign = '+' ∨ sign = '-' → IsDigits ds → IsExponent (e :: sign :: ds)

-- A number as it may be written.
inductive IsNumber : List Char → Prop
  | positive {whole fraction exponent : List Char} :
      IsWhole whole → IsFraction fraction → IsExponent exponent → IsNumber (whole ++ (fraction ++ exponent))
  | negative {whole fraction exponent : List Char} :
      IsWhole whole → IsFraction fraction → IsExponent exponent →
      IsNumber ('-' :: (whole ++ (fraction ++ exponent)))

-- Whether a number may go on with a character.
def isNumeric (c : Char) : Bool :=
  c.isDigit || c == '.' || c == 'e' || c == 'E'

section

variable {ds whole fraction exponent cs rest : List Char}

theorem readDigits_isDigits (h : IsDigits ds) (hrest : ∀ c ∈ rest.head?, c.isDigit = false) :
    readDigits (ds ++ rest) = .ok (ds, rest) := by
  have ⟨htake, hdrop⟩ := takeWhile_append_of_stops h.2 hrest
  obtain ⟨d, ds, rfl⟩ := exists_cons_of_ne_nil h.1
  simp only [readDigits, htake, hdrop]

theorem IsWhole.isDigits (h : IsWhole whole) : IsDigits whole := by
  cases h
  case zero       => exact ⟨by simp, by simp [Char.isDigit]⟩
  case digits _ h => exact h

theorem readWhole_isWhole (h : IsWhole whole) (hrest : ∀ c ∈ rest.head?, c.isDigit = false) :
    readWhole (whole ++ rest) = .ok (whole, rest) := by
  cases h
  case zero =>
    cases rest
    case nil      => rfl
    case cons c _ => simp [readWhole, hrest c rfl]
  case digits d ds hne h =>
    rw [← readDigits_isDigits h hrest, cons_append, readWhole]
    exact fun _ _ heq => absurd (cons.inj heq).1 hne

theorem readFraction_isFraction (h : IsFraction fraction)
    (hrest : ∀ c ∈ rest.head?, c.isDigit = false ∧ c ≠ '.') :
    ∃ ds, readFraction (fraction ++ rest) = .ok (ds, rest) := by
  cases h
  case none =>
    refine ⟨[], ?_⟩
    rw [nil_append, readFraction]
    rintro _ rfl
    exact absurd rfl (hrest '.' rfl).2
  case point ds h => exact ⟨ds, readDigits_isDigits h fun c hc => (hrest c hc).1⟩

theorem readExponentDigits_isDigits (h : IsDigits ds) (hrest : ∀ c ∈ rest.head?, c.isDigit = false)
    (negative : Bool) :
    readExponentDigits negative (ds ++ rest) = .ok (some (signed negative (Numeral.digitsValue ds)), rest) := by
  rw [readExponentDigits, readDigits_isDigits h hrest]
  rfl

theorem readExponent_isExponent (h : IsExponent exponent) (hrest : ∀ c ∈ rest.head?, isNumeric c = false) :
    ∃ e, readExponent (exponent ++ rest) = .ok (e, rest) := by
  have hdigit : ∀ c ∈ rest.head?, c.isDigit = false := by
    intro c hc
    have := hrest c hc
    simp_all [isNumeric]
  cases h
  case none =>
    refine ⟨none, ?_⟩
    cases rest
    case nil => rfl
    case cons c rest =>
      have := hrest c rfl
      simp_all [isNumeric, readExponent]
  case unsigned e ds he h =>
    refine ⟨_, Eq.trans ?_ (readExponentDigits_isDigits h hdigit false)⟩
    obtain ⟨d, ds, rfl⟩ := exists_cons_of_ne_nil h.1
    have hd := h.2 d mem_cons_self
    have hplus : d ≠ '+' := by rintro rfl; exact absurd hd (by decide)
    have hminus : d ≠ '-' := by rintro rfl; exact absurd hd (by decide)
    simp [readExponent, he, hplus, hminus]
  case signed e sign ds he hsign h =>
    obtain rfl | rfl := hsign
    · refine ⟨_, Eq.trans ?_ (readExponentDigits_isDigits h hdigit false)⟩
      simp [readExponent, he]
    · refine ⟨_, Eq.trans ?_ (readExponentDigits_isDigits h hdigit true)⟩
      simp [readExponent, he]

theorem IsFraction.head? (h : IsFraction fraction) : ∀ c ∈ fraction.head?, c = '.' := by
  cases h
  case none  => simp
  case point => simp

theorem IsExponent.head? (h : IsExponent exponent) : ∀ c ∈ exponent.head?, c = 'e' ∨ c = 'E' := by
  cases h
  case none          => simp
  case unsigned he _ => simpa using he
  case signed he _ _ => simpa using he

theorem readMagnitude_append (hwhole : IsWhole whole) (hfraction : IsFraction fraction)
    (hexponent : IsExponent exponent) (hrest : ∀ c ∈ rest.head?, isNumeric c = false) (negative : Bool) :
    ∃ n, readMagnitude negative (whole ++ (fraction ++ exponent) ++ rest) = .ok (n, rest) := by
  have hdot : ∀ c ∈ (exponent ++ rest).head?, c.isDigit = false ∧ c ≠ '.' := by
    refine forall_head?_append (fun c hc => ?_) (fun c hc => ?_)
    · obtain rfl | rfl := hexponent.head? c hc <;> decide
    · have := hrest c hc
      simp_all [isNumeric]
  have hdigit : ∀ c ∈ (fraction ++ (exponent ++ rest)).head?, c.isDigit = false := by
    refine forall_head?_append (fun c hc => ?_) (fun c hc => (hdot c hc).1)
    obtain rfl := hfraction.head? c hc
    decide
  have ⟨ds, hds⟩ := readFraction_isFraction hfraction hdot
  have ⟨e, he⟩ := readExponent_isExponent hexponent hrest
  refine ⟨⟨negative, whole, ds, e⟩, ?_⟩
  rw [append_assoc, append_assoc, readMagnitude, readWhole_isWhole hwhole hdigit]
  simp [hds, he]

theorem readNumeral_of_ne {c : Char} (h : c ≠ '-') (cs : List Char) :
    readNumeral (c :: cs) = readMagnitude false (c :: cs) := by
  simp [readNumeral, h]

theorem IsWhole.ne_minus {c : Char} (h : IsWhole (c :: cs)) : c ≠ '-' := by
  rintro rfl
  exact absurd (h.isDigits.2 '-' mem_cons_self) (by decide)

-- Any number is passed over, up to where it ends.
theorem skipNumber_isNumber {number : List Char} (h : IsNumber number)
    (hrest : ∀ c ∈ rest.head?, isNumeric c = false) : skipNumber (number ++ rest) = .ok rest := by
  suffices hread : ∃ n, readNumeral (number ++ rest) = .ok (n, rest) by
    have ⟨n, hn⟩ := hread
    rw [skipNumber, hn]
  cases h
  case negative hwhole hfraction hexponent =>
    exact readMagnitude_append hwhole hfraction hexponent hrest true
  case positive whole fraction exponent hwhole hfraction hexponent =>
    have ⟨n, hn⟩ := readMagnitude_append hwhole hfraction hexponent hrest false
    obtain ⟨d, ds, rfl⟩ := exists_cons_of_ne_nil hwhole.isDigits.1
    exact ⟨n, (readNumeral_of_ne hwhole.ne_minus _).trans hn⟩

theorem readNumeral_isWhole (h : IsWhole whole) (hrest : ∀ c ∈ rest.head?, isNumeric c = false) :
    readNumeral (whole ++ rest) = .ok (⟨false, whole, [], none⟩, rest) := by
  have hdigit : ∀ c ∈ rest.head?, c.isDigit = false := by
    intro c hc
    have := hrest c hc
    simp_all [isNumeric]
  have hfraction : readFraction rest = .ok ([], rest) := by
    rw [readFraction]
    rintro _ rfl
    exact absurd (hrest '.' rfl) (by decide)
  have hexponent : readExponent rest = .ok (none, rest) := by
    cases rest
    case nil => rfl
    case cons c rest =>
      have := hrest c rfl
      simp_all [isNumeric, readExponent]
  have hread : readMagnitude false (whole ++ rest) = .ok (⟨false, whole, [], none⟩, rest) := by
    rw [readMagnitude, readWhole_isWhole h hdigit]
    simp [hfraction, hexponent]
  obtain ⟨d, ds, rfl⟩ := exists_cons_of_ne_nil h.isDigits.1
  exact (readNumeral_of_ne h.ne_minus _).trans hread

namespace Numeral

theorem digitsValue_eq (ds : List Char) : digitsValue ds = Nat.ofDigitChars 10 ds 0 :=
  Nat.ofDigitChars_eq_foldl.symm

theorem le_ofDigitChars (n : Nat) : n ≤ Nat.ofDigitChars 10 ds n := by
  induction ds generalizing n
  case nil => simp
  case cons d ds hi =>
    rw [Nat.ofDigitChars_cons]
    exact Nat.le_trans (by omega) (hi _)

theorem significand_eq (n : Nat) (h : Nat.ofDigitChars 10 ds n < UInt64.size) :
    significand n ds = (Nat.ofDigitChars 10 ds n, []) := by
  induction ds generalizing n
  case nil => simp [significand]
  case cons d ds hi =>
    rw [Nat.ofDigitChars_cons] at h ⊢
    rw [significand, if_pos (Nat.lt_of_le_of_lt (le_ofDigitChars _) h), hi _ h]

-- An integer of 64 bits is far from the largest double.
theorem not_isOutOfRange (h : digitsValue ds < UInt64.size) :
    isOutOfRange ⟨false, ds, [], none⟩ = false := by
  rw [digitsValue_eq] at h
  have hone : Decimal.toDouble (Nat.pow 10 (Int.toNat 0)) = 1 := by decide
  have hround := Decimal.distance_toDouble_le_of_lt h
  have hlargest : UInt64.size + 1024 < Nat.pow 2 1024 - Nat.pow 2 970 := by decide +kernel
  have hsmall : ¬Nat.pow 2 1024 - Nat.pow 2 970 ≤ Decimal.toDouble (Nat.ofDigitChars 10 ds 0) * 1 := by
    rw [Decimal.distance] at hround
    omega
  simp only [isOutOfRange, append_nil, significand_eq 0 h, length_nil, Nat.sub_zero, Int.sub_self,
    Option.getD_none, Int.add_zero, hone, hsmall]
  simp

end Numeral

-- An integer of 64 bits is read as its digits.
theorem readNumber_isWhole (h : IsWhole whole) (hlt : Numeral.digitsValue whole < UInt64.size)
    (hrest : ∀ c ∈ rest.head?, isNumeric c = false) :
    readNumber (whole ++ rest) = .ok (⟨false, whole, [], none⟩, rest) := by
  rw [readNumber, readNumeral_isWhole h hrest]
  simp [Numeral.not_isOutOfRange hlt]

end

end RenderMemo.Json
