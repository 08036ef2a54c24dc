import RenderMemo.Json.Printer
import RenderMemo.Proofs.Tokens

open List

namespace RenderMemo.Json

-- The tokens of some parts, with commas between them, and a closing bracket.
def joined (closing : Char) : List (List (List Char)) → List (List Char)
  | [] => [[closing]]
  | [vs] => vs ++ [[closing]]
  | vs :: us :: rest => vs ++ [','] :: joined closing (us :: rest)

-- The token of a string as it is printed.
def token (s : String) : List Char := quoted (s.toList.flatMap escapeChar)

-- The tokens of a value as it is printed.
mutual

def tokens : Json → List (List Char)
  | .null => [['n', 'u', 'l', 'l']]
  | .bool true => [['t', 'r', 'u', 'e']]
  | .bool false => [['f', 'a', 'l', 's', 'e']]
  | .num m p => [(numeral m p).toList]
  | .str s => [token s]
  | .arr items => ['['] :: joined ']' (tokensOfItems items)
  | .obj members => ['\x7b'] :: joined '\x7d' (tokensOfMembers members)

def tokensOfItems : List Json → List (List (List Char))
  | [] => []
  | j :: js => tokens j :: tokensOfItems js

def tokensOfMembers : List (String × Json) → List (List (List Char))
  | [] => []
  | (k, j) :: ms => (token k :: [':'] :: tokens j) :: tokensOfMembers ms

end

theorem toList_quote (s : String) : (quote s).toList = token s := by
  simp [quote, token, quoted]

theorem flatten_joined (closing : Char) (vss : List (List (List Char))) :
    (joined closing vss).flatten = [','].intercalate (vss.map flatten) ++ [closing] := by
  induction vss using joined.induct
  case case1    => rfl
  case case2    => simp [joined]
  case case3 hi => simp [joined, hi, intercalate_cons_cons]

-- A value is printed on one line as its tokens, without anything between them.
mutual

theorem toList_compact : ∀ j : Json, (compact j).toList = (tokens j).flatten
  | .null | .bool true | .bool false => rfl
  | .num m p => by simp [compact, tokens]
  | .str s => by simp [compact, tokens, toList_quote]
  | .arr items => by
    simp [compact, tokens, flatten_joined, toList_compactItems items]
  | .obj members => by
    simp [compact, tokens, flatten_joined, toList_compactMembers members]

theorem toList_compactItems :
    ∀ js : List Json, (compactItems js).map String.toList = (tokensOfItems js).map flatten
  | [] => rfl
  | j :: js => by simp [compactItems, tokensOfItems, toList_compact j, toList_compactItems js]

theorem toList_compactMembers :
    ∀ ms : List (String × Json), (compactMembers ms).map String.toList = (tokensOfMembers ms).map flatten
  | [] => rfl
  | (k, j) :: ms => by
    simp [compactMembers, tokensOfMembers, toList_quote, toList_compact j, toList_compactMembers ms]

end

-- Printed strings spell what they stand for.

theorem unit?_control : ∀ n < 0x20, unit? '0' '0' (hexDigit (n / 16)) (hexDigit (n % 16)) = some n := by
  decide

theorem spells_escapeChar {c : Char} {s body : List Char} (h : Spells s body) :
    Spells (c :: s) (escapeChar c ++ body) := by
  unfold escapeChar
  split
  case h_8 hquote hescape _ _ _ _ _ =>
    split
    case isTrue hlt  => exact .unit (unit?_control c.toNat hlt) h
    case isFalse hge => exact .plain (Nat.not_lt.mp hge) hquote hescape h
  all_goals exact .short rfl h

theorem spells_escape (s : List Char) : Spells s (s.flatMap escapeChar) := by
  induction s
  case nil     => exact .nil
  case cons hi => exact spells_escapeChar hi

theorem IsWhole.concat {ds : List Char} {d : Char} (h : IsWhole ds) (hne : ds ≠ ['0']) (hd : d.isDigit) :
    IsWhole (ds ++ [d]) := by
  cases h
  case zero => exact absurd rfl hne
  case digits hzero hdigits =>
    rw [cons_append]
    refine .digits hzero ⟨by simp, ?_⟩
    rw [← cons_append]
    exact forall_mem_append.mpr ⟨hdigits.2, by simpa using hd⟩

-- The digits of a number do not start with a zero, unless it is zero.
theorem isWhole_toDigits (n : Nat) : IsWhole (Nat.toDigits 10 n) := by
  induction n using Nat.strongRecOn
  case ind n hi =>
    rw [Nat.toDigits_eq_if (by decide)]
    split
    case isTrue hlt =>
      by_cases hn : n = 0
      case pos => exact hn ▸ .zero
      case neg =>
        refine .digits (Nat.digitChar_eq_zero.not.mpr hn) ⟨by simp, ?_⟩
        simpa [Nat.isDigit_digitChar] using hlt
    case isFalse hge =>
      refine (hi (n / 10) (by omega)).concat (fun hzero => ?_) (by simp [Nat.isDigit_digitChar]; omega)
      have hvalue := congrArg (Nat.ofDigitChars 10 · 0) hzero
      simp only [Nat.ofDigitChars_ten_toDigits] at hvalue
      change n / 10 = 0 at hvalue
      omega

end RenderMemo.Json
