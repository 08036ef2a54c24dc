import Mathlib.Data.List.TakeWhile
import RenderMemo.Proofs.Lexemes

open List

namespace RenderMemo.Json

-- A text that consists of tokens, with white space before, between and behind them. No token is empty.
inductive Spaced : List (List Char) → List Char → Prop
  | nil {w : List Char} : (∀ c ∈ w, isSpace c) → Spaced [] w
  | cons {w t cs : List Char} {ts : List (List Char)} :
      (∀ c ∈ w, isSpace c) → t ≠ [] → Spaced ts cs → Spaced (t :: ts) (w ++ (t ++ cs))

-- The token of a string.
def quoted (body : List Char) : List Char := '"' :: (body ++ ['"'])

-- The tokens of a value. Only the form counts, which is that of any JSON text: a string or a number need
-- not be one that can be represented, and brackets may be nested to any depth.
mutual

inductive IsValue : List (List Char) → Prop
  | word {word : List Char} :
      word ∈ [['n', 'u', 'l', 'l'], ['t', 'r', 'u', 'e'], ['f', 'a', 'l', 's', 'e']] → IsValue [word]
  | number {number : List Char} : IsNumber number → IsValue [number]
  | string {body : List Char} : IsBody body → IsValue [quoted body]
  | emptyArray : IsValue [['['], [']']]
  | array {ts : List (List Char)} : AreItems ts → IsValue (['['] :: ts)
  | emptyObject : IsValue [['\x7b'], ['\x7d']]
  | object {ts : List (List Char)} : AreMembers ts → IsValue (['\x7b'] :: ts)

-- The items of an array, up to its closing bracket.
inductive AreItems : List (List Char) → Prop
  | last {vs : List (List Char)} : IsValue vs → AreItems (vs ++ [[']']])
  | cons {vs ts : List (List Char)} : IsValue vs → AreItems ts → AreItems (vs ++ [','] :: ts)

-- The members of an object, up to its closing bracket.
inductive AreMembers : List (List Char) → Prop
  | last {body : List Char} {vs : List (List Char)} :
      IsBody body → IsValue vs → AreMembers (quoted body :: [':'] :: (vs ++ [['\x7d']]))
  | cons {body : List Char} {vs ts : List (List Char)} :
      IsBody body → IsValue vs → AreMembers ts → AreMembers (quoted body :: [':'] :: (vs ++ [','] :: ts))

end

-- What may follow a value.
def Follows (ts : List (List Char)) : Prop :=
  ∀ t ∈ ts.head?, t = [','] ∨ t = [']'] ∨ t = ['\x7d']

section

variable {c closing : Char} {t body cs : List Char} {ts vs : List (List Char)} {n : Nat}

theorem dropSpace_of_spaces {w : List Char} (h : ∀ c ∈ w, isSpace c) : dropSpace (w ++ cs) = dropSpace cs :=
  dropWhile_append_of_pos h

namespace Spaced

theorem dropSpace_nil (h : Spaced [] cs) : dropSpace cs = [] := by
  cases h
  case nil hw => exact dropWhile_eq_nil_iff.mpr hw

-- The next token is found behind the white space.
theorem dropSpace_cons (h : Spaced ((c :: t) :: ts) cs) (hc : isSpace c = false) :
    ∃ rest, dropSpace cs = c :: (t ++ rest) ∧ Spaced ts rest := by
  cases h
  case cons rest hw _ hrest =>
    refine ⟨rest, ?_, hrest⟩
    rw [dropSpace_of_spaces hw]
    simp [dropSpace, hc]

theorem dropSpace (h : Spaced ((c :: t) :: ts) cs) (hc : isSpace c = false) :
    Spaced ((c :: t) :: ts) (Json.dropSpace cs) := by
  have ⟨rest, hdrop, hrest⟩ := h.dropSpace_cons hc
  rw [hdrop]
  exact .cons (w := []) (by simp) (cons_ne_nil c t) hrest

theorem dropSpace_quoted (h : Spaced (quoted body :: ts) cs) :
    ∃ rest, Json.dropSpace cs = '"' :: (body ++ '"' :: rest) ∧ Spaced ts rest := by
  have ⟨rest, hdrop, hrest⟩ := h.dropSpace_cons (by decide)
  exact ⟨rest, by simpa using hdrop, hrest⟩

theorem afterColon (h : Spaced ([':'] :: ts) cs) :
    ∃ rest, Json.afterColon cs = .ok rest ∧ Spaced ts rest := by
  have ⟨rest, hdrop, hrest⟩ := h.dropSpace_cons (by decide)
  exact ⟨rest, by simp [Json.afterColon, hdrop], hrest⟩

theorem next_comma (h : Spaced ([','] :: ts) cs) (closing : Char) :
    ∃ rest, next closing cs = .ok (.another rest) ∧ Spaced ts rest := by
  have ⟨rest, hdrop, hrest⟩ := h.dropSpace_cons (by decide)
  exact ⟨rest, by simp [next, hdrop], hrest⟩

theorem next_closing (h : Spaced ([closing] :: ts) cs) (hspace : isSpace closing = false) (hne : closing ≠ ',') :
    ∃ rest, next closing cs = .ok (.closed rest) ∧ Spaced ts rest := by
  have ⟨rest, hdrop, hrest⟩ := h.dropSpace_cons hspace
  exact ⟨rest, by simp [next, hdrop, hne], hrest⟩

theorem closesAtOnce (h : Spaced ([closing] :: ts) cs) (hspace : isSpace closing = false) :
    ∃ rest, Json.closesAtOnce closing cs = .ok (some rest) ∧ Spaced ts rest := by
  have ⟨rest, hdrop, hrest⟩ := h.dropSpace_cons hspace
  exact ⟨rest, by simp [Json.closesAtOnce, hdrop], hrest⟩

theorem closesAtOnce_of_ne (h : Spaced ((c :: t) :: ts) cs) (hspace : isSpace c = false) (hne : c ≠ closing) :
    Json.closesAtOnce closing cs = .ok none := by
  have ⟨rest, hdrop, hrest⟩ := h.dropSpace_cons hspace
  simp [Json.closesAtOnce, hdrop, hne]

-- A number ends in front of white space, and of anything that may follow a value.
theorem not_isNumeric (h : Spaced ts cs) (hts : Follows ts) : ∀ c ∈ cs.head?, isNumeric c = false := by
  have hspace : ∀ c, isSpace c → isNumeric c = false := by
    intro c hc
    simp only [isSpace, Bool.or_eq_true, beq_iff_eq] at hc
    obtain ((rfl | rfl) | rfl) | rfl := hc <;> decide
  cases h
  case nil hw => exact fun c hc => hspace c <| hw c <| mem_of_mem_head? hc
  case cons w t rest ts hw _ _ =>
    refine forall_head?_append (fun c hc => hspace c <| hw c <| mem_of_mem_head? hc) ?_
    obtain rfl | rfl | rfl := hts t rfl
    all_goals simp [isNumeric, Char.isDigit]

theorem length_le (h : Spaced ts cs) : ts.length ≤ cs.length := by
  induction h
  case nil => simp
  case cons ht _ hi =>
    have := length_pos_iff.mpr ht
    simp only [length_cons, length_append]
    omega

end Spaced

theorem IsNumber.head_cases {number : List Char} (h : IsNumber number) :
    ∃ c cs, number = c :: cs ∧ (c = '-' ∨ c.isDigit) := by
  cases h
  case negative => exact ⟨'-', _, rfl, .inl rfl⟩
  case positive hwhole _ _ =>
    obtain ⟨d, ds, rfl⟩ := exists_cons_of_ne_nil hwhole.isDigits.1
    exact ⟨d, _, rfl, .inr <| hwhole.isDigits.2 d mem_cons_self⟩

theorem follows_cons : Follows ([','] :: ts) := by
  simp [Follows]

theorem exists_steps (h : 2 * (t :: ts).length ≤ n) : ∃ k, n = k + 1 ∧ 2 * ts.length < k := by
  rw [length_cons] at h
  exact ⟨n - 1, by omega, by omega⟩

theorem isSpace_of_numeric (hc : c = '-' ∨ c.isDigit) : isSpace c = false := by
  rw [← Bool.not_eq_true]
  intro h
  simp only [isSpace, Bool.or_eq_true, beq_iff_eq] at h
  obtain ((rfl | rfl) | rfl) | rfl := h <;> simp [Char.isDigit] at hc

theorem skipIn_number (hc : c = '-' ∨ c.isDigit) (hdrop : dropSpace cs = c :: t) :
    skipIn (n + 1) cs = skipNumber (c :: t) := by
  have hother : c ∉ ['n', 't', 'f', '"', '[', '\x7b'] := by
    intro h
    simp only [mem_cons, not_mem_nil, or_false] at h
    obtain rfl | rfl | rfl | rfl | rfl | rfl := h <;> simp [Char.isDigit] at hc
  simp only [mem_cons, not_mem_nil, or_false, not_or] at hother
  simp [skipIn, hdrop, hother, hc]

-- A value starts neither with white space nor with a closing bracket.
theorem IsValue.head_cases (h : IsValue vs) :
    ∃ c t us, vs = (c :: t) :: us ∧ isSpace c = false ∧ c ≠ ']' := by
  cases h
  case word hword =>
    simp only [mem_cons, not_mem_nil, or_false] at hword
    obtain rfl | rfl | rfl := hword <;> exact ⟨_, _, _, rfl, by decide, by decide⟩
  case number hnumber =>
    obtain ⟨c, t, rfl, hc⟩ := hnumber.head_cases
    refine ⟨c, t, _, rfl, isSpace_of_numeric hc, ?_⟩
    rintro rfl
    simp [Char.isDigit] at hc
  all_goals exact ⟨_, _, _, rfl, by decide, by decide⟩

theorem AreItems.head_cases (h : AreItems vs) :
    ∃ c t us, vs = (c :: t) :: us ∧ isSpace c = false ∧ c ≠ ']' := by
  cases h
  case last hvalue | cons hvalue _ =>
    obtain ⟨c, t, us, rfl, hc⟩ := hvalue.head_cases
    exact ⟨c, t, _, rfl, hc⟩

theorem AreMembers.head_cases (h : AreMembers vs) : ∃ t us, vs = ('"' :: t) :: us := by
  cases h
  all_goals exact ⟨_, _, rfl⟩

-- A value is passed over exactly up to its end, whatever it is. Every bracket and every item has tokens of
-- its own, by which the steps are counted.
mutual

theorem IsValue.skipIn {vs ts : List (List Char)} {cs : List Char} {n : Nat} :
    IsValue vs → 2 * vs.length ≤ n → Follows ts → Spaced (vs ++ ts) cs →
      ∃ rest, Json.skipIn n cs = .ok rest ∧ Spaced ts rest
  | .word hword, hn, hts, hcs => by
    obtain ⟨n, rfl, hsteps⟩ := exists_steps hn
    simp only [mem_cons, not_mem_nil, or_false] at hword
    obtain rfl | rfl | rfl := hword
    all_goals
      have ⟨rest, hdrop, hrest⟩ := hcs.dropSpace_cons (by decide)
      exact ⟨rest, by simp [Json.skipIn, hdrop, readWord], hrest⟩
  | .number hnumber, hn, hts, hcs => by
    obtain ⟨n, rfl, hsteps⟩ := exists_steps hn
    obtain ⟨c, t, rfl, hc⟩ := hnumber.head_cases
    have ⟨rest, hdrop, hrest⟩ := hcs.dropSpace_cons (isSpace_of_numeric hc)
    exact ⟨rest, (skipIn_number hc hdrop).trans <| skipNumber_isNumber hnumber <| hrest.not_isNumeric hts, hrest⟩
  | .string hbody, hn, hts, hcs => by
    obtain ⟨n, rfl, hsteps⟩ := exists_steps hn
    have ⟨rest, hdrop, hrest⟩ := hcs.dropSpace_quoted
    exact ⟨rest, by simp [Json.skipIn, hdrop, skipString_isBody hbody], hrest⟩
  | .emptyArray, hn, hts, hcs => by
    obtain ⟨n, rfl, hsteps⟩ := exists_steps hn
    have ⟨inner, hdrop, hinner⟩ := hcs.dropSpace_cons (by decide)
    have ⟨rest, hcloses, hrest⟩ := hinner.closesAtOnce (by decide)
    exact ⟨rest, by simp [Json.skipIn, hdrop, hcloses], hrest⟩
  | .array hitems, hn, hts, hcs => by
    obtain ⟨n, rfl, hsteps⟩ := exists_steps hn
    have ⟨inner, hdrop, hinner⟩ := hcs.dropSpace_cons (by decide)
    have hcloses : closesAtOnce ']' inner = .ok none := by
      obtain ⟨c, t, us, rfl, hspace, hne⟩ := hitems.head_cases
      exact hinner.closesAtOnce_of_ne hspace hne
    have ⟨rest, hskip, hrest⟩ := hitems.skipItems (Nat.le_of_lt hsteps) hinner
    exact ⟨rest, by simp [Json.skipIn, hdrop, hcloses, hskip], hrest⟩
  | .emptyObject, hn, hts, hcs => by
    obtain ⟨n, rfl, hsteps⟩ := exists_steps hn
    have ⟨inner, hdrop, hinner⟩ := hcs.dropSpace_cons (by decide)
    have ⟨rest, hcloses, hrest⟩ := hinner.closesAtOnce (by decide)
    exact ⟨rest, by simp [Json.skipIn, hdrop, hcloses], hrest⟩
  | .object hmembers, hn, hts, hcs => by
    obtain ⟨n, rfl, hsteps⟩ := exists_steps hn
    have ⟨inner, hdrop, hinner⟩ := hcs.dropSpace_cons (by decide)
    have hcloses : closesAtOnce '\x7d' inner = .ok none := by
      obtain ⟨t, us, rfl⟩ := hmembers.head_cases
      exact hinner.closesAtOnce_of_ne (by decide) (by decide)
    have ⟨rest, hskip, hrest⟩ := hmembers.skipMembers (Nat.le_of_lt hsteps) hinner
    exact ⟨rest, by simp [Json.skipIn, hdrop, hcloses, hskip], hrest⟩

theorem AreItems.skipItems {is ts : List (List Char)} {cs : List Char} {n : Nat} :
    AreItems is → 2 * is.length ≤ n → Spaced (is ++ ts) cs →
      ∃ rest, Json.skipItems n cs = .ok rest ∧ Spaced ts rest
  | .last hvalue, hn, hcs => by
    rw [append_assoc] at hcs
    rw [length_append, length_singleton] at hn
    obtain ⟨n, rfl⟩ := Nat.exists_eq_add_of_le' (show 1 ≤ n by omega)
    have ⟨inner, hskip, hinner⟩ := hvalue.skipIn (n := n) (by omega) (by simp [Follows]) hcs
    have ⟨rest, hnext, hrest⟩ := hinner.next_closing (by decide) (by decide)
    exact ⟨rest, by simp [Json.skipItems, hskip, hnext], hrest⟩
  | .cons hvalue hitems, hn, hcs => by
    rw [append_assoc] at hcs
    rw [length_append, length_cons] at hn
    obtain ⟨n, rfl⟩ := Nat.exists_eq_add_of_le' (show 1 ≤ n by omega)
    have ⟨inner, hskip, hinner⟩ := hvalue.skipIn (n := n) (by omega) follows_cons hcs
    have ⟨rest, hnext, hrest⟩ := hinner.next_comma ']'
    have ⟨rest, hskips, hrest⟩ := hitems.skipItems (n := n) (by omega) hrest
    exact ⟨rest, by simp [Json.skipItems, hskip, hnext, hskips], hrest⟩

theorem AreMembers.skipMembers {ms ts : List (List Char)} {cs : List Char} {n : Nat} :
    AreMembers ms → 2 * ms.length ≤ n → Spaced (ms ++ ts) cs →
      ∃ rest, Json.skipMembers n cs = .ok rest ∧ Spaced ts rest
  | .last hbody hvalue, hn, hcs => by
    simp only [cons_append, append_assoc] at hcs
    obtain ⟨n, rfl, hsteps⟩ := exists_steps hn
    rw [length_cons, length_append] at hsteps
    have ⟨key, hdrop, hkey⟩ := hcs.dropSpace_quoted
    have ⟨colon, hcolon, hrest⟩ := hkey.afterColon
    have ⟨inner, hskip, hinner⟩ := hvalue.skipIn (n := n) (by omega) (by simp [Follows]) hrest
    have ⟨rest, hnext, hrest⟩ := hinner.next_closing (by decide) (by decide)
    exact ⟨rest, by simp [Json.skipMembers, hdrop, skipString_isBody hbody, hcolon, hskip, hnext], hrest⟩
  | .cons hbody hvalue hmembers, hn, hcs => by
    simp only [cons_append, append_assoc] at hcs
    obtain ⟨n, rfl, hsteps⟩ := exists_steps hn
    rw [length_cons, length_append, length_cons] at hsteps
    have ⟨key, hdrop, hkey⟩ := hcs.dropSpace_quoted
    have ⟨colon, hcolon, hrest⟩ := hkey.afterColon
    have ⟨inner, hskip, hinner⟩ := hvalue.skipIn (n := n) (by omega) follows_cons hrest
    have ⟨rest, hnext, hrest⟩ := hinner.next_comma '\x7d'
    have ⟨rest, hskips, hrest⟩ := hmembers.skipMembers (n := n) (by omega) hrest
    exact ⟨rest, by simp [Json.skipMembers, hdrop, skipString_isBody hbody, hcolon, hskip, hnext, hskips],
      hrest⟩

end

theorem IsValue.skipValue (h : IsValue vs) (hts : Follows ts) (hcs : Spaced (vs ++ ts) cs) :
    ∃ rest, Json.skipValue cs = .ok rest ∧ Spaced ts rest := by
  have hlength := hcs.length_le
  rw [length_append] at hlength
  exact h.skipIn (by rw [steps]; omega) hts hcs

end

end RenderMemo.Json
