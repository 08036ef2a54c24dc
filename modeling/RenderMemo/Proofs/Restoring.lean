import RenderMemo.Proofs.Members
import RenderMemo.Proofs.Printing

open List

namespace RenderMemo.Json

variable {α : Type} {R : α → List (List Char) → Prop} {closing : Char} {as : List α} {ts : List (List Char)}
  {vss : List (List (List Char))}

-- Tokens need no white space between them.
theorem spaced_flatten (h : ∀ t ∈ ts, t ≠ []) : Spaced ts ts.flatten := by
  induction ts
  case nil => exact .nil (by simp)
  case cons t ts hi =>
    have ⟨ht, hts⟩ := forall_mem_cons.mp h
    exact .cons (w := []) (by simp) ht (hi hts)

theorem listed_joined (h : Forall₂ R as vss) (hne : as ≠ []) : Listed R closing as (joined closing vss) := by
  induction h
  case nil => exact absurd rfl hne
  case cons ha hrest hi =>
    cases hrest
    case nil  => exact .last ha
    case cons => exact .cons ha <| hi (by simp)

-- The members of an object as it is printed.
def printedEntries (ms : List (String × Json)) : List Entry :=
  ms.map fun (k, j) => ⟨k, tokens j⟩

theorem spelled_tokensOfMembers (ms : List (String × Json)) :
    Forall₂ Entry.Spelled (printedEntries ms) (tokensOfMembers ms) := by
  induction ms
  case nil          => exact .nil
  case cons m ms hi => exact .cons ⟨_, spells_escape m.1.toList, rfl⟩ hi

theorem isObject_of_spaced {ms : List (String × Json)} {text : String} (hne : ms ≠ [])
    (h : Spaced (tokens (.obj ms)) text.toList) : IsObject (printedEntries ms) text := by
  refine ⟨_, ?_, h⟩
  rw [tokens]
  exact .items <| listed_joined (spelled_tokensOfMembers ms) (by simpa [printedEntries] using hne)

theorem tokens_nat (n : Nat) : tokens (.nat n) = [Nat.toDigits 10 n] := by
  have htext : toString (n : Int) = String.ofList (Nat.toDigits 10 n) := Nat.toString_eq_ofList_toDigits
  simp [nat, int, tokens, numeral, htext]

end RenderMemo.Json

namespace RenderMemo.Settings

open Json

-- What is kept of settings that are written down.
structure Restores (s : Settings) : Prop where
  -- Written on one line they are their tokens,
  printed  : s.toJson.compact.toList = s.toJson.tokens.flatten
  -- and between tokens any white space may stand when they are read again.
  restored : ∀ text, Spaced s.toJson.tokens text.toList → ofText? text = .ok s
  compact  : ofText? s.toJson.compact = .ok s
  checked  : ∀ c, s.validate = .ok c → c.settings = s

-- The value of a known member as it is printed.
def Given.json : Given → Json
  | cacheSize size => .nat size.toNat
  | memoizeModule name => .str name
  | importStyle style => .str style.text
  | dedupeCaptures flag => .bool flag

def Given.entry (g : Given) : String × Json := (g.member.key, g.json)

theorem Given.spelled_json (g : Given) : g.Spelled (tokens g.json) := by
  cases g
  case cacheSize size =>
    rw [json, tokens_nat]
    exact .size (isWhole_toDigits _) Nat.ofDigitChars_ten_toDigits
  case memoizeModule name =>
    rw [json, tokens]
    exact .name <| spells_escape _
  case importStyle style =>
    rw [json, tokens]
    exact .style <| spells_escape _
  case dedupeCaptures flag =>
    cases flag
    case false => exact .off
    case true  => exact .on

theorem mixed_printedEntries (gs : List Given) : Mixed gs (printedEntries (gs.map Given.entry)) := by
  induction gs
  case nil          => exact .nil
  case cons g gs hi => exact .known g.spelled_json hi

section

variable (s : Settings)

theorem toJson_eq : s.toJson = .obj ((Member.all.map s.value).map Given.entry) := rfl

theorem tokens_toJson_ne_nil : ∀ t ∈ s.toJson.tokens, t ≠ [] := by
  obtain ⟨_, _, _, flag⟩ := s
  cases flag <;> simp [toJson, tokens, tokens_nat, joined, tokensOfMembers, token, quoted]

theorem ofText?_of_spaced {text : String} (h : Spaced s.toJson.tokens text.toList) : ofText? text = .ok s := by
  rw [toJson_eq] at h
  rw [ofText?_object (mixed_printedEntries _) <| isObject_of_spaced (by simp [Member.all]) h]
  rfl

end

theorem restores (s : Settings) : Restores s where
  printed      := toList_compact s.toJson
  restored _ h := s.ofText?_of_spaced h
  compact      := s.ofText?_of_spaced <| toList_compact s.toJson ▸ spaced_flatten s.tokens_toJson_ne_nil
  checked _ h  := settings_of_validate h

end RenderMemo.Settings
