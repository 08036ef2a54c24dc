namespace RenderMemo

-- The names that are taken in one program.
structure Names where
  taken : List String

namespace Names

-- The names that may be handed out for a base, in the order in which they are tried:
-- `_base`, `_base2`, `_base3`, and so on.
def candidate (base : String) : Nat → String
  | 0 => "_" ++ base
  | i + 1 => "_" ++ base ++ toString (i + 2)

-- The place of the first candidate that is free. One of the first candidates is, as there is one more
-- of them than there are names taken.
def firstFree (names : Names) (base : String) : Nat :=
  ((List.range (names.taken.length + 1)).find? fun i => !names.taken.contains (candidate base i)).getD
    names.taken.length

-- Takes the first free name for a base.
def generate (names : Names) (base : String) : String × Names :=
  let name := candidate base (names.firstFree base)
  (name, ⟨name :: names.taken⟩)

-- Takes several names for one base, one after the other.
def generateMany (names : Names) (base : String) : Nat → List String × Names
  | 0 => ([], names)
  | k + 1 =>
    let (name, names₁) := names.generate base
    let (others, names₂) := names₁.generateMany base k
    (name :: others, names₂)

-- Takes several names that are never used.
def reserve (names : Names) (base : String) (k : Nat) : Names :=
  (names.generateMany base k).2

end Names

end RenderMemo
