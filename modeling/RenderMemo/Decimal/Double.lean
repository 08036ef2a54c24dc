namespace RenderMemo.Decimal

-- The exponent of the unit in the last place of a double near `n`: doubles have 53 significant bits.
def unitExponent (n : Nat) : Nat :=
  (n.log2 + 1) - 53

-- `n / d` to the nearest whole number, a half to the even neighbour.
def divNearest (n d : Nat) : Nat :=
  let q := n / d
  let r := n % d
  if 2 * r < d then q
  else if d < 2 * r then q + 1
  else if q % 2 = 0 then q else q + 1

-- The double nearest to `n`, a tie to the one with even significand.
def toDouble (n : Nat) : Nat :=
  let unit := Nat.pow 2 (unitExponent n)
  divNearest n unit * unit

-- The two multiples of `10 ^ k` around `n`.
def neighbours (n k : Nat) : List Nat :=
  let unit := Nat.pow 10 k
  [n / unit * unit, (n / unit + 1) * unit]

def distance (a b : Nat) : Nat :=
  (a - b) + (b - a)

-- The nearest multiple of `10 ^ k` that reads back as the double `n`.
def readsBackAt (n k : Nat) : Option Nat :=
  match (neighbours n k).filter (toDouble · == n) with
  | [] => none
  | [a] => some a
  | a :: b :: _ => some (if distance b n < distance a n then b else a)

-- The decimal digits of the double `n` with the fewest significant digits that read back as `n`.
def shortest (n : Nat) : String :=
  let digits := (toString n).length
  let candidates := (List.range digits).reverse.filterMap (readsBackAt n)
  toString (candidates.headD n)

end RenderMemo.Decimal
