import RenderMemo.Decimal.Double
import RenderMemo.Json.Basic

namespace RenderMemo.Json

-- Why a text is refused: it is not JSON, it ends too early, or it holds a value of another type than
-- the one that is asked for. A text is read from left to right, and the first fault decides.
inductive Fault where
  | malformed
  | truncated
  | mistyped
deriving DecidableEq, Repr

namespace Fault

def message : Fault → String
  | malformed => "malformed JSON text"
  | truncated => "JSON text ends too early"
  | mistyped => "JSON value of an unexpected type"

end Fault

def isSpace (c : Char) : Bool :=
  c == ' ' || c == '\t' || c == '\n' || c == '\r'

-- The text after the white space at its start.
def dropSpace (cs : List Char) : List Char :=
  cs.dropWhile isSpace

-- Reads the rest of a fixed word.
def readWord : List Char → List Char → Except Fault (List Char)
  | [], cs => .ok cs
  | _ :: _, [] => .error .truncated
  | e :: es, c :: cs => if e = c then readWord es cs else .error .malformed

def hexValue? (c : Char) : Option Nat :=
  if c.isDigit then some (c.toNat - '0'.toNat)
  else if 'a' ≤ c && c ≤ 'f' then some (c.toNat - 'a'.toNat + 10)
  else if 'A' ≤ c && c ≤ 'F' then some (c.toNat - 'A'.toNat + 10)
  else none

-- The value of four hexadecimal digits.
def unit? (a b c d : Char) : Option Nat := do
  return ((← hexValue? a) * 16 + (← hexValue? b)) * 256 + ((← hexValue? c) * 16 + (← hexValue? d))

-- The fault of an escape with too few digits. Four bytes are taken at once, so the text ends too early
-- if fewer than four bytes are left, and is malformed otherwise.
def shortEscape (cs : List Char) : Fault :=
  if cs.foldr (·.utf8Size + ·) 0 < 4 then .truncated else .malformed

-- The character that a single letter after a backslash stands for.
def escaped? : Char → Option Char
  | '"' => some '"'
  | '\\' => some '\\'
  | '/' => some '/'
  | 'b' => some '\x08'
  | 'f' => some '\x0c'
  | 'n' => some '\n'
  | 'r' => some '\r'
  | 't' => some '\t'
  | _ => none

def isLeading (u : Nat) : Bool := 0xd800 ≤ u && u < 0xdc00

def isTrailing (u : Nat) : Bool := 0xdc00 ≤ u && u < 0xe000

-- The character that a leading and a trailing unit stand for together.
def combine (leading trailing : Nat) : Char :=
  Char.ofNat (0x10000 + (leading - 0xd800) * 0x400 + (trailing - 0xdc00))

def prepend (c : Char) : List Char × List Char → List Char × List Char
  | (s, rest) => (c :: s, rest)

-- Reads a string behind its opening quote. A leading unit has to be followed by a trailing one.
def readString : List Char → Except Fault (List Char × List Char)
  | [] => .error .truncated
  | '"' :: cs => .ok ([], cs)
  | '\\' :: 'u' :: a :: b :: c :: d :: cs =>
    match unit? a b c d with
    | none => .error .malformed
    | some u =>
      if isTrailing u then
        .error .malformed
      else if isLeading u then
        match cs with
        | '\\' :: 'u' :: e :: f :: g :: h :: cs =>
          match unit? e f g h with
          | none => .error .malformed
          | some v =>
            if isTrailing v then (readString cs).map (prepend (combine u v)) else .error .malformed
        | '\\' :: 'u' :: cs => .error (shortEscape cs)
        | [] | ['\\'] => .error .truncated
        | _ => .error .malformed
      else
        (readString cs).map (prepend (Char.ofNat u))
  | '\\' :: 'u' :: cs => .error (shortEscape cs)
  | ['\\'] => .error .truncated
  | '\\' :: e :: cs =>
    match escaped? e with
    | some c => (readString cs).map (prepend c)
    | none => .error .malformed
  | c :: cs => if c.toNat < 0x20 then .error .malformed else (readString cs).map (prepend c)

-- Passes over a string behind its opening quote. Its units may stand alone.
def skipString : List Char → Except Fault (List Char)
  | [] => .error .truncated
  | '"' :: cs => .ok cs
  | '\\' :: 'u' :: a :: b :: c :: d :: cs =>
    if (unit? a b c d).isSome then skipString cs else .error .malformed
  | '\\' :: 'u' :: cs => .error (shortEscape cs)
  | ['\\'] => .error .truncated
  | '\\' :: e :: cs => if (escaped? e).isSome then skipString cs else .error .malformed
  | c :: cs => if c.toNat < 0x20 then .error .malformed else skipString cs

-- A number as it is written.
structure Numeral where
  negative : Bool
  whole    : List Char
  fraction : List Char
  exponent : Option Int

namespace Numeral

def digitsValue (ds : List Char) : Nat :=
  ds.foldl (fun n d => 10 * n + (d.toNat - '0'.toNat)) 0

-- The integer that a numeral without fraction and exponent stands for.
def integer? (n : Numeral) : Option Nat :=
  if n.fraction.isEmpty && n.exponent.isNone then some (digitsValue n.whole) else none

-- The longest start of the digits that fits into 64 bits, and the digits after it.
def significand (value : Nat) : List Char → Nat × List Char
  | [] => (value, [])
  | d :: ds =>
    let next := 10 * value + (d.toNat - '0'.toNat)
    if next < UInt64.size then significand next ds else (value, d :: ds)

-- Whether a number is too large for a double.
def isOutOfRange (n : Numeral) : Bool :=
  let digits := n.whole ++ n.fraction
  let (m, rest) := significand 0 digits
  let e := (n.whole.length : Int) - (digits.length - rest.length : Nat) + n.exponent.getD 0
  m != 0 && (308 < e ||
    (0 ≤ e && Nat.pow 2 1024 - Nat.pow 2 970 ≤
      Decimal.toDouble m * Decimal.toDouble (Nat.pow 10 e.toNat)))

end Numeral

-- Reads the digits of a part of a number that has at least one.
def readDigits (cs : List Char) : Except Fault (List Char × List Char) :=
  match cs.takeWhile Char.isDigit, cs with
  | [], [] => .error .truncated
  | [], _ => .error .malformed
  | ds, _ => .ok (ds, cs.dropWhile Char.isDigit)

-- Reads the part of a number before the point. Only a lone zero may start with zero.
def readWhole : List Char → Except Fault (List Char × List Char)
  | '0' :: d :: cs => if d.isDigit then .error .malformed else .ok (['0'], d :: cs)
  | cs => readDigits cs

def readFraction : List Char → Except Fault (List Char × List Char)
  | '.' :: cs => readDigits cs
  | cs => .ok ([], cs)

def signed (negative : Bool) (n : Nat) : Int :=
  if negative then -n else n

def readExponentDigits (negative : Bool) (cs : List Char) : Except Fault (Option Int × List Char) := do
  let (ds, cs) ← readDigits cs
  return (some (signed negative (Numeral.digitsValue ds)), cs)

def readExponent : List Char → Except Fault (Option Int × List Char)
  | c :: cs =>
    if c == 'e' || c == 'E' then
      match cs with
      | '+' :: cs => readExponentDigits false cs
      | '-' :: cs => readExponentDigits true cs
      | cs => readExponentDigits false cs
    else
      .ok (none, c :: cs)
  | [] => .ok (none, [])

def readMagnitude (negative : Bool) (cs : List Char) : Except Fault (Numeral × List Char) := do
  let (whole, cs) ← readWhole cs
  let (fraction, cs) ← readFraction cs
  let (exponent, cs) ← readExponent cs
  return (⟨negative, whole, fraction, exponent⟩, cs)

-- Reads a numeral of any size.
def readNumeral : List Char → Except Fault (Numeral × List Char)
  | '-' :: cs => readMagnitude true cs
  | cs => readMagnitude false cs

-- Reads a number. One that is too large for a double is refused.
def readNumber (cs : List Char) : Except Fault (Numeral × List Char) := do
  let (n, cs) ← readNumeral cs
  if n.isOutOfRange then throw .malformed else return (n, cs)

-- Passes over a number of any size. One that ends too early counts as malformed.
def skipNumber (cs : List Char) : Except Fault (List Char) :=
  match readNumeral cs with
  | .ok (_, cs) => .ok cs
  | .error _ => .error .malformed

end RenderMemo.Json
