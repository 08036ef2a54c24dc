import RenderMemo.Json.Lexeme

namespace RenderMemo.Json

-- Passing over a value needs no more steps than this for every bracket and every item.
def steps (cs : List Char) : Nat :=
  2 * cs.length + 2

-- What follows an item: a comma and another item, or the closing bracket.
inductive Next where
  | another (rest : List Char)
  | closed (rest : List Char)

def next (closing : Char) (cs : List Char) : Except Fault Next :=
  match dropSpace cs with
  | [] => .error .truncated
  | c :: cs =>
    if c == ',' then .ok (.another cs)
    else if c == closing then .ok (.closed cs)
    else .error .malformed

-- Whether a bracket is closed at once.
def closesAtOnce (closing : Char) (cs : List Char) : Except Fault (Option (List Char)) :=
  match dropSpace cs with
  | [] => .error .truncated
  | c :: cs => .ok (if c == closing then some cs else none)

-- The text behind the colon after a key.
def afterColon (cs : List Char) : Except Fault (List Char) :=
  match dropSpace cs with
  | [] => .error .truncated
  | ':' :: cs => .ok cs
  | _ => .error .malformed

-- Passes over values of which nothing is asked but that they are JSON. Strings and numbers may be of
-- any kind, and brackets may be nested to any depth.
mutual

def skipIn : Nat → List Char → Except Fault (List Char)
  | 0, _ => .error .malformed
  | n + 1, cs =>
    match dropSpace cs with
    | [] => .error .truncated
    | 'n' :: cs => readWord ['u', 'l', 'l'] cs
    | 't' :: cs => readWord ['r', 'u', 'e'] cs
    | 'f' :: cs => readWord ['a', 'l', 's', 'e'] cs
    | '"' :: cs => skipString cs
    | '[' :: cs => do
      match ← closesAtOnce ']' cs with
      | some rest => return rest
      | none => skipItems n cs
    | '\x7b' :: cs => do
      match ← closesAtOnce '\x7d' cs with
      | some rest => return rest
      | none => skipMembers n cs
    | c :: cs => if c == '-' || c.isDigit then skipNumber (c :: cs) else .error .malformed

def skipItems : Nat → List Char → Except Fault (List Char)
  | 0, _ => .error .malformed
  | n + 1, cs => do
    let cs ← skipIn n cs
    match ← next ']' cs with
    | .closed rest => return rest
    | .another rest => skipItems n rest

def skipMembers : Nat → List Char → Except Fault (List Char)
  | 0, _ => .error .malformed
  | n + 1, cs =>
    match dropSpace cs with
    | [] => .error .truncated
    | '"' :: cs => do
      let cs ← skipString cs
      let cs ← afterColon cs
      let cs ← skipIn n cs
      match ← next '\x7d' cs with
      | .closed rest => return rest
      | .another rest => skipMembers n rest
    | _ => .error .malformed

end

def skipValue (cs : List Char) : Except Fault (List Char) :=
  skipIn (steps cs) cs

-- The value of a numeral. One with a fraction or an exponent has a decimal place, even if it is whole,
-- and so has a negative zero.
def Numeral.value (n : Numeral) : Json :=
  let mantissa := signed n.negative (digitsValue (n.whole ++ n.fraction))
  match n.integer?, n.exponent.getD 0 - n.fraction.length with
  | some m, _ => if n.negative && m == 0 then .num 0 1 else .int mantissa
  | none, .ofNat shift => .num (mantissa * Int.pow 10 (shift + 1)) 1
  | none, .negSucc places => .num mantissa (places + 1)

-- Reads values.
mutual

def readIn : Nat → List Char → Except Fault (Json × List Char)
  | 0, _ => .error .malformed
  | n + 1, cs =>
    match dropSpace cs with
    | [] => .error .truncated
    | 'n' :: cs => do return (.null, ← readWord ['u', 'l', 'l'] cs)
    | 't' :: cs => do return (.bool true, ← readWord ['r', 'u', 'e'] cs)
    | 'f' :: cs => do return (.bool false, ← readWord ['a', 'l', 's', 'e'] cs)
    | '"' :: cs => do
      let (s, cs) ← readString cs
      return (.str (String.ofList s), cs)
    | '[' :: cs => do
      match ← closesAtOnce ']' cs with
      | some rest => return (.arr [], rest)
      | none =>
        let (items, rest) ← readItems n cs
        return (.arr items, rest)
    | '\x7b' :: cs => do
      match ← closesAtOnce '\x7d' cs with
      | some rest => return (.obj [], rest)
      | none =>
        let (members, rest) ← readMembers n cs
        return (.obj members, rest)
    | c :: cs =>
      if c == '-' || c.isDigit then do
        let (n, rest) ← readNumber (c :: cs)
        return (n.value, rest)
      else
        .error .malformed

def readItems : Nat → List Char → Except Fault (List Json × List Char)
  | 0, _ => .error .malformed
  | n + 1, cs => do
    let (item, cs) ← readIn n cs
    match ← next ']' cs with
    | .closed rest => return ([item], rest)
    | .another rest =>
      let (items, rest) ← readItems n rest
      return (item :: items, rest)

def readMembers : Nat → List Char → Except Fault (List (String × Json) × List Char)
  | 0, _ => .error .malformed
  | n + 1, cs =>
    match dropSpace cs with
    | [] => .error .truncated
    | '"' :: cs => do
      let (key, cs) ← readString cs
      let cs ← afterColon cs
      let (value, cs) ← readIn n cs
      match ← next '\x7d' cs with
      | .closed rest => return ([(String.ofList key, value)], rest)
      | .another rest =>
        let (members, rest) ← readMembers n rest
        return ((String.ofList key, value) :: members, rest)
    | _ => .error .malformed

end

-- Only white space may follow a text.
def atEnd (value : α) (cs : List Char) : Except Fault α :=
  if (dropSpace cs).isEmpty then .ok value else .error .malformed

def ofText? (text : String) : Except Fault Json := do
  let cs := text.toList
  let (j, rest) ← readIn (steps cs) cs
  atEnd j rest

end RenderMemo.Json
