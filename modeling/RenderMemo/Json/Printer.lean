import RenderMemo.Json.Basic

namespace RenderMemo.Json

-- The digit of a value below sixteen, in lower case.
def hexDigit (n : Nat) : Char :=
  Nat.digitChar n

-- How a character is written inside a string: quotes, backslashes and control characters below the
-- blank are escaped, with the short escape where there is one.
def escapeChar (c : Char) : List Char :=
  match c with
  | '"'    => ['\\', '"']
  | '\\'   => ['\\', '\\']
  | '\x08' => ['\\', 'b']
  | '\x0c' => ['\\', 'f']
  | '\n'   => ['\\', 'n']
  | '\r'   => ['\\', 'r']
  | '\t'   => ['\\', 't']
  | c =>
    if c.toNat < 0x20 then
      ['\\', 'u', '0', '0', hexDigit (c.toNat / 16), hexDigit (c.toNat % 16)]
    else
      [c]

-- A string in quotes.
def quote (s : String) : String :=
  String.ofList ('"' :: (s.toList.flatMap escapeChar ++ ['"']))

-- A number: an integer in its digits, any other with a point before its last `places` digits.
def numeral (mantissa : Int) : Nat → String
  | 0 => toString mantissa
  | places + 1 =>
    let digits := (Nat.toDigits 10 mantissa.natAbs).leftpad (places + 2) '0'
    let point := digits.length - (places + 1)
    String.ofList ((if mantissa < 0 then ['-'] else []) ++
      digits.take point ++ '.' :: digits.drop point)

-- A value on one line, without blanks.
mutual

def compact : Json → String
  | .null => "null"
  | .bool true => "true"
  | .bool false => "false"
  | .num m p => numeral m p
  | .str s => quote s
  | .arr items => "[" ++ ",".intercalate (compactItems items) ++ "]"
  | .obj members => "\x7b" ++ ",".intercalate (compactMembers members) ++ "\x7d"

def compactItems : List Json → List String
  | [] => []
  | j :: js => compact j :: compactItems js

def compactMembers : List (String × Json) → List String
  | [] => []
  | (k, j) :: ms => (quote k ++ ":" ++ compact j) :: compactMembers ms

end

-- The start of a line that is indented by two blanks for each level.
def newline (level : Nat) : String :=
  String.ofList ('\n' :: List.replicate (2 * level) ' ')

-- The parts of an array or object, one on each line, between its brackets.
def block (opening closing : String) (level : Nat) : List String → String
  | [] => opening ++ closing
  | parts =>
    opening ++ newline (level + 1) ++ ("," ++ newline (level + 1)).intercalate parts ++
      newline level ++ closing

-- A value over several lines.
mutual

def pretty (level : Nat) : Json → String
  | .null => "null"
  | .bool true => "true"
  | .bool false => "false"
  | .num m p => numeral m p
  | .str s => quote s
  | .arr items => block "[" "]" level (prettyItems (level + 1) items)
  | .obj members => block "\x7b" "\x7d" level (prettyMembers (level + 1) members)

def prettyItems (level : Nat) : List Json → List String
  | [] => []
  | j :: js => pretty level j :: prettyItems level js

def prettyMembers (level : Nat) : List (String × Json) → List String
  | [] => []
  | (k, j) :: ms => (quote k ++ ": " ++ pretty level j) :: prettyMembers level ms

end

end RenderMemo.Json
