import RenderMemo.Config.Basic
import RenderMemo.Json.Reader

namespace RenderMemo

namespace ImportStyle

-- Reads a name behind the white space in front of it. Anything but a string is refused, and so is a
-- string that is not asked for.
def readName (cs : List Char) : Except Json.Fault (ImportStyle × List Char) := do
  let (s, cs) ← Json.readString cs
  match ofText? (String.ofList s) with
  | some style => return (style, cs)
  | none => throw .mistyped

end ImportStyle

namespace Settings

open Json

-- The fault of a value that stands where one of another type is asked for. A word, number or string is
-- read to its end first, while an array or object is refused at its bracket.
def refuse : List Char → Fault
  | 'n' :: cs => faultOf (readWord ['u', 'l', 'l'] cs)
  | 't' :: cs => faultOf (readWord ['r', 'u', 'e'] cs)
  | 'f' :: cs => faultOf (readWord ['a', 'l', 's', 'e'] cs)
  | '"' :: cs => faultOf (readString cs)
  | '[' :: _ => .mistyped
  | '\x7b' :: _ => .mistyped
  | c :: cs => if c == '-' || c.isDigit then faultOf (readNumber (c :: cs)) else .malformed
  | [] => .truncated
where
  faultOf {α : Type} : Except Fault α → Fault
    | .ok _ => .mistyped
    | .error fault => fault

def readSize (cs : List Char) : Except Fault (UInt64 × List Char) :=
  match dropSpace cs with
  | c :: cs =>
    if c == '-' || c.isDigit then do
      let (n, rest) ← readNumber (c :: cs)
      match n.negative, n.integer? with
      | false, some size =>
        if size < UInt64.size then return (UInt64.ofNat size, rest) else throw .mistyped
      | _, _ => throw .mistyped
    else
      .error (refuse (c :: cs))
  | [] => .error .truncated

def readModule (cs : List Char) : Except Fault (String × List Char) :=
  match dropSpace cs with
  | '"' :: cs => do
    let (s, rest) ← readString cs
    return (String.ofList s, rest)
  | cs => .error (refuse cs)

def readFlag (cs : List Char) : Except Fault (Bool × List Char) :=
  match dropSpace cs with
  | 't' :: cs => do return (true, ← readWord ['r', 'u', 'e'] cs)
  | 'f' :: cs => do return (false, ← readWord ['a', 'l', 's', 'e'] cs)
  | cs => .error (refuse cs)

-- The value of a variant that has none.
def readNull (cs : List Char) : Except Fault (List Char) :=
  match dropSpace cs with
  | 'n' :: cs => readWord ['u', 'l', 'l'] cs
  | cs => .error (refuse cs)

-- An import style is written as its name, or as an object with its name as the only key.
def readStyle (cs : List Char) : Except Fault (ImportStyle × List Char) :=
  match dropSpace cs with
  | [] => .error .truncated
  | '"' :: cs => ImportStyle.readName cs
  | '\x7b' :: cs =>
    match dropSpace cs with
    | '"' :: cs => do
      let (style, cs) ← ImportStyle.readName cs
      let cs ← afterColon cs
      let cs ← readNull cs
      match dropSpace cs with
      | [] => throw .truncated
      | '\x7d' :: rest => return (style, rest)
      | _ => throw .malformed
    | cs => .error (refuse cs)
  | _ => .error .malformed

-- The members that are known.
inductive Member where
  | cacheSize
  | memoizeModule
  | importStyle
  | dedupeCaptures
deriving DecidableEq, Repr

namespace Member

def all : List Member := [cacheSize, memoizeModule, importStyle, dedupeCaptures]

def key : Member → String
  | cacheSize => "cacheSize"
  | memoizeModule => "memoizeModule"
  | importStyle => "importStyle"
  | dedupeCaptures => "dedupeCaptures"

def ofKey? (key : String) : Option Member :=
  all.find? (·.key == key)

end Member

-- The members read so far.
structure Draft where
  cacheSize      : Option UInt64      := none
  memoizeModule  : Option String      := none
  importStyle    : Option ImportStyle := none
  dedupeCaptures : Option Bool        := none
deriving DecidableEq, Repr

namespace Draft

def has (d : Draft) : Member → Bool
  | .cacheSize => d.cacheSize.isSome
  | .memoizeModule => d.memoizeModule.isSome
  | .importStyle => d.importStyle.isSome
  | .dedupeCaptures => d.dedupeCaptures.isSome

-- Absent members take their defaults.
def settings (d : Draft) : Settings where
  cacheSize      := d.cacheSize.getD ({} : Settings).cacheSize
  memoizeModule  := d.memoizeModule.getD ({} : Settings).memoizeModule
  importStyle    := d.importStyle.getD ({} : Settings).importStyle
  dedupeCaptures := d.dedupeCaptures.getD ({} : Settings).dedupeCaptures

-- Reads the value of a member.
def read (d : Draft) (member : Member) (cs : List Char) : Except Fault (Draft × List Char) :=
  match member with
  | .cacheSize => do
    let (value, cs) ← readSize cs
    return ({ d with cacheSize := some value }, cs)
  | .memoizeModule => do
    let (value, cs) ← readModule cs
    return ({ d with memoizeModule := some value }, cs)
  | .importStyle => do
    let (value, cs) ← readStyle cs
    return ({ d with importStyle := some value }, cs)
  | .dedupeCaptures => do
    let (value, cs) ← readFlag cs
    return ({ d with dedupeCaptures := some value }, cs)

-- Reads a member from its key on. A known member is read, and refused at its key if it was read
-- before. An unknown member is passed over.
def readMember (d : Draft) (cs : List Char) : Except Fault (Draft × List Char) := do
  let (key, cs) ← readString cs
  match Member.ofKey? (String.ofList key) with
  | some member =>
    if d.has member then throw .mistyped
    d.read member (← afterColon cs)
  | none => return (d, ← skipValue (← afterColon cs))

-- Reads members up to the closing bracket.
def readMembers : Nat → Draft → List Char → Except Fault (Draft × List Char)
  | 0, _, _ => .error .malformed
  | n + 1, d, cs =>
    match dropSpace cs with
    | '"' :: cs => do
      let (d, cs) ← d.readMember cs
      match ← next '\x7d' cs with
      | .closed rest => return (d, rest)
      | .another rest => readMembers n d rest
    | [] => .error .truncated
    | _ => .error .malformed

-- Reads the members given in their order, as far as the array goes.
def readInOrder (d : Draft) : List Member → List Char → Except Fault (Draft × List Char)
  | [], cs =>
    match dropSpace cs with
    | [] => .error .truncated
    | ']' :: rest => .ok (d, rest)
    | _ => .error .malformed
  | member :: members, cs => do
    let (d, cs) ← d.read member cs
    match dropSpace cs with
    | ']' :: rest => return (d, rest)
    | ',' :: rest =>
      if members.isEmpty then
        throw .malformed
      else
        match dropSpace rest with
        | [] => throw .truncated
        | ']' :: _ => throw .malformed
        | rest => d.readInOrder members rest
    | [] => throw .truncated
    | _ => throw .malformed

end Draft

-- Reads settings from an object, or from an array that gives the members in their order.
def read (cs : List Char) : Except Fault (Draft × List Char) :=
  match dropSpace cs with
  | [] => .error .truncated
  | '\x7b' :: cs => do
    match ← closesAtOnce '\x7d' cs with
    | some rest => return ({}, rest)
    | none => Draft.readMembers (cs.length + 1) {} cs
  | '[' :: cs => do
    match ← closesAtOnce ']' cs with
    | some rest => return ({}, rest)
    | none => Draft.readInOrder {} Member.all cs
  | cs => .error (refuse cs)

def ofText? (text : String) : Except Fault Settings := do
  let (draft, rest) ← read text.toList
  atEnd draft.settings rest

-- The settings as an object with all members.
def toJson (s : Settings) : Json :=
  .obj [("cacheSize", .nat s.cacheSize.toNat), ("memoizeModule", .str s.memoizeModule),
    ("importStyle", .str s.importStyle.text), ("dedupeCaptures", .bool s.dedupeCaptures)]

-- Settings given as a value instead of a text. There is one way to refuse them.

def sizeOf? : Json → Option UInt64
  | .num (.ofNat n) 0 => if n < UInt64.size then some (UInt64.ofNat n) else none
  | _ => none

def styleOf? : Json → Option ImportStyle
  | .str s => ImportStyle.ofText? s
  | .obj [(key, .null)] => ImportStyle.ofText? key
  | _ => none

def moduleOf? : Json → Option String
  | .str s => some s
  | _ => none

def flagOf? : Json → Option Bool
  | .bool b => some b
  | _ => none

-- The value of a member that may be absent.
def member? (read : Json → Option α) : Option Json → Option (Option α)
  | none => some none
  | some j => (read j).map some

def ofJson? (j : Json) : Option Settings := do
  let get ← match j with
    | .obj members => some fun (m : Member) => members.lookup m.key
    | .arr items =>
      if items.length ≤ 4 then some fun (m : Member) => items[Member.all.idxOf m]? else none
    | _ => none
  let draft : Draft := {
    cacheSize := ← member? sizeOf? (get .cacheSize)
    memoizeModule := ← member? moduleOf? (get .memoizeModule)
    importStyle := ← member? styleOf? (get .importStyle)
    dedupeCaptures := ← member? flagOf? (get .dedupeCaptures) }
  return draft.settings

end Settings

end RenderMemo
