import RenderMemo.Text.Width
import RenderMemo.Tree.Basic

namespace RenderMemo

-- A named source text. Positions in it are counted in bytes of its UTF-8 form.
structure SourceText where
  name : String
  text : String

namespace SourceText

-- The byte order mark at the start of a file is no part of its text.
def ofFile (name contents : String) : SourceText :=
  match contents.toList with
  | '\ufeff' :: cs => ⟨name, String.ofList cs⟩
  | _ => ⟨name, contents⟩

-- The positions after line ends in a text that starts at a position. A carriage return ends a line
-- unless a line feed follows it.
def afterLineEnds (position : Nat) : List Char → List Nat
  | [] => []
  | '\r' :: '\n' :: cs => (position + 2) :: afterLineEnds (position + 2) cs
  | c :: cs =>
    let next := position + c.utf8Size
    if c = '\n' || c = '\r' then next :: afterLineEnds next cs else afterLineEnds next cs

-- The positions at which lines start. A line that would start at the end of the text is none.
def lineStarts (s : SourceText) : List Nat :=
  (0 :: afterLineEnds 0 s.text.toList).filter (· != s.text.utf8ByteSize)

-- The columns that the characters from one position up to another take.
def columnsBetween (start stop position : Nat) : List Char → Nat
  | [] => 0
  | c :: cs =>
    (if start ≤ position && position < stop then Text.columns c else 0) +
      columnsBetween start stop (position + c.utf8Size) cs

-- The line of a position, counted from one, and its column, counted from zero.
def lineColumn (s : SourceText) (position : Nat) : Nat × Nat :=
  let starts := s.lineStarts.filter (· ≤ position)
  (starts.length, columnsBetween (starts.getLastD 0) position 0 s.text.toList)

-- A position as `file:line:column`.
def describePosition (s : SourceText) (position : Nat) : String :=
  let (line, column) := s.lineColumn position
  s.name ++ ":" ++ toString line ++ ":" ++ toString column

-- Where a span of a file starts. The text of a file starts at position one.
def describe (s : SourceText) (span : Span) : String :=
  if span.isGenerated then "<generated>" else s.describePosition (span.start - 1)

end SourceText

-- A span by its bare numbers, where no source text is at hand.
def Span.describe (s : Span) : String :=
  toString s.start ++ "-" ++ toString s.stop

end RenderMemo
