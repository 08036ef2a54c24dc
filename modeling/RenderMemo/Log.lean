import RenderMemo.Tree.Basic

namespace RenderMemo

-- The severity of a message.
inductive Level where
  | debug
  | info
  | warn
  | error
deriving DecidableEq, Repr

namespace Level

def text : Level → String
  | debug => "DEBUG"
  | info => "INFO"
  | warn => "WARN"
  | error => "ERROR"

-- The severity as a number, which grows with it.
def rank : Level → Nat
  | debug => 0
  | info => 1
  | warn => 2
  | error => 3

def compare (a b : Level) : Ordering := Ord.compare a.rank b.rank

end Level

-- A message. It may be about a place in the source text, where a generated span stands for what is in
-- no source text.
structure LogEntry where
  level : Level
  place : Option Span := none
  text  : String
deriving DecidableEq, Repr

namespace LogEntry

-- The text of a message, in which the place is described in front.
def render (describe : Span → String) (e : LogEntry) : String :=
  match e.place with
  | none => e.text
  | some s => describe s ++ " :: " ++ e.text

def debug (text : String) : LogEntry := { level := .debug, text }

def info (text : String) : LogEntry := { level := .info, text }

def warn (text : String) : LogEntry := { level := .warn, text }

def error (text : String) : LogEntry := { level := .error, text }

end LogEntry

-- A message as it reaches the reader.
structure LogLine where
  level : Level
  text  : String
deriving DecidableEq, Repr

-- The messages of exactly one level.
def linesAt (level : Level) (log : List LogLine) : List String :=
  (log.filter (·.level == level)).map LogLine.text

-- The messages of at least some level.
def linesFrom (level : Level) (log : List LogLine) : List LogLine :=
  log.filter fun line => level.rank ≤ line.level.rank

end RenderMemo
