import RenderMemo.Command.Options

namespace RenderMemo.Command

-- Why a command line is refused. Help is asked for instead of a run, which ends the reading too.
inductive UsageError where
  | unknownArgument
  | argumentConflict
  | tooManyValues
  | invalidValue
  | valueValidation
  | missingRequiredArgument
  | displayHelp
deriving DecidableEq, Repr

namespace UsageError

def message : UsageError → String
  | unknownArgument => "an argument is not known"
  | argumentConflict => "an option is given twice"
  | tooManyValues => "a value is given to an option that takes none"
  | invalidValue => "the value of an option is missing or not one of its values"
  | valueValidation => "the value of an option is not a size"
  | missingRequiredArgument => "a file is required"
  | displayHelp => "help is asked for"

end UsageError

-- A size of at most 64 bits in decimal digits, which a plus sign may precede.
def sizeOfText? (s : String) : Option UInt64 :=
  let digits := match s.toList with
    | '+' :: ds => ds
    | ds => ds
  if digits.isEmpty || !digits.all Char.isDigit then
    none
  else
    let n := digits.foldl (fun n d => 10 * n + (d.toNat - '0'.toNat)) 0
    if n < UInt64.size then some (UInt64.ofNat n) else none

def pathOfText (s : String) : Except UsageError String :=
  if s.isEmpty then .error .invalidValue else .ok s

namespace Options

def has (o : Options) : Valued → Bool
  | .config => o.config.isSome
  | .cacheSize => o.cacheSize.isSome
  | .memoizeModule => o.memoizeModule.isSome
  | .importStyle => o.importStyle.isSome
  | .outDir => o.outDir.isSome

-- Takes the value of an option that was not given before.
def assign (o : Options) (option : Valued) (value : String) : Except UsageError Options :=
  if o.has option then
    .error .argumentConflict
  else
    match option with
    | .config => do return { o with config := some (← pathOfText value) }
    | .outDir => do return { o with outDir := some (← pathOfText value) }
    | .memoizeModule => .ok { o with memoizeModule := some value }
    | .cacheSize =>
      match sizeOfText? value with
      | some n => .ok { o with cacheSize := some n }
      | none => .error .valueValidation
    | .importStyle =>
      match styleOfName? value with
      | some style => .ok { o with importStyle := some style }
      | none => .error .invalidValue

-- Raises a flag that was not raised before.
def raise (o : Options) : Flag → Except UsageError Options
  | .dedupeCaptures =>
    if o.dedupeCaptures then .error .argumentConflict else .ok { o with dedupeCaptures := true }
  | .list => if o.list then .error .argumentConflict else .ok { o with list := true }
  | .printSchema =>
    if o.printSchema then .error .argumentConflict else .ok { o with printSchema := true }
  | .verbose => if o.verbose then .error .argumentConflict else .ok { o with verbose := true }
  | .help => .error .displayHelp

end Options

-- What was read and not checked yet: some paths, or an option whose value may still be to come.
inductive Pending where
  | nothing
  | paths (ps : List String)
  | option (o : Valued) (value : Option String)
deriving DecidableEq, Repr

-- The state of reading a command line. Behind two hyphens everything is a path.
structure Reading where
  options   : Options := {}
  pending   : Pending := .nothing
  pathsOnly : Bool    := false
deriving DecidableEq, Repr

namespace Reading

-- Checks what is pending.
def settle (r : Reading) : Except UsageError Reading :=
  match r.pending with
  | .nothing => .ok r
  | .paths ps => do
    let ps ← ps.mapM pathOfText
    return { r with pending := .nothing, options := { r.options with files := r.options.files ++ ps } }
  | .option _ none => .error .invalidValue
  | .option o (some value) => do
    return { r with pending := .nothing, options := ← r.options.assign o value }

-- An option with its value, if that is attached. A value that is not attached is the next argument.
def valued (r : Reading) (o : Valued) (attached : Option String) : Except UsageError Reading := do
  let r ← r.settle
  match attached with
  | none => return { r with pending := .option o none }
  | some value => return { r with options := ← r.options.assign o value }

def flag (r : Reading) (f : Flag) : Except UsageError Reading := do
  let r ← r.settle
  return { r with options := ← r.options.raise f }

def path (r : Reading) (p : String) : Except UsageError Reading :=
  match r.pending with
  | .paths ps => .ok { r with pending := .paths (ps ++ [p]) }
  | _ => do
    let r ← r.settle
    return { r with pending := .paths [p] }

-- An argument that starts with two hyphens, without them.
def long (r : Reading) (text : List Char) : Except UsageError Reading :=
  let name := text.takeWhile (· != '=')
  let attached := match text.dropWhile (· != '=') with
    | [] => none
    | _ :: value => some (String.ofList value)
  match Switch.ofName? (String.ofList name), attached with
  | none, _ => .error .unknownArgument
  | some (.valued o), attached => r.valued o attached
  | some (.flag _), some _ => .error .tooManyValues
  | some (.flag f), none => r.flag f

-- The letters behind a single hyphen. What follows the letter of an option with a value is its value.
def letters (r : Reading) : List Char → Except UsageError Reading
  | [] => .ok r
  | c :: cs =>
    match Switch.ofLetter? c with
    | none => .error .unknownArgument
    | some (.flag f) => do
      let r ← r.flag f
      r.letters cs
    | some (.valued o) =>
      match cs with
      | [] => r.valued o none
      | '=' :: value => r.valued o (some (String.ofList value))
      | value => r.valued o (some (String.ofList value))

-- An argument that is no option: a value if one is to come, and a path otherwise.
def plain (r : Reading) (arg : String) : Except UsageError Reading :=
  match r.pending with
  | .option o none => .ok { r with pending := .option o (some arg) }
  | _ => r.path arg

def argument (r : Reading) (arg : String) : Except UsageError Reading :=
  if r.pathsOnly then
    r.path arg
  else
    match arg.toList with
    | ['-', '-'] => .ok { r with pathsOnly := true }
    | '-' :: '-' :: text => r.long text
    | '-' :: c :: cs => r.letters (c :: cs)
    | _ => r.plain arg

-- Some path is needed unless only the schema is asked for.
def finish (r : Reading) : Except UsageError Options := do
  let r ← r.settle
  if r.options.files.isEmpty && !r.options.printSchema then throw .missingRequiredArgument
  return r.options

end Reading

-- Reads a command line from left to right.
def Options.ofArgs (args : List String) : Except UsageError Options := do
  let r ← args.foldlM Reading.argument {}
  r.finish

end RenderMemo.Command
