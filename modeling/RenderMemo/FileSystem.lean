namespace RenderMemo

-- Why a file operation fails.
inductive FileFault where
  | notFound
  | isADirectory
  | notADirectory
  | alreadyExists
  | invalidData
deriving DecidableEq, Repr

namespace FileFault

def message : FileFault → String
  | notFound => "No such file or directory (os error 2)"
  | isADirectory => "Is a directory (os error 21)"
  | notADirectory => "Not a directory (os error 20)"
  | alreadyExists => "File exists (os error 17)"
  | invalidData => "stream did not contain valid UTF-8"

end FileFault

-- A path is a text whose pieces are separated by slashes.
namespace Path

-- The pieces between slashes. There is one more of them than there are slashes.
def splitSlash : List Char → List (List Char)
  | [] => [[]]
  | '/' :: cs => [] :: splitSlash cs
  | c :: cs =>
    match splitSlash cs with
    | [] => [[c]]
    | p :: ps => (c :: p) :: ps

-- The pieces as they are walked. A slash at the end makes an empty last piece.
def pieces (path : String) : List String := (splitSlash path.toList).map String.ofList

def isAbsolute (path : String) : Bool := path.toList.head? == some '/'

-- The pieces that name something: no empty piece, and a dot only in front of a relative path.
def components (path : String) : List String :=
  let named := (pieces path).filter (· != "")
  match isAbsolute path, named with
  | false, "." :: rest => "." :: rest.filter (· != ".")
  | _, named => named.filter (· != ".")

-- The path of some components.
def ofComponents (absolute : Bool) (cs : List String) : String :=
  (if absolute then "/" else "") ++ "/".intercalate cs

-- The last component, unless it leads upwards or nowhere.
def fileName? (path : String) : Option String :=
  match (components path).getLast? with
  | none => none
  | some name => if name == "." || name == ".." then none else some name

def join (directory name : String) : String :=
  if directory == "" || directory.toList.getLast? == some '/' then directory ++ name
  else directory ++ "/" ++ name

-- The proper ancestors of a path, from its parent upwards.
def ancestors (path : String) : List String :=
  let cs := components path
  let lengths := (List.range cs.length).reverse.filter fun n => 0 < n || isAbsolute path
  lengths.map fun n => ofComponents (isAbsolute path) (cs.take n)

end Path

-- What stands at a place of a file system. A file whose bytes are no UTF-8 has no text.
inductive FileEntry where
  | directory
  | file (text : Option String)
deriving DecidableEq, Repr

-- The files and directories below the root, by the names on the way to them, and the directory in
-- which relative paths start.
structure FileSystem where
  current : List String
  entries : List (List String × FileEntry)

namespace FileSystem

-- The root is always a directory.
def entry? (fs : FileSystem) (place : List String) : Option FileEntry :=
  if place = [] then some .directory else fs.entries.lookup place

def put (fs : FileSystem) (place : List String) (e : FileEntry) : FileSystem :=
  { fs with entries := (place, e) :: fs.entries.filter (·.1 != place) }

-- Walks one piece further from a place, which has to be a directory.
def walk (fs : FileSystem) (place : List String) (piece : String) :
    Except FileFault (List String) :=
  match fs.entry? place with
  | none => .error .notFound
  | some (.file _) => .error .notADirectory
  | some .directory =>
    if piece == "" || piece == "." then .ok place
    else if piece == ".." then .ok place.dropLast
    else .ok (place ++ [piece])

def start (fs : FileSystem) (path : String) : List String :=
  if Path.isAbsolute path then [] else fs.current

-- The place that a path leads to. Everything on the way has to exist, the place itself need not.
def locate (fs : FileSystem) (path : String) : Except FileFault (List String) :=
  (Path.pieces path).foldlM fs.walk (fs.start path)

def isDirectory (fs : FileSystem) (path : String) : Bool :=
  match fs.locate path with
  | .ok place => fs.entry? place == some .directory
  | .error _ => false

-- The text of a file.
def read (fs : FileSystem) (path : String) : Except FileFault String := do
  match fs.entry? (← fs.locate path) with
  | none => throw .notFound
  | some .directory => throw .isADirectory
  | some (.file none) => throw .invalidData
  | some (.file (some text)) => return text

-- Writes a text to a file, which is made if it does not exist.
def write (fs : FileSystem) (path text : String) : Except FileFault FileSystem := do
  let place ← fs.locate path
  match fs.entry? place with
  | some .directory => throw .isADirectory
  | _ => return fs.put place (.file (some text))

-- Makes a single directory.
def makeDirectory (fs : FileSystem) (path : String) : Except FileFault FileSystem := do
  match ((Path.pieces path).reverse.dropWhile (· == "")) with
  | [] => throw .alreadyExists
  | last :: before =>
    let parent ← before.reverse.foldlM fs.walk (fs.start path)
    let place ← fs.walk parent last
    if last == "." || last == ".." then throw .alreadyExists
    match fs.entry? place with
    | some _ => throw .alreadyExists
    | none => return fs.put place .directory

-- What is left of a file system after an operation that may have failed halfway.
structure Attempt where
  files : FileSystem
  fault : Option FileFault

-- A directory that cannot be made is no fault if it is there.
def settle (fs : FileSystem) (path : String) (fault : FileFault) : Attempt :=
  ⟨fs, if fs.isDirectory path then none else some fault⟩

-- Makes a directory after its ancestors, which are tried only if they turn out to be missing.
def makeDirectoriesFrom (fs : FileSystem) (path : String) : List String → Attempt
  | [] =>
    match fs.makeDirectory path with
    | .ok fs => ⟨fs, none⟩
    | .error fault => fs.settle path fault
  | parent :: others =>
    match fs.makeDirectory path with
    | .ok fs => ⟨fs, none⟩
    | .error .notFound =>
      match fs.makeDirectoriesFrom parent others with
      | ⟨fs, some fault⟩ => ⟨fs, some fault⟩
      | ⟨fs, none⟩ =>
        match fs.makeDirectory path with
        | .ok fs => ⟨fs, none⟩
        | .error fault => fs.settle path fault
    | .error fault => fs.settle path fault

-- Makes a directory with all ancestors that are missing.
def makeDirectories (fs : FileSystem) (path : String) : Attempt :=
  fs.makeDirectoriesFrom path (Path.ancestors path)

end FileSystem

end RenderMemo
