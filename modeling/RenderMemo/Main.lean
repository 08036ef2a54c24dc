import RenderMemo.Command.Run

-- The program on a real disk. Of the disk, the run sees what stands at the paths of its command line,
-- on the way to them, and where it may write. A source file holds a program in its interchange form.

namespace RenderMemo.Disk

open Command

-- What stands at a path, if anything.
def probe (path : String) : IO (Option FileEntry) := do
  try
    return some (.file (some (← IO.FS.readFile path)))
  catch
    | .noFileOrDirectory .. => return none
    | .inappropriateType _ code _ => return if code = 21 then some .directory else none
    | .illegalOperation .. => return some .directory
    | _ => return some (.file none)

-- Adds a path and all that stands on the way to it.
def observe (fs : FileSystem) (path : String) : IO FileSystem := do
  let pieces := Path.pieces path
  let mut fs := fs
  for n in List.range pieces.length do
    let part := "/".intercalate (pieces.take (n + 1))
    if let .ok place := fs.locate part then
      if (fs.entry? place).isNone then
        if let some e ← probe part then
          fs := fs.put place e
  return fs

-- The paths that a run may read or write.
def pathsOf (o : Options) : List String :=
  let outputs := o.outDir.toList.flatMap fun outDir =>
    outDir :: (o.files.filterMap Path.fileName?).map (Path.join outDir)
  o.config.toList ++ o.files ++ outputs

-- The directory in which the program runs, below the directories above it.
def surroundings : IO FileSystem := do
  let current := Path.components (← IO.currentDir).toString
  let above := (List.range current.length).map fun n => (current.take (n + 1), .directory)
  return ⟨current, above⟩

-- Brings to the disk what a run has made or changed, in the order in which it did.
def store (before after : FileSystem) : IO Unit := do
  for (place, e) in after.entries.reverse do
    unless before.entry? place == some e do
      let path := Path.ofComponents true place
      match e with
      | .directory => IO.FS.createDir path
      | .file (some text) => IO.FS.writeFile path text
      | .file none => pure ()

def tools : Toolchain where
  parse _ source :=
    match Json.ofText? source with
    | .error fault => .error fault.message
    | .ok tree => (Program.ofJson? tree).mapError TreeError.message
  print _ _ program := program.toJson.pretty 0 ++ "\n"

-- A duration in seconds, with four decimal places.
def seconds (milliseconds : Nat) : String :=
  Json.numeral (10 * milliseconds) 4

end RenderMemo.Disk

open RenderMemo Command Disk in
def main (args : List String) : IO UInt32 := do
  match Options.ofArgs args with
  | .error .displayHelp =>
    IO.print helpText
    return 0
  | .error e =>
    IO.eprintln e.message
    return 2
  | .ok o =>
    let begun ← IO.monoMsNow
    let before ← (pathsOf o).foldlM observe (← surroundings)
    let done := run tools o before
    store before done.files
    let elapsed := (← IO.monoMsNow) - begun
    let session := done.close o.logLevel ("finished in " ++ toString elapsed ++ "ms")
    IO.print session.output
    for line in session.log do
      IO.eprintln ("[" ++ seconds elapsed ++ "] " ++ line.level.text ++ ": " ++ line.text)
    return session.exitCode.toUInt32
