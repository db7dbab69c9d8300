import SourceLabel.CommandLine

/-!
# The program

The files that the two paths lead to are loaded into a store, the run works on the store, and the output
is put in its place at once.
-/
namespace SourceLabel.Main

def usage : String :=
  "Usage: sourcefile-fixer <INPUT> <OUTPUT>"

def version : String :=
  "sourcefile-fixer 0.1.0"

/-- The paths that a path leads through, the shortest first. -/
def waypoints (path : String) : List String :=
  let pieces := Files.pieces path
  (List.range pieces.length).map fun i => "/".intercalate (pieces.take (i + 1))

/-- Loads what lies on a path. -/
def load (f : Files) (path : String) : IO Files :=
  (waypoints path).foldlM (fun f waypoint => do
    let real := System.mkFilePath [waypoint]
    match f.locate waypoint with
    | .error _ => return f
    | .ok place =>
      if (f.node? place).isSome then return f
      else if ← real.isDir then return f.set place .directory
      else if ← real.pathExists then return f.set place (.file (← IO.FS.readBinFile real).toList)
      else return f) f

/-- Puts a file in its place at once. -/
def store (path : String) (b : Bytes) : IO Unit := do
  let temporary := Files.join (Files.parent path) (Files.temporaryStem ++ "new")
  IO.FS.writeBinFile temporary (ByteArray.mk b.toArray)
  IO.FS.rename temporary path

def tell (records : List Record) : IO Unit :=
  records.forM fun r =>
    if r.severity.rank ≤ Severity.info.rank then IO.eprintln ("[" ++ r.severity.label ++ "] " ++ r.message)
    else pure ()

def relabelFile (args : List String) (input output : String) : IO UInt8 := do
  let home := Files.names (← IO.currentDir).toString
  let files ← load { home := home.reverse } input
  let files ← load files output
  let ending := CommandLine.perform args { files }
  tell ending.world.told
  ending.errors.forM IO.eprintln
  if ending.code = 0 then
    match ending.world.files.openFile output with
    | .ok place => store output (ending.world.files.contents place)
    | .error _ => pure ()
  return ending.code

def run (args : List String) : IO UInt8 := do
  match CommandLine.parse args with
  | .error _ =>
    IO.eprintln usage
    return CommandLine.usageCode
  | .ok .help =>
    IO.println usage
    return 0
  | .ok .version =>
    IO.println version
    return 0
  | .ok (.run input output) =>
    try relabelFile args input output
    catch e =>
      IO.eprintln ("error: " ++ toString e)
      return CommandLine.exitCode .ioFailure

end SourceLabel.Main

def main (args : List String) : IO UInt32 := do
  return (← SourceLabel.Main.run args).toUInt32
