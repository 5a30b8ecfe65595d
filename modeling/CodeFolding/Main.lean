import CodeFolding.Command.Help
import CodeFolding.Command.Reach
import CodeFolding.Moment

/-!
The program: it loads what a task takes from the disk, runs the task on that, and prints and writes
what comes of it.
-/

set_option autoImplicit false

namespace CodeFolding.Main

/-- Where some names lead from the top of the disk. -/
def entryAt (place : List Name) : IO.FS.DirEntry :=
  ⟨"/", String.ofList (Path.ofParts .root place).display⟩

/-- What the names of a place stand for, if for anything. -/
def kindAt (place : List Name) : IO (Option IO.FS.FileType) := do
  try
    return some (← (entryAt place).path.metadata).type
  catch _ => return none

def bytesAt (place : List Name) : IO (List UInt8) :=
  return (← IO.FS.readBinFile (entryAt place).path).toList

/-- Loads what lies on the way of the parts of a path: directories without what they hold, and a
file with its bytes. -/
def loadAlong (t : FileTree) (place : List Name) : List Name → IO FileTree
  | [] => return t
  | part :: rest => do
    if Path.isFiller part then loadAlong t place rest
    else if part = [Path.dot, Path.dot] then loadAlong t place.dropLast rest
    else
      let next := place ++ [part]
      match ← kindAt next with
      | some .dir =>
        loadAlong (if (t.at? next).isSome then t else .put .empty next t) next rest
      | some .file => return .put (.file (← bytesAt next)) next t
      | _ => return t

/-- Loads what lies on the way of a path. -/
def loadPath (d : Disk) (p : Path) : IO Disk :=
  match d.start p with
  | .ok (place, parts) => return { d with tree := ← loadAlong d.tree place parts }
  | .error _ => return d

/-- Loads what is read below a directory at a place, which is reached under a path. -/
partial def loadBelow (e : Command.Extent) (t : FileTree) (place : List Name) (p : Path) :
    IO FileTree := do
  let mut t := t
  for entry in ← (entryAt place).path.readDir do
    let name : Name := entry.fileName.toUTF8.toList
    let next := place ++ [name]
    let found ← entry.path.symlinkMetadata
    match found.type with
    | .dir =>
      if e.enters (p.join ⟨name⟩) then
        t ← loadBelow e (if (t.at? next).isSome then t else .put .empty next t) next (p.join ⟨name⟩)
    | .file =>
      let small := found.byteSize.toNat ≤ e.maxFileSize
      if e.reads (p.join ⟨name⟩) && (small || (p.join ⟨name⟩).isTooLong) then
        t := .put (.file (← bytesAt next)) next t
    | _ => pure ()
  return t

/-- Loads what a scan reads below its root. -/
def loadExtent (d : Disk) (e : Command.Extent) : IO Disk :=
  match d.locate e.root with
  | .ok place =>
    match d.tree.at? place with
    | some (.dir _) =>
      if e.enters e.root then
        return { d with tree := ← loadBelow e d.tree place e.root }
      else return d
    | _ => return d
  | .error _ => return d

/-- The names that lead to the working directory. -/
def workPlace : IO (List Name) := do
  return (Path.mk (← IO.currentDir).toString.toUTF8.toList).names

/-- The disk as far as a task takes anything from it, and how many files it scans. -/
def loadDisk (t : Command.Task) : IO (Disk × Nat) := do
  let place ← workPlace
  let mut d : Disk := ⟨.put .empty place .empty, place⟩
  for p in t.paths do
    d ← loadPath d p
  match t.extent? d with
  | some e =>
    d ← loadExtent d e
    return (d, e.count d)
  | none => return (d, 0)

/-- When and how fast some files were loaded since a start, given in nanoseconds. -/
def runInfo (start files : Nat) : IO RunInfo := do
  let nanos := (← IO.monoNanosNow) - start
  let now := Std.Time.PlainDateTime.ofWallTime ((← Std.Time.Timestamp.now).toWallTime .zero)
  let speed := if nanos = 0 then 0 else Float.ofNat files * 1000000000 / Float.ofNat nanos
  return ⟨nanos / 1000000, speed, Moment.text now, Command.version.toList⟩

/-- Writes the file that a task writes. -/
def writeOutput (d : Disk) (p : Path) : IO Unit :=
  match d.readBytes p with
  | .ok bytes => IO.FS.writeBinFile (String.ofList p.display) ⟨bytes.toArray⟩
  | .error _ => return ()

def printText (text : List Char) : IO Unit := IO.print (String.ofList text)

/-- Prints and writes what came of a command line. -/
def finish (output : Option Path) : Command.Ending → IO Unit
  | .done r => do
    printText r.printed
    match output with
    | some p => writeOutput r.disk p
    | none => return ()
  | .failed why => IO.eprint (String.ofList why.message)
  | .usage => IO.eprint Command.usageText
  | .help => IO.print Command.helpText
  | .version => printText Command.versionLine

/-- Runs a command line on the disk. -/
def run (words : List (List Char)) : IO UInt32 := do
  let start ← IO.monoNanosNow
  let (disk, files, output) ← match Command.read words with
    | .task t =>
      let (disk, files) ← loadDisk t
      pure (disk, files, t.output?)
    | _ => pure (⟨.empty, []⟩, 0, none)
  let terminal ← (← IO.getStdout).isTty
  let ending := Command.run disk (← runInfo start files) terminal words
  finish output ending
  return ending.exitCode.toUInt32

end CodeFolding.Main

def main (args : List String) : IO UInt32 :=
  CodeFolding.Main.run (args.map String.toList)
