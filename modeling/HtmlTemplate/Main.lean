import HtmlTemplate.CommandLine

/-! # The program

Reads what a command may need from the file system, runs the command, and writes what it changed.
-/

namespace HtmlTemplate.CommandLine

/-- The place of a path, read by its spelling alone. -/
def placeOf (home : Place) (p : Path) : Place :=
  p.segments.foldl (fun place segment =>
    if Path.isIdle segment then place
    else if segment = ".." then place.dropLast
    else place ++ [segment]) (if p.isAbsolute then [] else home)

/-- Puts directories at a place and above it. -/
def withDirectories (d : Disk) (place : Place) : Disk :=
  (List.range (place.length + 1)).foldl (fun d n => d.put (place.take n) .directory) d

/-- Reads a file, or a directory with all in it, into a disk, if it is there. -/
partial def loadAt (place : Place) (d : Disk) : IO Disk := do
  let spelling := "/" ++ joinSlashes place
  match ← (IO.FS.realPath spelling).toBaseIO with
  | .error _ => return d
  | .ok path =>
    if ← path.isDir then
      let mut d := withDirectories d place
      for entry in ← path.readDir do
        d ← loadAt (place ++ [entry.fileName]) d
      return d
    else
      let bytes ← IO.FS.readBinFile spelling
      return (withDirectories d place.dropLast).put place (.file (Content.ofBytes bytes.toList))

def loadPath (d : Disk) (p : Path) : IO Disk :=
  loadAt (placeOf d.home p) d

/-- Reads what a command may need. -/
def loadFor (d : Disk) : Command → IO Disk
  | .check file _ => loadPath d file
  | .compile dirs lead config => do
    let d ← config.toList.foldlM loadPath d
    match compileOptions d dirs lead config with
    | .error _ => return d
    | .ok options => (options.dirs.map Prod.fst).foldlM loadPath d

/-- Writes what is new on a disk. -/
def store (old new : Disk) : IO Unit := do
  for (place, entry) in new.entries.reverse do
    if old.entry? place ≠ some entry then
      let spelling := "/" ++ joinSlashes place
      match entry with
      | .directory => IO.FS.createDirAll spelling
      | .file (.text text) => IO.FS.writeFile spelling text
      | .file (.binary bytes) => IO.FS.writeBinFile spelling (ByteArray.mk bytes.toArray)

/-- Runs a command on the file system. -/
def execute (command : Command) : IO UInt32 := do
  let home := placeOf [] ⟨(← IO.currentDir).toString⟩
  let disk ← loadFor (withDirectories ⟨[], home⟩ home) command
  let outcome := run disk command
  store disk outcome.disk
  match outcome.result with
  | .ok text =>
    IO.print text
    return 0
  | .error failure =>
    IO.eprint failure.report
    return 1

end HtmlTemplate.CommandLine

def main (arguments : List String) : IO UInt32 := do
  match HtmlTemplate.CommandLine.Request.ofArguments arguments with
  | .command command => HtmlTemplate.CommandLine.execute command
  | .inform text =>
    IO.print text
    return 0
  | .misuse =>
    IO.eprint HtmlTemplate.CommandLine.programHelp
    return 2
