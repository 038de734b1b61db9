import LargeObjects.CommandLine.Console
import LargeObjects.Store.Disk

/-! The program. It takes a picture of the directories that a command looks at, lets the command
work on the picture, and removes from the file system the files that are gone from it. -/
namespace LargeObjects.CommandLine

/-- A picture of a part of the file system, and the files in it. -/
structure Picture where
  disk : Disk := default
  files : List Path := []
deriving Inhabited

namespace Picture

def update {ε : Type} (p : Picture) (act : Step ε Disk Unit) : Picture :=
  match act p.disk with
  | .ok _ disk => { p with disk }
  | .error _ disk => { p with disk }

def addDirectory (p : Picture) (path : Path) : Picture :=
  p.update (Disk.makeDirectories (path.pieces.length + 1) path)

def addFile (p : Picture) (path : Path) (content : Bytes) : Picture :=
  let act : Step StoreError Disk Unit := do
    let writer ← FileStore.create path
    modify fun d => FileStore.close writer (d.writeThrough writer content)
  { p.update act with files := path :: p.files }

def namesIn (path : Path) : IO (List Name) := do
  let place := System.mkFilePath [toString path]
  if ← place.isDir then
    return (← place.readDir).toList.map fun entry => entry.fileName.toList
  else return []

def addEntry (p : Picture) (path : Path) : IO Picture := do
  let place := System.mkFilePath [toString path]
  if ← place.isDir then return p.addDirectory path
  else if ← place.pathExists then
    return p.addFile path (← IO.FS.readBinFile place).toList
  else return p

/-- Adds what stands at a path and everything inside it. -/
partial def addTree (p : Picture) (path : Path) : IO Picture := do
  (← namesIn path).foldlM (fun p name => p.addTree (path.join name)) (← p.addEntry path)

def ofDatabase (base : Path) : IO Picture := do
  let naming : Naming := ⟨base, ({} : Settings).fanout⟩
  let dir := naming.flatDirectory
  let p ← (default : Picture).addEntry dir
  let p ← (← namesIn dir).foldlM (fun p name => p.addEntry (dir.join name)) p
  p.addTree naming.shardRoot

end Picture

end LargeObjects.CommandLine

open LargeObjects LargeObjects.CommandLine

def main (arguments : List String) : IO UInt32 := do
  let arguments := arguments.map String.toList
  let picture ← match read arguments with
    | .ok { path := some base, .. } => Picture.ofDatabase base
    | _ => pure {}
  let (outcome, disk) := run arguments picture.disk
  for file in picture.files do
    if !disk.isFile file then IO.FS.removeFile (toString file)
  for line in outcome.lines do IO.println line
  if let some line := outcome.complaint? then IO.eprintln line
  return UInt32.ofNat outcome.status
