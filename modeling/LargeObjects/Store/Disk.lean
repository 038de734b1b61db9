import LargeObjects.SortedMap
import LargeObjects.Store.FileStore

/-! A file store on a file system: directories within directories, files that live on while they are
open, and writers that hold back what does not fill a buffer. Directories and the contents of files
are numbered in the order in which they were made. -/
namespace LargeObjects

abbrev Location := List Name

inductive Entry where
  | directory (number : Nat)
  | file (number : Nat)
deriving DecidableEq

structure Directory where
  place : Location
  above : Nat
  entries : SortedMap Name Entry := ∅

namespace Directory

def root : Directory where
  place := []
  above := 0

/-- Where relative paths start. It has no name in the root, and its place has one that no path can
spell, so absolute paths do not lead there. -/
def working : Directory where
  place := [['/']]
  above := 0

def place? (dir : Directory) : Option Location :=
  if working.place <+: dir.place then some (dir.place.drop working.place.length) else none

end Directory

structure OpenFile where
  number : Nat
  offset : Nat := 0
  held : Bytes := []
deriving DecidableEq

structure DiskReader where
  entry : Entry
  offset : Nat := 0
  ahead : Bytes := []
deriving DecidableEq

/-- The first directories are the root and the working directory. Contents stay under their numbers
when their names go. -/
structure Disk where
  directories : Array Directory := #[.root, .working]
  contents : List Bytes := []
  writers : List OpenFile := []

namespace Disk

instance : Inhabited Disk := ⟨{}⟩

def bufferSize : Nat := 4096

def nameLimit : Nat := 255

def pathLimit : Nat := 4095

def byteCount (text : List Char) : Nat := text.foldl (fun size c => size + c.utf8Size) 0

def directory (d : Disk) (number : Nat) : Directory := d.directories.getD number .root

def content (d : Disk) (number : Nat) : Bytes := d.contents.getD number []

def child (d : Disk) (dir : Nat) (name : Name) : Except SystemError Entry :=
  if nameLimit < byteCount name then .error .nameTooLong
  else match (d.directory dir).entries.get? name with
    | none => .error .noSuchFile
    | some e => .ok e

def enter (d : Disk) (dir : Nat) (piece : Name) : Except SystemError Nat :=
  match Component.ofPiece? piece with
  | none => .ok dir
  | some (.name name) => do
    match ← d.child dir name with
    | .directory n => .ok n
    | .file _ => .error .notDirectory
  | some _ => .ok (d.directory dir).above

inductive Target where
  /-- The piece is no name, so it leads to a directory that is there. -/
  | directory (number : Nat)
  /-- A name in a directory, whether anything has it or not; `slashed` when a separator follows. -/
  | name (dir : Nat) (name : Name) (slashed : Bool)

def objection? (path : Path) : Option SystemError :=
  if '\x00' ∈ path.spelling then some .endInsidePath
  else if pathLimit < byteCount path.spelling then some .nameTooLong
  else none

def origin (path : Path) : Nat := if path.spelling.head? = some '/' then 0 else 1

def locate (d : Disk) (path : Path) : Except SystemError Target := do
  if let some objection := objection? path then throw objection
  let pieces := path.pieces.filter (· ≠ [])
  match pieces.getLast? with
  | none => if path.spelling = [] then .error .noSuchFile else .ok (.directory (origin path))
  | some last =>
    let dir ← pieces.dropLast.foldlM d.enter (origin path)
    match Component.ofPiece? last with
    | some (.name name) => .ok (.name dir name (path.spelling.getLast? = some '/'))
    | some _ => .ok (.directory (d.directory dir).above)
    | none => .ok (.directory dir)

def status (d : Disk) (path : Path) : Except SystemError Entry := do
  match ← d.locate path with
  | .directory n => .ok (.directory n)
  | .name dir name slashed =>
    match ← d.child dir name with
    | .directory n => .ok (.directory n)
    | .file n => if slashed then .error .notDirectory else .ok (.file n)

def isDirectory (d : Disk) (path : Path) : Bool :=
  match d.status path with
  | .ok (.directory _) => true
  | _ => false

def isFile (d : Disk) (path : Path) : Bool :=
  match d.status path with
  | .ok (.file _) => true
  | _ => false

def modifyEntries (d : Disk) (dir : Nat) (f : SortedMap Name Entry → SortedMap Name Entry) : Disk :=
  { d with directories := d.directories.modify dir fun x => { x with entries := f x.entries } }

def setEntry (d : Disk) (dir : Nat) (name : Name) (e : Entry) : Disk :=
  d.modifyEntries dir fun entries => entries.insert name e

def eraseEntry (d : Disk) (dir : Nat) (name : Name) : Disk :=
  d.modifyEntries dir fun entries => entries.erase name

def addDirectory (d : Disk) (dir : Nat) (name : Name) : Disk :=
  let new : Directory := { place := (d.directory dir).place ++ [name], above := dir }
  let number := d.directories.size
  { d with directories := d.directories.push new }.setEntry dir name (.directory number)

def makeDirectory (path : Path) : Step SystemError Disk Unit := fun d =>
  match d.locate path with
  | .error e => .error e d
  | .ok (.directory _) => .error .alreadyExists d
  | .ok (.name dir name _) =>
    match d.child dir name with
    | .ok _ => .error .alreadyExists d
    | .error .noSuchFile => .ok () (d.addDirectory dir name)
    | .error e => .error e d

def makeDirectories : Nat → Path → Step SystemError Disk Unit
  | 0, _ => pure ()
  | fuel + 1, path => fun d =>
    if path.spelling = [] then .ok () d
    else match makeDirectory path d with
      | .ok () d => .ok () d
      | .error .noSuchFile d =>
        -- Something above is missing: make that first, then try once more.
        match path.parent? with
        | none => .error .noSuchFile d
        | some above =>
          match makeDirectories fuel above d with
          | .error e d => .error e d
          | .ok () d =>
            match makeDirectory path d with
            | .ok () d => .ok () d
            | .error e d => if d.isDirectory path then .ok () d else .error e d
      | .error e d => if d.isDirectory path then .ok () d else .error e d

def makeParents (path : Path) : Step SystemError Disk Unit :=
  match path.parent? with
  | none => pure ()
  | some above => makeDirectories (above.pieces.length + 1) above

def openEmpty (path : Path) : Step SystemError Disk Nat := fun d =>
  match d.locate path with
  | .error e => .error e d
  | .ok (.directory _) => .error .isDirectory d
  | .ok (.name dir name slashed) =>
    if slashed then .error .isDirectory d
    else match d.child dir name with
      | .ok (.directory _) => .error .isDirectory d
      | .ok (.file n) => .ok n { d with contents := d.contents.set n [] }
      | .error .noSuchFile =>
        let n := d.contents.length
        .ok n { d.setEntry dir name (.file n) with contents := d.contents ++ [[]] }
      | .error e => .error e d

/-- Puts bytes at an offset; a gap before it is filled with zeros. -/
def patch (content : Bytes) (offset : Nat) (bytes : Bytes) : Bytes :=
  if content.length ≤ offset then content ++ List.replicate (offset - content.length) 0 ++ bytes
  else content.take offset ++ bytes ++ content.drop (offset + bytes.length)

def writeThrough (d : Disk) (writer : Nat) (bytes : Bytes) : Disk :=
  match d.writers[writer]? with
  | none => d
  | some w =>
    { d with
      contents := d.contents.set w.number (patch (d.content w.number) w.offset bytes)
      writers := d.writers.set writer { w with offset := w.offset + bytes.length } }

def setHeld (d : Disk) (writer : Nat) (held : Bytes) : Disk :=
  { d with writers := d.writers.modify writer fun w => { w with held } }

def heldBy (d : Disk) (writer : Nat) : Bytes := (d.writers[writer]?.map (·.held)).getD []

def flushHeld (d : Disk) (writer : Nat) : Disk :=
  let held := d.heldBy writer
  if held = [] then d else (d.writeThrough writer held).setHeld writer []

/-- Bytes that fit are held back. Those that do not fit push out what is held; a buffer's worth of
bytes or more then goes straight to the file. -/
def writeBuffered (d : Disk) (writer : Nat) (bytes : Bytes) : Disk :=
  let spare := bufferSize - (d.heldBy writer).length
  -- From here on `held` is empty if the bytes did not fit.
  let d := if spare < bytes.length then d.flushHeld writer else d
  if bytes.length < spare ∨ bytes.length < bufferSize then
    d.setHeld writer (d.heldBy writer ++ bytes)
  else d.writeThrough writer bytes

def unlink (path : Path) : Step SystemError Disk Unit := fun d =>
  match d.locate path with
  | .error e => .error e d
  | .ok (.directory _) => .error .isDirectory d
  | .ok (.name dir name slashed) =>
    match d.child dir name with
    | .error e => .error e d
    | .ok (.directory _) => .error .isDirectory d
    | .ok (.file _) =>
      if slashed then .error .notDirectory d else .ok () (d.eraseEntry dir name)

structure PlacedFile where
  dir : Nat
  name : Name
  number : Nat

def file? (d : Disk) (path : Path) : Option PlacedFile :=
  match d.locate path with
  | .ok (.name dir name false) =>
    match d.child dir name with
    | .ok (.file number) => some { dir, name, number }
    | _ => none
  | _ => none

def moveFile (source : PlacedFile) (target : Path) : Step SystemError Disk Unit := fun d =>
  match d.locate target with
  | .error e => .error e d
  | .ok (.directory _) => .error .busy d
  | .ok (.name dir name slashed) =>
    match d.child dir name with
    | .error .nameTooLong => .error .nameTooLong d
    | found =>
      if slashed then .error .notDirectory d
      else match found with
        | .ok (.directory n) =>
          -- A directory above the source is not empty, and that is noticed first.
          let above := (d.directory n).place <+: (d.directory source.dir).place
          .error (if above then .notEmpty else .isDirectory) d
        | _ =>
          if dir = source.dir ∧ name = source.name then .ok () d
          else
            .ok () ((d.eraseEntry source.dir source.name).setEntry dir name (.file source.number))

def files (d : Disk) : List (Location × Bytes) :=
  d.directories.toList.flatMap fun dir =>
    match dir.place? with
    | none => []
    | some place =>
      dir.entries.entries.filterMap fun
        | (name, .file n) => some (place ++ [name], d.content n)
        | (_, .directory _) => none

def directoryPlaces (d : Disk) : List Location :=
  (d.directories.toList.filterMap (·.place?)).filter (· ≠ [])

def refuse {α : Type} (act : Step SystemError Disk α) : Step StoreError Disk α :=
  act.adaptExcept fun e => .stream (.system e)

def withFile {α : Type} (path : Path) (act : PlacedFile → Step SystemError Disk α) :
    Step StoreError Disk α := fun d =>
  match d.file? path with
  | some file => refuse (act file) d
  | none => .error (.notFound path) d

def beyond (d : Disk) (r : DiskReader) : Bytes :=
  match r.entry with
  | .file n => (d.content n).drop r.offset
  | .directory _ => []

end Disk

instance : FileStore Disk where
  Reader := DiskReader
  Writer := Nat
  create path := Disk.refuse do
    Disk.makeParents path
    let number ← Disk.openEmpty path
    fun d => .ok d.writers.length { d with writers := d.writers ++ [{ number }] }
  write writer bytes := fun d => .ok () (d.writeBuffered writer bytes)
  flush writer := fun d => .ok () (d.flushHeld writer)
  close writer d := d.flushHeld writer
  openRead path := fun d =>
    match d.status path with
    | .ok entry => .ok { entry } d
    | .error e => .error (.ofSystem e path) d
  read limit := fun (r, d) =>
    if r.entry matches .directory _ then .error (.system .isDirectory) (r, d)
    else if r.ahead ≠ [] then .ok (r.ahead.take limit) ({ r with ahead := r.ahead.drop limit }, d)
    else if Disk.bufferSize ≤ limit then
      let bytes := (d.beyond r).take limit
      .ok bytes ({ r with offset := r.offset + bytes.length }, d)
    else
      let bytes := (d.beyond r).take Disk.bufferSize
      .ok (bytes.take limit)
        ({ r with offset := r.offset + bytes.length, ahead := bytes.drop limit }, d)
  unread r d := r.ahead.length + (d.beyond r).length
  delete path := fun d =>
    match Disk.unlink path d with
    | .ok () d => .ok true d
    | .error .noSuchFile d => .ok false d
    | .error e d => .error (.stream (.system e)) d
  rename source target := Disk.withFile source fun file => do
    Disk.makeParents target
    Disk.moveFile file target
  copy source target := Disk.withFile source fun file => do
    Disk.makeParents target
    let number ← Disk.openEmpty target
    -- The target may be the source itself, which then is empty by now.
    fun d =>
      let bytes := d.content file.number
      .ok bytes.length { d with contents := d.contents.set number bytes }
  list dir := fun d =>
    match d.status dir with
    | .ok (.directory n) => .ok ((d.directory n).entries.keys.map dir.join) d
    | .ok (.file _) => .error (.stream (.system .notDirectory)) d
    | .error .noSuchFile => .ok [] d
    | .error e => .error (.stream (.system e)) d
  isDirectory path d := d.isDirectory path
  isFile path d := d.isFile path
  size path := fun d =>
    match d.status path with
    | .ok (.file n) => .ok (d.content n).length d
    | .ok (.directory _) => .ok Disk.bufferSize d
    | .error e => .error (.ofSystem e path) d
  directoryBound d := d.directories.size

end LargeObjects
