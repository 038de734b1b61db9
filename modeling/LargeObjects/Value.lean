import LargeObjects.Database

/-! Values. A value's kind, precision and content never change; what changes is the fate of its
file, which is the business of the handle that it shares with its clones. -/
namespace LargeObjects

structure ValueFile where
  id : ObjectId
  owner : Owner
  compressed : Bool
  layout : Layout
  handle : HandleId
deriving DecidableEq

inductive Content where
  /-- With the row; `stamp` is the table that the value was linked to. -/
  | inline (data : Bytes) (stamp : Option TableId)
  | file (ref : ValueFile)
deriving DecidableEq

structure Value where
  kind : Kind
  /-- The length in units of the kind. -/
  precision : Nat
  content : Content
  /-- The hash code of the content, once it has been computed. -/
  hash : Option UInt32 := none
deriving DecidableEq

inductive State where
  /-- There is no file. -/
  | small
  /-- The file is nobody's and goes away with the last holder. -/
  | temp
  | linked
  /-- The file was deleted or belongs to another handle now. -/
  | removed
deriving DecidableEq

instance : ToString State where
  toString
    | .small => "small"
    | .temp => "temp"
    | .linked => "linked"
    | .removed => "removed"

namespace Value

variable {σ : Type}

def file? (v : Value) : Option ValueFile :=
  match v.content with
  | .inline _ _ => none
  | .file ref => some ref

def inlineBytes? (v : Value) : Option Bytes :=
  match v.content with
  | .inline data _ => some data
  | .file _ => none

def isInline (v : Value) : Bool := v.file?.isNone

def table? (v : Value) : Option TableId :=
  match v.content with
  | .inline _ stamp => stamp
  | .file ref => ref.owner.table?

def isLinked (v : Value) : Bool := v.file?.any fun ref => ref.owner.table?.isSome

def objectId? (v : Value) : Option ObjectId := v.file?.map (·.id)

def isCompressed (v : Value) : Bool := v.file?.any (·.compressed)

def path? (v : Value) (w : World σ) : Option Path :=
  v.file?.map fun ref => (w.handle ref.handle).path

def isAutoDelete (v : Value) (w : World σ) : Bool :=
  v.file?.any fun ref => (w.handle ref.handle).isAutoDelete

def state (v : Value) (w : World σ) : State :=
  match v.content with
  | .inline _ _ => .small
  | .file ref =>
    if (w.handle ref.handle).retired then .removed
    else if ref.owner = .temp then .temp
    else .linked

def footprint (v : Value) : Nat :=
  match v.content with
  | .inline data _ => data.length + 32
  | .file _ => 128

def inline (kind : Kind) (data : Bytes) : Except Corruption Value :=
  match kind with
  | .binary => .ok { kind, precision := data.length, content := .inline data none }
  | .character =>
    match Utf8.defect? data with
    | some defect => .error (.inlineText defect)
    | none =>
      .ok { kind, precision := Utf8.characterCount data, content := .inline data none }

def clone (v : Value) : Action σ Value := do
  if let some ref := v.file? then World.retain ref.handle
  return v

def drop [FileStore σ] (v : Value) : Action σ Unit := do
  if let some ref := v.file? then World.release ref.handle

/-- The value that a row records: linked to `table`, with its precision and whether it is
compressed. In a database with a tree the file may still have its flat name; that name counts when
there is no file in the tree. Nothing is read. -/
def attach [FileStore σ] (db : Database) (kind : Kind) (table : TableId) (id : ObjectId)
    (precision : Nat) (compressed : Bool) : Action σ Value := do
  if id.word = 0 then throw (.forbidden .objectZero)
  let store := (← get).store
  let path (layout : Layout) : Path := db.naming.path layout (.table table) id
  let fallsBack := db.layout = .sharded ∧ !FileStore.isFile (path .sharded) store ∧
    FileStore.isFile (path .flat) store
  let layout := if fallsBack then Layout.flat else db.layout
  let handle ← World.newHandle (path layout) false
  let ref : ValueFile := { id, owner := .table table, compressed, layout, handle }
  return { kind, precision, content := .file ref }

end Value

end LargeObjects
