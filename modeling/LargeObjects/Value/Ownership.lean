import LargeObjects.Value.Creation

/-! The life of values. A temporary value becomes a table's by linking and temporary again by
unlinking; closing deletes its file. A step that moves a file gives it a new handle and retires the
old one, so that older values cannot touch what is no longer theirs. -/
namespace LargeObjects.Value

variable [Codec] {σ : Type} [FileStore σ]

def withFile (v : Value) (ref : ValueFile) : Value := { v with content := .file ref }

def moveTo (db : Database) (v : Value) (ref : ValueFile) (table : TableId) : Action σ Value := do
  let target := db.naming.path ref.layout (.table table) ref.id
  let path ← World.livePath ref.handle
  World.onStore (FileStore.rename path target)
  World.retire ref.handle
  return v.withFile { ref with owner := .table table, handle := ← World.newHandle target false }

def copyTo (db : Database) (v : Value) (ref : ValueFile) (table : TableId) : Action σ Value := do
  let path ← World.livePath ref.handle
  let id ← db.allocate
  let target := db.naming.path db.layout (.table table) id
  let copied : Action σ Nat := World.onStore (FileStore.copy path target)
  fun w =>
    match copied w with
    | .error e w =>
      -- A part of the copy may be there.
      match World.discard target w with
      | .ok _ w => .error e w
      | .error _ w => .error e w
    | .ok _ w =>
      match World.newHandle target false w with
      | .error e w => .error e w
      | .ok handle w =>
        .ok (v.withFile { ref with id, owner := .table table, layout := db.layout, handle }) w

/-- Makes `table` the owner. A value without a file is only stamped. A temporary file is moved,
which retires its handle. A file of another table is copied, so that each table has its own. -/
def link (db : Database) (v : Value) (table : TableId) : Action σ Value := do
  match v.content with
  | .inline data stamp =>
    if stamp = some table then return v
    return { v with content := .inline data (some table) }
  | .file ref =>
    let _ ← World.livePath ref.handle
    db.requireServed ref.layout
    match ref.owner with
    | .temp => moveTo db v ref table
    | .table owner => if owner = table then v.clone else copyTo db v ref table

/-- Takes a value away from its table. The file gets its temporary name, after whatever had that
name before is deleted. -/
def unlink (db : Database) (v : Value) : Action σ Value := do
  match v.content with
  | .inline _ _ => return v
  | .file ref =>
    let path ← World.livePath ref.handle
    db.requireServed ref.layout
    if ref.owner = .temp then v.clone
    else
      let temp := db.naming.path ref.layout .temp ref.id
      let _ ← World.onStore (FileStore.delete temp)
      World.onStore (FileStore.rename path temp)
      World.retire ref.handle
      return v.withFile { ref with owner := .temp, handle := ← World.newHandle temp true }

def close (v : Value) : Action σ Unit := do
  match v.content with
  | .inline _ _ => return ()
  | .file ref =>
    let h := (← get).handle ref.handle
    if h.retired then return ()
    let _ ← World.onStore (FileStore.delete h.path)
    World.retire ref.handle

def convert (db : Database) (v : Value) (kind : Kind) : Action σ Value := do
  if v.kind = kind then v.clone
  else create db kind (.stored (← v.reader)) none

/-- Moves a value that is too large to go without a file into one, and links it to the table whose
stamp it has. Other values stay as they are. -/
def spill (db : Database) (v : Value) : Action σ Value := do
  match v.content with
  | .file _ => v.clone
  | .inline data stamp =>
    if v.precision ≤ db.settings.inlineThreshold then return v
    let spilled ← create db v.kind (.planned [.bytes data]) (some v.precision)
    match stamp with
    | none => return spilled
    | some table => fun w =>
      -- The unlinked value is let go in any case, and takes its file along if linking failed.
      match spilled.link db table w with
      | .ok linked w =>
        match spilled.drop w with
        | .ok _ w => .ok linked w
        | .error e w => .error e w
      | .error e w =>
        match spilled.drop w with
        | .ok _ w => .error e w
        | .error _ w => .error e w

end LargeObjects.Value
