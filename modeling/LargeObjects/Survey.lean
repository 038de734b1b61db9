import LargeObjects.Database

/-! Finding the files of a database by their names: those in the tree, unless the database has flat
names, and then the flat ones. -/
namespace LargeObjects

structure Found where
  path : Path
  owner : Owner
  layout : Layout
  depth : Nat
deriving DecidableEq

structure Survey where
  files : List Found := []
  unreadable : Nat := 0
deriving DecidableEq

namespace Survey

variable {σ : Type} [FileStore σ]

def inTree? (depth : Nat) (path : Path) : Option Found := do
  let (owner, _) ← Naming.parseSharded? (← path.fileName?)
  return { path, owner, layout := .sharded, depth }

def inFlat? (naming : Naming) (path : Path) : Option Found := do
  let (owner, _) ← naming.parseFlat? (← path.fileName?)
  return { path, owner, layout := .flat, depth := 0 }

/-- Lists pending directories, the last one found first, and what is in them; `fuel` bounds their
number. Only the root has to be readable. -/
def walk : Nat → List (Path × Nat) → Survey → Step StoreError σ Survey
  | 0, _, survey => pure survey
  | _, [], survey => pure survey
  | fuel + 1, (dir, depth) :: pending, survey => fun s =>
    match FileStore.list dir s with
    | .error e s =>
      if depth = 0 then .error e s
      else walk fuel pending { survey with unreadable := survey.unreadable + 1 } s
    | .ok entries s =>
      let (dirs, others) := entries.partition (FileStore.isDirectory · s)
      -- A stack: the last directory of this one is the next to be listed.
      walk fuel ((dirs.map fun path => (path, depth + 1)).reverse ++ pending)
        { survey with files := survey.files ++ others.filterMap (inTree? depth) } s

def ofTree (naming : Naming) : Step StoreError σ Survey := fun s =>
  walk (FileStore.directoryBound s) [(naming.shardRoot, 0)] {} s

def ofFlat (naming : Naming) : Step StoreError σ (List Found) := do
  let entries ← FileStore.list naming.flatDirectory
  let s ← get
  return (entries.filterMap (inFlat? naming)).filter fun f => !FileStore.isDirectory f.path s

end Survey

def Database.survey {σ : Type} [FileStore σ] (db : Database) : Step StoreError σ Survey := do
  let tree ← match db.layout with
    | .sharded => Survey.ofTree db.naming
    | .flat => pure {}
  let flat ← Survey.ofFlat db.naming
  return { tree with files := tree.files ++ flat }

end LargeObjects
