import LargeObjects.Allocator
import LargeObjects.Settings

/-! The large-object area of one open database. -/
namespace LargeObjects

structure Database where
  settings : Settings
  naming : Naming
  allocator : Allocator
deriving DecidableEq

namespace Database

variable {σ : Type} [FileStore σ]

def layout (db : Database) : Layout := db.settings.layout

/-- Opens the area of the database at `base`. With flat names the ids go on after those of the files
that are there. -/
def openAt (base : Path) (settings : Settings) : Action σ Database := do
  if let some objection := settings.objection? then throw (.unsupported objection)
  let naming : Naming := ⟨base, settings.fanout⟩
  let allocator ← match settings.layout with
    | .flat => Allocator.afterHighest naming
    | .sharded => pure (.scan settings.maxProbes)
  return { settings, naming, allocator }

def allocate (db : Database) : Action σ ObjectId := db.allocator.allocate db.naming db.layout

def requireServed (db : Database) (layout : Layout) : Action σ Unit :=
  if layout = .sharded ∧ db.layout = .flat then throw (.unsupported .shardedInFlat) else pure ()

def openTemp (db : Database) : Action σ (ObjectId × HandleId × FileStore.Writer σ) := do
  let id ← db.allocate
  let path := db.naming.path db.layout .temp id
  let writer ← World.onStore (FileStore.create path)
  return (id, ← World.newHandle path true, writer)

end Database

end LargeObjects
