import LargeObjects.SortedMap
import LargeObjects.Survey

/-! What the files of a database amount to. Counts and sums are numbers without a bound, where a machine
would run over at 2 ^ 64 octets. -/
namespace LargeObjects

structure Usage where
  files : Nat
  bytes : Nat
deriving DecidableEq

structure Inventory where
  /-- Each table that owns a file. -/
  tables : SortedMap TableId Usage := ∅
  tempFiles : Nat := 0
  tempBytes : Nat := 0
  flatFiles : Nat := 0
  /-- How deep in the tree files lie; those at the root lie at depth zero. -/
  maxDepth : Nat := 0
  /-- The most files that one directory of the tree holds. -/
  maxFilesPerDirectory : Nat := 0
  unreadableDirectories : Nat := 0

namespace Inventory

def total (numbers : List Nat) : Nat := numbers.foldr (· + ·) 0

def totalFiles (i : Inventory) : Nat := i.tempFiles + total (i.tables.values.map (·.files))

def totalBytes (i : Inventory) : Nat := i.tempBytes + total (i.tables.values.map (·.bytes))

def usage (files : List (Found × Nat)) : Usage := ⟨files.length, total (files.map (·.2))⟩

def ownedBy (owner : Owner) (files : List (Found × Nat)) : List (Found × Nat) :=
  files.filter (·.1.owner = owner)

def tablesOf (files : List (Found × Nat)) : SortedMap TableId Usage :=
  (files.filterMap (·.1.owner.table?)).foldl
    (fun tables t => tables.insert t (usage (ownedBy (.table t) files))) ∅

def mostCommon (directories : List (List Component)) : Nat :=
  (directories.map directories.count).foldl max 0

def ofFiles (files : List (Found × Nat)) (unreadable : Nat) : Inventory :=
  let sharded := files.filter (·.1.layout = .sharded)
  let temp := usage (ownedBy .temp files)
  { tables := tablesOf files
    tempFiles := temp.files
    tempBytes := temp.bytes
    flatFiles := (files.filter (·.1.layout = .flat)).length
    maxDepth := (sharded.map (·.1.depth)).foldl max 0
    maxFilesPerDirectory :=
      mostCommon (sharded.filterMap fun f => f.1.path.parent?.map (·.components))
    unreadableDirectories := unreadable }

end Inventory

def Database.inventory {σ : Type} [FileStore σ] (db : Database) : Action σ Inventory :=
  World.onStore do
    let survey ← db.survey
    let sized ← survey.files.mapM fun f => return (f, ← FileStore.size f.path)
    return Inventory.ofFiles sized survey.unreadable

end LargeObjects
