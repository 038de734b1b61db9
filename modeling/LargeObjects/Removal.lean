import LargeObjects.Survey

/-! Deleting the files of a dropped table, and temporary files that a crash has left. What cannot be
listed or deleted is counted and passed over. -/
namespace LargeObjects

structure RemovalReport where
  removed : Nat := 0
  /-- Files and directories passed over because of a failure. -/
  failed : Nat := 0
deriving DecidableEq

namespace Database

variable {σ : Type} [FileStore σ]

/-- Deletes files one by one. A file that is gone already counts as nothing. -/
def deleteAll : List Path → RemovalReport → σ → RemovalReport × σ
  | [], report, s => (report, s)
  | path :: rest, report, s =>
    match FileStore.delete path s with
    | .ok true s => deleteAll rest { report with removed := report.removed + 1 } s
    | .ok false s => deleteAll rest report s
    | .error _ s => deleteAll rest { report with failed := report.failed + 1 } s

def removeOwned (db : Database) (owner : Owner) : Action σ RemovalReport := do
  let survey ← World.onStore db.survey
  let selected := (survey.files.filter (·.owner = owner)).map (·.path)
  fun w =>
    let (report, store) := deleteAll selected { failed := survey.unreadable } w.store
    .ok report { w with store }

def removeTable (db : Database) (table : TableId) : Action σ RemovalReport :=
  db.removeOwned (.table table)

/-- Deletes all temporary files, also those of values in use; meant for before there are any. -/
def purgeTemp (db : Database) : Action σ RemovalReport := db.removeOwned .temp

end Database

end LargeObjects
