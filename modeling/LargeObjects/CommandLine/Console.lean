import LargeObjects.CommandLine.Arguments
import LargeObjects.CommandLine.Diagnosis
import LargeObjects.CommandLine.Inspection
import LargeObjects.Compression.Frame
import LargeObjects.Removal

/-! The commands of the command line over any file store: the lines they print, how they end and
what becomes of the store. -/
namespace LargeObjects.CommandLine

def programVersion : String := "0.3.0"

structure Console (σ : Type) where
  world : World σ
  printed : List String := []

/-- A command at work. It fails with a message; the lines before that stay printed. -/
abbrev Job (σ α : Type) := Step String (Console σ) α

namespace Job

variable {σ α : Type}

def print (lines : List String) : Job σ Unit :=
  modify fun c => { c with printed := c.printed ++ lines }

def perform (act : Action σ α) : Job σ α := fun c =>
  match act c.world with
  | .ok a world => .ok a { c with world }
  | .error e world => .error e.diagnosis { c with world }

def fail (message : String) : Job σ α := throw (Diagnosis.quote message)

variable [FileStore σ]

def openDatabase (command : String) (i : Invocation) : Job σ Database := do
  match i.path with
  | none => fail s!"Database path required for {command}"
  | some base =>
    let db ← perform (Database.openAt base { layout := if i.flat then .flat else .sharded })
    let dir := db.naming.flatDirectory
    if FileStore.isDirectory dir (← get).world.store then return db
    else fail s!"No database directory at {dir}"

/-- Tells what a sweep did. That something was passed over is a failure. -/
def report (what : String) (r : RemovalReport) : Job σ Unit := do
  print [s!"  Removed: {r.removed}"]
  if 0 < r.failed then
    print [s!"  Failed:  {r.failed} (see log)"]
    fail s!"{r.failed} {what} could not be removed"
  print ["✓ Done"]

def ofInvocation (i : Invocation) : Job σ Unit := do
  match i.command with
  | .inspect json =>
    let db ← openDatabase "inspect" i
    let inspection : Inspection :=
      { path := db.naming.base, layout := db.layout, inventory := ← perform db.inventory }
    print (if json then inspection.json else inspection.text)
  | .dropTable table =>
    let db ← openDatabase "drop-table" i
    print [s!"Removing LOB files of {table} at {db.naming.base}"]
    report "LOB files" (← perform (db.removeTable table))
  | .purgeTemp =>
    let db ← openDatabase "purge-temp" i
    print [s!"Purging LOB temp files at {db.naming.base}"]
    report "temp files" (← perform db.purgeTemp)
  | .version => print [s!"LobDB CLI v{programVersion}", s!"LobDB Core v{programVersion}"]

end Job

inductive Outcome where
  | finished (lines : List String)
  | failed (lines : List String) (message : String)
  /-- The arguments could not be understood. -/
  | misused
deriving DecidableEq

namespace Outcome

def status : Outcome → Nat
  | finished _ => 0
  | failed _ _ => 1
  | misused => 2

def lines : Outcome → List String
  | finished lines => lines
  | failed lines _ => lines
  | misused => []

def complaint? : Outcome → Option String
  | failed _ message => some s!"Error: {message}"
  | _ => none

end Outcome

def run {σ : Type} [FileStore σ] (arguments : List Argument) (store : σ) : Outcome × σ :=
  match read arguments with
  | .error .misuse => (.misused, store)
  | .error .version => (.finished [s!"lobdb {programVersion}"], store)
  | .ok invocation =>
    match Job.ofInvocation invocation { world := { store } } with
    | .ok _ c => (.finished c.printed, c.world.store)
    | .error message c => (.failed c.printed message, c.world.store)

end LargeObjects.CommandLine
