import LargeObjects.ChunkSize
import LargeObjects.Source
import LargeObjects.Value.Content

/-! Making values from sources. The first chunk decides: when it holds no more than the inline
threshold the value has no file, otherwise the chunk and all that follows goes into a temporary
file. -/
namespace LargeObjects.Value

variable [Codec] {σ : Type} [FileStore σ]

/-- The number of units that a source of unknown length is held to have. -/
def unlimited : Nat := UInt64.size - 1

def pour (threshold : Nat) (compressed : Bool) :
    Nat → Nat → Nat → Step ObjectError (Intake σ × Sink σ × σ) Nat
  | 0, _, total => pure total
  | fuel + 1, remaining, total => fun (intake, sink, s) =>
    let size := ChunkSize.next remaining threshold compressed
    if size = 0 then .ok total (intake, sink, s)
    else match Intake.take size (intake, s) with
      | .error e (intake, s) => .error e (intake, sink, s)
      | .ok (chunk, count) (intake, s) =>
        if count = 0 then .ok total (intake, sink, s)
        else match Sink.write chunk (sink, s) with
          | .error e (sink, s) => .error (.stream e) (intake, sink, s)
          | .ok _ (sink, s) =>
            pour threshold compressed fuel (remaining - count) (total + count) (intake, sink, s)

def fillFile (settings : Settings) (writer : FileStore.Writer σ) (first : Bytes) (remaining : Nat)
    (intake : Intake σ) : Step ObjectError σ Nat := fun s =>
  let compression := settings.compressionFor intake.kind
  match Sink.start writer compression s with
  | .error e s => .error (.storage e) s
  | .ok sink s =>
    match Sink.write first (sink, s) with
    | .error e (_, s) => .error (.stream e) s
    | .ok _ (sink, s) =>
      -- The first chunk keeps its buffer, so the others share a new one.
      match pour settings.inlineThreshold compression.isSome remaining remaining 0
          ({ intake with capacity := 0 }, sink, s) with
      | .error e (_, _, s) => .error e s
      | .ok total (_, sink, s) =>
        match Sink.finish (sink, s) with
        | .error e (_, s) => .error (.storage e) s
        | .ok _ (_, s) => .ok total s

/-- Writes a new temporary file. When that fails, the handle is let go and takes the file with it.
-/
def createInFile (db : Database) (first : Bytes) (count remaining : Nat) (intake : Intake σ) :
    Action σ Value := do
  let (id, handle, writer) ← db.openTemp
  fun w =>
    match fillFile db.settings writer first remaining intake w.store with
    | .ok total store =>
      let compressed := (db.settings.compressionFor intake.kind).isSome
      .ok
        { kind := intake.kind
          precision := count + total
          content := .file { id, owner := .temp, compressed, layout := db.layout, handle } }
        { w with store := FileStore.close writer store }
    | .error e store =>
      -- The writer is closed first, so that nothing is written to a file that is gone.
      match World.release handle { w with store := FileStore.close writer store } with
      | .ok _ w => .error e w
      | .error _ w => .error e w

/-- A new value from a source. `declared` is a hint: no more units than that are taken, and the
precision is what was taken. -/
def create (db : Database) (kind : Kind) (source : Source σ) (declared : Option Nat) :
    Action σ Value := fun w =>
  let threshold := db.settings.inlineThreshold
  let limit := declared.getD unlimited
  let size := ChunkSize.next limit threshold (db.settings.compressionFor kind).isSome
  match Intake.take size ({ kind, source }, w.store) with
  | .error e (_, store) => .error e { w with store }
  | .ok (first, count) (intake, store) =>
    let w := { w with store }
    if count ≤ threshold then
      .ok { kind, precision := count, content := .inline first none } w
    else createInFile db first count (limit - count) intake w

end LargeObjects.Value
