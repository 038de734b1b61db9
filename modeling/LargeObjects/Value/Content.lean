import LargeObjects.Checksum
import LargeObjects.Value

/-! Reading, hashing and comparing values. -/
namespace LargeObjects.Value

variable [Codec] {σ : Type} [FileStore σ]

/-- Values of a larger precision are hashed by their precision alone. -/
def hashLimit : Nat := 4096

def reader (v : Value) : Action σ (ContentReader σ) := do
  match v.content with
  | .inline data _ => return .inline data
  | .file ref =>
    let path ← World.livePath ref.handle
    let r ← World.onStore (FileStore.openRead path)
    World.onStore (ContentReader.start r ref.compressed)

def roomLimit : Nat := 1048576

def readAll (capacity : Nat) (r : ContentReader σ) : Action σ Bytes := fun w =>
  match ContentReader.readAll capacity (r, w.store) with
  | .ok bytes (_, store) => .ok bytes { w with store }
  | .error e (_, store) => .error (.stream e) { w with store }

def readBytes (v : Value) : Action σ Bytes := do
  match v.content with
  | .inline data _ => return data
  | .file _ => readAll (min v.precision roomLimit) (← v.reader)

/-- The content as text in UTF-8: the characters of a character value, hexadecimal digits of a
binary one. -/
def readText (v : Value) : Action σ Bytes := do
  let data ← v.readBytes
  match v.kind with
  | .binary => return Bytes.hex data
  | .character =>
    match Utf8.defect? data with
    | some defect => throw (.corruption (.storedText defect))
    | none => return data

def foldPrecision (precision : Nat) : UInt32 :=
  let p := UInt64.ofNat precision
  (p ^^^ (p >>> 32)).toUInt32

def digest (v : Value) : Action σ (UInt32 × Value) := do
  -- Nothing is read, so that the hash code of a large value is cheap.
  if hashLimit < v.precision then return (foldPrecision v.precision, v)
  match v.hash with
  | some h => return (h, v)
  | none =>
    let h := Checksum.crc32 (← v.readBytes)
    return (h, { v with hash := some h })

/-- Compares contents in the way of the first value: as text if it is a character value, else octet
by octet. -/
def compare (v other : Value) : Action σ Ordering := do
  match v.kind with
  | .character => return Bytes.order (← v.readText) (← other.readText)
  | .binary => return Bytes.order (← v.readBytes) (← other.readBytes)

/-- Whether two values have the same content. Values of one kind that differ in precision do not,
and are not read. -/
def sameContent (v other : Value) : Action σ Bool := do
  if v.kind = other.kind ∧ v.precision ≠ other.precision then return false
  return (← v.compare other) = .eq

end LargeObjects.Value
