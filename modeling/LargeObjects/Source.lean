import LargeObjects.Basic
import LargeObjects.Compression.Stream
import LargeObjects.Error

/-! Sources of content, and taking them in by units: octets or characters. -/
namespace LargeObjects

inductive Delivery where
  | bytes (content : Bytes)
  /-- Nothing this time; to be asked again. -/
  | interrupted
  | failed (cause : StreamError)
deriving DecidableEq

variable [Codec]

inductive Source (σ : Type) [FileStore σ] where
  | stored (reader : ContentReader σ)
  | planned (deliveries : List Delivery)

namespace Source

variable {σ : Type} [FileStore σ]

/-- The next delivery that is no interruption, at most `limit` bytes of it; no bytes at the end. -/
def fetchPlanned (limit : Nat) : List Delivery → Except StreamError Bytes × List Delivery
  | [] => (.ok [], [])
  | .interrupted :: rest => fetchPlanned limit rest
  | .failed e :: rest => (.error e, rest)
  | .bytes content :: rest =>
    (.ok (content.take limit),
      match content.drop limit with
      | [] => rest
      | more => .bytes more :: rest)

def fetch (limit : Nat) : Step StreamError (Source σ × σ) Bytes := fun (source, s) =>
  match source with
  | stored r =>
    match ContentReader.read limit (r, s) with
    | .ok bytes (r, s) => .ok bytes (stored r, s)
    | .error e (r, s) => .error e (stored r, s)
  | planned deliveries =>
    match fetchPlanned limit deliveries with
    | (.ok bytes, rest) => .ok bytes (planned rest, s)
    | (.error e, rest) => .error e (planned rest, s)

end Source

/-- The characters at the start of `pending`, at most `units` of them: their octets with the last
one first, how many there are, and what is left. It stops before a character that is not complete;
bytes that are no character are refused. -/
def Utf8.takeCharacters : Nat → Bytes → Bytes → Nat → Option (Bytes × Nat × Bytes)
  | 0, pending, taken, count => some (taken, count, pending)
  | units + 1, pending, taken, count =>
    match pending with
    | [] => some (taken, count, [])
    | lead :: _ =>
      match width? lead with
      | none => none
      | some width =>
        let character := pending.take width
        if character.length < width then some (taken, count, pending)
        else if isCharacter character then
          takeCharacters units (pending.drop width) (character.reverseAux taken) (count + 1)
        else none

/-- A source being taken in. `pending` holds octets of characters that were fetched and not taken;
octets that count for themselves are gathered in a buffer, of which `capacity` is kept. -/
structure Intake (σ : Type) [FileStore σ] where
  kind : Kind
  source : Source σ
  pending : Bytes := []
  capacity : Nat := 0

namespace Intake

variable {σ : Type} [FileStore σ]

def fetchSize : Nat := 4096

def fetch (limit : Nat) : Step ObjectError (Intake σ × σ) Bytes := fun (intake, s) =>
  match Source.fetch limit (intake.source, s) with
  | .ok bytes (source, s) => .ok bytes ({ intake with source }, s)
  | .error e (source, s) => .error (.stream e) ({ intake with source }, s)

def takeOctets (wanted : Nat) : Step ObjectError (Intake σ × σ) (Bytes × Nat) := do
  let (intake, _) ← get
  let gathered ← Gathering.fill fetch (wanted + 1) (some wanted) (.ofCapacity intake.capacity)
  modify fun (intake, s) => ({ intake with capacity := gathered.capacity }, s)
  return (gathered.bytes, gathered.size)

def takeText (wanted : Nat) (taken : Bytes) (count : Nat) :
    Nat → Step ObjectError (Intake σ × σ) (Bytes × Nat)
  | 0 => pure (taken.reverse, count)
  | fuel + 1 => do
    let (intake, s) ← get
    match Utf8.takeCharacters wanted intake.pending taken 0 with
    | none => throw (.corruption .malformedSource)
    | some (taken, more, pending) =>
      set (({ intake with pending } : Intake σ), s)
      if wanted ≤ more then pure (taken.reverse, count + more)
      else
        let fetched ← fetch fetchSize
        if fetched = [] then
          if pending = [] then pure (taken.reverse, count + more)
          else throw (.corruption .truncatedSource)
        else
          modify fun (intake, s) => ({ intake with pending := intake.pending ++ fetched }, s)
          takeText (wanted - more) taken (count + more) fuel

/-- Takes `units` units, or fewer where the source ends; answers their octets and their number. A
character takes at most four fetches. -/
def take (units : Nat) : Step ObjectError (Intake σ × σ) (Bytes × Nat) := fun (intake, s) =>
  match intake.kind with
  | .binary => takeOctets units (intake, s)
  | .character => takeText units [] 0 (4 * units + 1) (intake, s)

end Intake

end LargeObjects
