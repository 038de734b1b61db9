import LargeObjects.Naming.Parse
import LargeObjects.World

/-! Finding object ids that no file has. -/
namespace LargeObjects

inductive Allocator where
  /-- Looks for a free place from the top of the tree down, in at most so many directories. -/
  | scan (maxProbes : UInt32)
  /-- Goes on from a counter. -/
  | counter (place : Nat)
deriving DecidableEq

namespace Allocator

variable {σ : Type} [FileStore σ]

def lastWord : UInt32 := 0xFFFFFFFF

def entryNumbers (dir : Path) : Action σ (List UInt32) := do
  let entries ← World.onStore (FileStore.list dir)
  return entries.filterMap fun path => path.fileName?.bind Naming.entryNumber?

/-- The least slot from one on, below `fanout`, that is not in use. More than `used.length + 1`
slots need not be looked at. -/
def leastFree? (fanout : Nat) (used : List Nat) : Option Nat :=
  (List.range' 1 (min (fanout - 1) (used.length + 1))).find? fun slot => !used.contains slot

/-- The least free slot in the directory of an id that ends in zero. A directory with as many
numbered entries as places is full, whatever their numbers. -/
def vacancy? (naming : Naming) (id : UInt32) : Action σ (Option Nat) := do
  let numbers ← entryNumbers (naming.stem ⟨id⟩)
  -- Entries whose numbers agree modulo the fanout count each on their own here.
  if naming.fanout.toNat ≤ numbers.length then return none
  return leastFree? naming.fanout.toNat (numbers.map fun n => (n % naming.fanout).toNat)

/-- The id of a directory inside the directory of `id`; the top again where words do not reach. -/
def childDirectory (fanout id digit : UInt32) : UInt32 :=
  let child := (id.toNat + digit.toNat) * fanout.toNat
  if child < UInt32.size then UInt32.ofNat child else 0

/-- Probes the directory of `id`, and while it is full, a randomly chosen one inside it, so that
sessions that search at the same time seldom meet. -/
def scanFrom (naming : Naming) (maxProbes : UInt32) : Nat → UInt32 → Action σ ObjectId
  | 0, _ => throw (.allocationExhausted maxProbes)
  | probes + 1, id => do
    match ← vacancy? naming id with
    | some slot => return ⟨id + UInt32.ofNat slot⟩
    | none =>
      let digit ← World.randomDigit naming.fanout
      scanFrom naming maxProbes probes (childDirectory naming.fanout id digit)

def isSlotTaken (naming : Naming) (id : ObjectId) : Action σ Bool := do
  let slot := id.word % naming.fanout
  if slot = 0 then return true
  match (naming.stem id).parent? with
  | none => return false
  | some dir => return (← entryNumbers dir).any fun n => n % naming.fanout = slot

/-- Whether an id that comes from a counter cannot be used. With flat names only a temporary file
stands in the way. -/
def isTaken (naming : Naming) (layout : Layout) (id : ObjectId) : Action σ Bool :=
  match layout with
  | .flat => return FileStore.isFile (naming.flatPath .temp id) (← get).store
  | .sharded => isSlotTaken naming id

def countFrom (naming : Naming) (layout : Layout) (counter : Nat) : Nat → Action σ ObjectId
  | 0 => throw (.allocationExhausted lastWord)
  | fuel + 1 => do
    let id ← World.nextCount counter
    -- The counter has moved on, so the next search starts over behind the last word.
    if id = lastWord then throw (.allocationExhausted id)
    if ← isTaken naming layout ⟨id⟩ then countFrom naming layout counter fuel else return ⟨id⟩

def allocate (a : Allocator) (naming : Naming) (layout : Layout) : Action σ ObjectId :=
  match a with
  | scan maxProbes => scanFrom naming maxProbes maxProbes.toNat 0
  | counter place => countFrom naming layout place UInt32.size

def countingFrom (first : UInt32) : Action σ Allocator :=
  return counter (← World.newCounter (max first 1))

def highestFlat (naming : Naming) (entries : List Path) : UInt32 :=
  (entries.filterMap fun path => (path.fileName?.bind naming.parseFlat?).map (·.2.word)).foldl max 0

def afterHighest (naming : Naming) : Action σ Allocator := do
  let highest := highestFlat naming (← World.onStore (FileStore.list naming.flatDirectory))
  countingFrom (if highest = lastWord then highest else highest + 1)

end Allocator

end LargeObjects
