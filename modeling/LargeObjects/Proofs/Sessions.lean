import Mathlib
import LargeObjects.Value.Ownership
import LargeObjects.Proofs.Creating

/-! Runs of operations. A session has values in its hands, works on them one after the other and
lets them go. Beside each value stands the content that it was made with, which is told from where it
was made and not from the value. -/
namespace LargeObjects

structure Held where
  value : Value
  origin : Bytes

/-- The content that a value is a source of: what stands with its row, or else what its file was made
with. -/
def Held.text (h : Held) : Bytes := h.value.inlineBytes?.getD h.origin

/-- The content of a value without a file stands with its row. -/
theorem Held.text_inline {h : Held} {data : Bytes} {stamp : Option TableId}
    (hcontent : h.value.content = .inline data stamp) : h.text = data := by
  rw [text, Value.inlineBytes?, hcontent, Option.getD_some]

/-- The content of a value with a file is what its file was made with. -/
theorem Held.text_file {h : Held} {ref : ValueFile} (hcontent : h.value.content = .file ref) :
    h.text = h.origin := by
  rw [text, Value.inlineBytes?, hcontent, Option.getD_none]

/-- What a source gives: a read is empty only at the end. -/
structure Plan where
  deliveries : List Delivery
  genuine : .bytes [] ∉ deliveries

def Plan.text (plan : Plan) : Bytes := (Delivery.outcome plan.deliveries).1

structure Session (σ : Type) where
  world : World σ
  held : List Held := []
  /-- Every value that was ever held. -/
  made : List Held := []

inductive Event where
  | create (kind : Kind) (plan : Plan) (declared : Option Nat)
  | inline (kind : Kind) (data : Bytes)
  | clone (i : Nat)
  | link (i : Nat) (table : TableId)
  | unlink (i : Nat)
  | close (i : Nat)
  | convert (i : Nat) (kind : Kind)
  | spill (i : Nat)
  | drop (i : Nat)

namespace Session

variable {σ : Type}

def hold (s : Session σ) (h : Held) (w : World σ) : Session σ :=
  { world := w, held := s.held ++ [h], made := s.made ++ [h] }

def acquire (s : Session σ) (act : Action σ Value) (origin : Bytes) : Session σ :=
  match act s.world with
  | .ok v w => s.hold ⟨v, origin⟩ w
  | .error _ w => { s with world := w }

def run (s : Session σ) (act : Action σ Unit) : Session σ :=
  match act s.world with
  | .ok _ w => { s with world := w }
  | .error _ w => { s with world := w }

def onHeld (s : Session σ) (i : Nat) (act : Held → Session σ) : Session σ :=
  match s.held[i]? with
  | some h => act h
  | none => s

variable [Codec] [FileStore σ]

/-- One operation. When it fails, all values stay as they are. A new value counts as made with the units
that were wanted of its source; what is converted or spilled is the source of the new value. -/
def step (db : Database) (s : Session σ) : Event → Session σ
  | .create kind plan declared =>
    s.acquire (Value.create db kind (.planned plan.deliveries) declared)
      (kind.units (declared.getD Value.unlimited) plan.text).flatten
  | .inline kind data =>
    match Value.inline kind data with
    | .ok v => s.hold ⟨v, data⟩ s.world
    | .error _ => s
  | .clone i => s.onHeld i fun h => s.acquire h.value.clone h.origin
  | .link i table => s.onHeld i fun h => s.acquire (h.value.link db table) h.origin
  | .unlink i => s.onHeld i fun h => s.acquire (h.value.unlink db) h.origin
  | .close i => s.onHeld i fun h => s.run h.value.close
  | .convert i kind => s.onHeld i fun h =>
    s.acquire (h.value.convert db kind)
      (if h.value.kind = kind then h.origin else (kind.units Value.unlimited h.text).flatten)
  | .spill i => s.onHeld i fun h => s.acquire (h.value.spill db) h.text
  | .drop i => s.onHeld i fun h => { s.run h.value.drop with held := s.held.eraseIdx i }

def Allocates (db : Database) (s : Session σ) : Event → Prop
  | .create kind plan declared =>
    Value.NeedsFile db kind (.planned plan.deliveries) declared s.world
  | .link i table => ∃ h ref owner, s.held[i]? = some h ∧ h.value.content = .file ref ∧
    (s.world.handle ref.handle).retired = false ∧ ¬(ref.layout = .sharded ∧ db.layout = .flat) ∧
    ref.owner = .table owner ∧ owner ≠ table
  | .convert i kind => ∃ h r w, s.held[i]? = some h ∧ h.value.kind ≠ kind ∧
    h.value.reader s.world = .ok r w ∧ Value.NeedsFile db kind (.stored r) none w
  | .spill i => ∃ h data stamp, s.held[i]? = some h ∧ h.value.content = .inline data stamp ∧
    db.settings.inlineThreshold < h.value.precision ∧
    Value.NeedsFile db h.value.kind (.planned [.bytes data]) (some h.value.precision) s.world
  | .inline _ _ | .clone _ | .unlink _ | .close _ | .drop _ => False

end Session

variable [Codec] {σ : Type} [FileStore σ]

/-- Words are enough for the search that starts in a state: a place that a scan finds has a word for
its number, and a counter has not run out before, after which it starts over at zero. -/
def Database.Fits (db : Database) (w : World σ) : Prop :=
  match db.allocator with
  | .scan maxProbes => ∀ dir slot w',
    Allocator.placeFrom db.naming maxProbes maxProbes.toNat 0 w = .ok (dir, slot) w' →
      dir.toNat + slot < UInt32.size
  | .counter place => w.counters.getD place 0 ≠ 0

inductive Session.Reaches (db : Database) (first : Session σ) : Session σ → Prop
  | start : Reaches db first first
  | step {s : Session σ} (e : Event) :
    Reaches db first s → (s.Allocates db e → db.Fits s.world) → Reaches db first (s.step db e)

end LargeObjects
