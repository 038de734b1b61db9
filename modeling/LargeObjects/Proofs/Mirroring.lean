import Mathlib
import LargeObjects.Value.Ownership
import LargeObjects.Proofs.Allocating
import LargeObjects.Proofs.Following

/-! Operations on values over a store whose calls may fail. An operation that goes through goes
through beneath as well, with the same answer. The search for an id changes neither files nor
handles. -/
namespace LargeObjects

open FallibleStore Step

variable {σ : Type} [FileStore σ] [FallibleStore σ]

namespace World

def below (w : World σ) : World (Base σ) :=
  { store := FallibleStore.below w.store, handles := w.handles, counters := w.counters,
    entropy := w.entropy }

structure Looks (w w' : World σ) : Prop where
  looked : Looked w.store w'.store
  handles_eq : w'.handles = w.handles

theorem Looks.refl (w : World σ) : w.Looks w := ⟨.refl _, rfl⟩

theorem Looks.trans {w w' w'' : World σ} (h : w.Looks w') (h' : w'.Looks w'') : w.Looks w'' :=
  ⟨h.looked.trans h'.looked, h'.handles_eq.trans h.handles_eq⟩

def Anyhow (_ _ : World σ) : Prop := True

variable {α β : Type} {give : α → β} {x : Step StoreError σ α} {y : Step StoreError (Base σ) β}

/-- A call that only looks at the store changes neither files nor handles of the world. -/
theorem looks_onStore (h : Follows Looked FallibleStore.below give x y) :
    Follows Looks below give (onStore x) (onStore y) := by
  intro w
  cases hx : x w.store with
  | ok a s =>
    obtain ⟨hlooked, hy⟩ := h.ok hx
    rw [onStore_ok hx, onStore_ok (w := w.below) hy]
    exact ⟨⟨hlooked, rfl⟩, rfl⟩
  | error e s =>
    rw [onStore_error hx]
    exact ⟨h.error hx, rfl⟩

/-- A call on the store that echoes beneath when it succeeds does so in the world too. -/
theorem echoes_onStore (h : ∀ {s s' a}, x s = .ok a s' →
      y (FallibleStore.below s) = .ok (give a) (FallibleStore.below s')) :
    Follows Anyhow below give (onStore x) (onStore y) := by
  intro w
  cases hx : x w.store with
  | ok a s =>
    rw [onStore_ok hx, onStore_ok (w := w.below) (h hx)]
    exact ⟨trivial, rfl⟩
  | error e s =>
    rw [onStore_error hx]
    trivial

theorem echoes_call {x : Step StoreError σ α} {y : Step StoreError (Base σ) α}
    (h : ∀ {s s' a}, x s = .ok a s' → y (FallibleStore.below s) = .ok a (FallibleStore.below s')) :
    Follows Anyhow below id (onStore x) (onStore y) := echoes_onStore h

theorem echoes_livePath (k : HandleId) :
    Follows Anyhow below id (livePath (σ := σ) k) (livePath k) := by
  intro w
  cases hretired : (w.handle k).retired with
  | false =>
    rw [livePath_ok hretired, livePath_ok (w := w.below) hretired]
    exact ⟨trivial, rfl⟩
  | true =>
    rw [livePath_error hretired]
    trivial

end World

open World

theorem Step.Follows.then {α β γ δ : Type} {give : α → β} {give' : γ → δ} {x : Action σ α}
    {y : Action (Base σ) β} (h : Follows Anyhow World.below give x y) {f : α → Action σ γ}
    {g : β → Action (Base σ) δ} (hrest : ∀ a, Follows Anyhow World.below give' (f a) (g (give a))) :
    Follows Anyhow World.below give' (x >>= f) (y >>= g) :=
  h.bind (fun _ _ => trivial) hrest

namespace Allocator

theorem looks_entryNumbers (dir : Path) :
    Follows Looks World.below id (entryNumbers (σ := σ) dir) (entryNumbers dir) := by
  have hlist : Follows Looked FallibleStore.below id (FileStore.list (σ := σ) dir)
      (FileStore.list dir) := follows_look (.list dir) rfl (fun _ => rfl) FallibleStore.list_ok
  apply (looks_onStore hlist).bind Looks.trans
  intro entries
  exact Follows.pure Looks.refl _

theorem looks_vacancy? (naming : Naming) (word : UInt32) :
    Follows Looks World.below id (vacancy? (σ := σ) naming word) (vacancy? naming word) := by
  apply (looks_entryNumbers _).bind Looks.trans
  intro numbers
  simp only [id]
  split
  · exact Follows.pure Looks.refl none
  · exact Follows.pure Looks.refl _

theorem looks_randomDigit (radix : UInt32) :
    Follows Looks World.below id (World.randomDigit (σ := σ) radix) (World.randomDigit radix) :=
  fun _ => ⟨⟨.refl _, rfl⟩, rfl⟩

/-- A scan comes upon the same directories beneath, as long as the store answers. -/
theorem looks_scanFrom (naming : Naming) (maxProbes : UInt32) (probes : Nat) (word : UInt32) :
    Follows Looks World.below id (scanFrom (σ := σ) naming maxProbes probes word)
      (scanFrom naming maxProbes probes word) := by
  induction probes generalizing word with
  | zero => exact Looks.refl
  | succ probes ih =>
    apply (looks_vacancy? naming word).bind Looks.trans
    intro place
    cases place with
    | some slot => exact Follows.pure Looks.refl _
    | none =>
      apply (looks_randomDigit naming.fanout).bind Looks.trans
      intro digit
      exact ih _

theorem looks_isTaken (naming : Naming) (layout : Layout) (id : ObjectId) :
    Follows Looks World.below (fun taken : Bool => taken) (isTaken (σ := σ) naming layout id)
      (isTaken naming layout id) := by
  cases layout with
  | flat =>
    intro w
    refine ⟨.refl w, ?_⟩
    show _ = EStateM.Result.ok (FileStore.isFile (naming.flatPath .temp id) w.store) w.below
    rw [FallibleStore.isFile_eq]
    rfl
  | sharded =>
    unfold isTaken isSlotTaken
    dsimp only
    split
    · exact Follows.pure Looks.refl true
    cases (naming.stem id).parent? with
    | none => exact Follows.pure Looks.refl false
    | some dir =>
      apply (looks_entryNumbers dir).bind Looks.trans
      intro numbers
      exact Follows.pure Looks.refl _

theorem looks_countFrom (naming : Naming) (layout : Layout) (counter fuel : Nat) :
    Follows Looks World.below id (countFrom (σ := σ) naming layout counter fuel)
      (countFrom naming layout counter fuel) := by
  induction fuel with
  | zero => exact Looks.refl
  | succ fuel ih =>
    have hnext : Follows Looks World.below id (World.nextCount (σ := σ) counter)
        (World.nextCount counter) := fun _ => ⟨⟨.refl _, rfl⟩, rfl⟩
    apply hnext.bind Looks.trans
    intro word
    simp only [id]
    split
    · exact fun w => Looks.refl w
    · apply (looks_isTaken naming layout ⟨word⟩).bind Looks.trans
      intro taken
      cases taken with
      | true => exact ih
      | false => exact Follows.pure Looks.refl _

end Allocator

/-- An id that is found over the store is the one that is found over its base, and a search changes no
file. -/
theorem Database.looks_allocate (db : Database) :
    Follows Looks World.below id (db.allocate (σ := σ)) db.allocate := by
  unfold Database.allocate Allocator.allocate
  cases db.allocator with
  | scan maxProbes => exact Allocator.looks_scanFrom _ _ _ _
  | counter place => exact Allocator.looks_countFrom _ _ _ _

theorem Database.echoes_requireServed (db : Database) (layout : Layout) :
    Follows Anyhow World.below id (db.requireServed (σ := σ) layout) (db.requireServed layout) := by
  unfold Database.requireServed
  split
  · exact fun _ => trivial
  · exact fun _ => ⟨trivial, rfl⟩

theorem Database.echoes_openTemp (db : Database) :
    Follows Anyhow World.below (fun t : ObjectId × HandleId × FileStore.Writer σ =>
      (t.1, t.2.1, FallibleStore.writer t.2.2)) db.openTemp db.openTemp := by
  apply (db.looks_allocate.mono fun _ => trivial).then
  intro id
  apply (echoes_onStore fun h => (FallibleStore.create_ok h).1).then
  intro writer
  exact fun _ => ⟨trivial, rfl⟩

namespace Value

variable (db : Database) (v : Value)

theorem echoes_clone : Follows Anyhow World.below id (v.clone (σ := σ)) v.clone := by
  unfold clone
  cases v.file? <;> exact fun _ => ⟨trivial, rfl⟩

theorem echoes_moveTo (ref : ValueFile) (table : TableId) :
    Follows Anyhow World.below id (moveTo (σ := σ) db v ref table) (moveTo db v ref table) := by
  apply (echoes_livePath ref.handle).then
  intro path
  apply (echoes_call FallibleStore.rename_ok).then
  intro _
  exact fun _ => ⟨trivial, rfl⟩

/-- What succeeds is what succeeds beneath: an id is found, and a file is copied to it. -/
theorem echoes_copyTo (ref : ValueFile) (table : TableId) :
    Follows Anyhow World.below id (copyTo (σ := σ) db v ref table) (copyTo db v ref table) := by
  apply (echoes_livePath ref.handle).then
  intro path
  apply (db.looks_allocate.mono fun _ => trivial).then
  intro new w
  simp only [id]
  rcases hcopy : FileStore.copy path (db.naming.path db.layout (.table table) new) w.store with
    ⟨count, s⟩ | ⟨e, s⟩
  · have hbase := FallibleStore.copy_ok hcopy
    rw [onStore_ok hcopy]
    refine ⟨trivial, ?_⟩
    rw [onStore_ok (w := w.below) hbase]
    rfl
  · rw [onStore_error hcopy]
    dsimp only
    cases World.discard (db.naming.path db.layout (.table table) new) { w with store := s } <;> trivial

theorem echoes_link (table : TableId) :
    Follows Anyhow World.below id (v.link (σ := σ) db table) (v.link db table) := by
  unfold link
  cases v.content with
  | inline data stamp =>
    dsimp only
    split <;> exact fun _ => ⟨trivial, rfl⟩
  | file ref =>
    apply (echoes_livePath ref.handle).then
    intro _
    apply (db.echoes_requireServed ref.layout).then
    intro _
    cases ref.owner with
    | temp => exact echoes_moveTo db v ref table
    | table owner =>
      dsimp only
      split
      · exact echoes_clone v
      · exact echoes_copyTo db v ref table

theorem echoes_unlink : Follows Anyhow World.below id (v.unlink (σ := σ) db) (v.unlink db) := by
  unfold unlink
  cases v.content with
  | inline data stamp => exact fun _ => ⟨trivial, rfl⟩
  | file ref =>
    apply (echoes_livePath ref.handle).then
    intro path
    apply (db.echoes_requireServed ref.layout).then
    intro _
    dsimp only
    split
    · exact echoes_clone v
    apply (echoes_call FallibleStore.delete_ok).then
    intro _
    apply (echoes_call FallibleStore.rename_ok).then
    intro _
    exact fun _ => ⟨trivial, rfl⟩

theorem echoes_close : Follows Anyhow World.below id (v.close (σ := σ)) v.close := by
  unfold close
  cases v.content with
  | inline data stamp => exact fun _ => ⟨trivial, rfl⟩
  | file ref =>
    have hget : Follows Anyhow World.below World.below (get : Action σ (World σ)) get :=
      fun _ => ⟨trivial, rfl⟩
    apply hget.then
    intro w
    dsimp only
    rw [show w.below.handle ref.handle = w.handle ref.handle from rfl]
    split
    · exact fun _ => ⟨trivial, rfl⟩
    apply (echoes_call FallibleStore.delete_ok).then
    intro _
    exact fun _ => ⟨trivial, rfl⟩

variable [Codec]

/-- A file that comes to be written in full is written in full beneath, from the same intake. -/
theorem echoes_createInFile (first : Bytes) (count remaining : Nat) (intake : Intake σ) :
    Follows Anyhow World.below id (createInFile db first count remaining intake)
      (createInFile db first count remaining intake.below) := by
  apply db.echoes_openTemp.then
  rintro ⟨id, handle, writer⟩ w
  dsimp only
  cases hfill : fillFile db.settings writer first remaining intake w.store with
  | ok total s =>
    obtain ⟨-, hbase⟩ := (follows_fillFile db.settings writer first remaining intake).ok hfill
    rw [show fillFile db.settings (FallibleStore.writer writer) first remaining intake.below
      w.below.store = _ from hbase]
    refine ⟨trivial, ?_⟩
    simp only [World.below, FallibleStore.close_eq]
    rfl
  | error e s =>
    dsimp only
    cases World.release handle { w with store := FileStore.close writer s } <;> trivial

theorem echoes_create (kind : Kind) (source : Source σ) (declared : Option Nat) :
    Follows Anyhow World.below id (create db kind source declared)
      (create db kind source.below declared) := by
  intro w
  simp only [create]
  rcases htake : Intake.take (ChunkSize.next (declared.getD unlimited) db.settings.inlineThreshold
      (db.settings.compressionFor kind).isSome) (({ kind, source } : Intake σ), w.store) with
    ⟨⟨first, count⟩, intake, s⟩ | ⟨e, intake, s⟩
  · obtain ⟨-, hbase⟩ := (Intake.follows_take _).ok htake
    simp only [Intake.view, Intake.below, id] at hbase
    rw [show w.below.store = FallibleStore.below w.store from rfl, hbase]
    dsimp only
    split
    · exact ⟨trivial, rfl⟩
    · exact echoes_createInFile db first count _ intake { w with store := s }
  · trivial

theorem echoes_reader : Follows Anyhow World.below ContentReader.below (v.reader (σ := σ)) v.reader := by
  unfold reader
  cases v.content with
  | inline data stamp => exact fun _ => ⟨trivial, rfl⟩
  | file ref =>
    apply (echoes_livePath ref.handle).then
    intro path
    apply (echoes_onStore fun h => (FallibleStore.openRead_ok h).1).then
    intro r
    exact echoes_onStore fun h => ((ContentReader.follows_start r ref.compressed).ok h).2

/-- A value that is converted is converted beneath as well, to the same value. -/
theorem echoes_convert (kind : Kind) :
    Follows Anyhow World.below id (v.convert (σ := σ) db kind) (v.convert db kind) := by
  unfold convert
  split
  · exact echoes_clone v
  · apply (echoes_reader v).then
    intro r
    exact echoes_create db kind (.stored r) none

end Value

end LargeObjects
