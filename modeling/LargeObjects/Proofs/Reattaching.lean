import Mathlib
import LargeObjects.Proofs.Coverage

/-! Attaching what a row records, in a database that had flat names and then a tree. Table and id are
all that is recorded, and the tree does not know which ids the flat files have. -/
namespace LargeObjects

open ReliableStore

namespace Value

variable {σ : Type} [FileStore σ]

def attachLayout (db : Database) (table : TableId) (id : ObjectId) (s : σ) : Layout :=
  if db.layout = .sharded ∧ !FileStore.isFile (db.naming.path .sharded (.table table) id) s ∧
      FileStore.isFile (db.naming.path .flat (.table table) id) s then .flat
  else db.layout

/-- Nobody has number zero. -/
theorem attach_zero (db : Database) (kind : Kind) (table : TableId) {id : ObjectId} (precision : Nat)
    (compressed : Bool) (w : World σ) (hid : id.word = 0) :
    attach db kind table id precision compressed w = .error (.forbidden .objectZero) w := by
  unfold attach
  rw [if_pos hid]
  rfl

/-- Attaching asks which of the two names has a file, and reads nothing. -/
theorem attach_ok (db : Database) (kind : Kind) (table : TableId) {id : ObjectId} (precision : Nat)
    (compressed : Bool) (w : World σ) (hid : id.word ≠ 0) :
    let layout := attachLayout db table id w.store
    attach db kind table id precision compressed w =
      .ok { kind
            precision
            content := .file
              { id, owner := .table table, compressed, layout, handle := w.handles.length } }
        { w with handles := w.handles ++
          [{ path := db.naming.path layout (.table table) id, armed := false }] } := by
  have hget : (get : Action σ (World σ)) w = .ok w w := rfl
  unfold attach
  rw [if_neg hid]
  rfl

end Value

namespace Kept

variable [Codec] {σ : Type} [FileStore σ] [ReliableStore σ] {n : Naming} {db db' : Database}
  {s : Session σ} {h : Held} {ref : ValueFile}

/-- What is in custody stays so when another database takes over, unless that one counts. -/
theorem reopen (hk : Kept db n s) (hscan : ∀ place, db'.allocator ≠ .counter place) :
    Kept db' n s :=
  ⟨hk.held_made, hk.whole, hk.backed, hk.counted, hk.shared, hk.apart,
    fun hplace => absurd hplace (hscan _)⟩

end Kept

namespace Session

variable {σ : Type} {s : Session σ} {h : Held} {ref : ValueFile} {table : TableId}

structure Linked (s : Session σ) (h : Held) (ref : ValueFile) (table : TableId) : Prop where
  made : h ∈ s.made
  content_eq : h.value.content = .file ref
  owner_eq : ref.owner = .table table
  live : (s.world.handle ref.handle).retired = false

variable [FileStore σ]

section Attaching

variable [Codec] [ReliableStore σ] {db : Database}

theorem Linked.owns (h' : s.Linked h ref table) (hk : Kept db db.naming s) :
    s.world.Owns ref.handle := by
  refine ⟨h'.live, fun harmed => ?_⟩
  rw [(hk.backed ⟨h, h'.made, h'.content_eq, rfl⟩).armed_iff, h'.owner_eq] at harmed
  cases harmed

/-- Attaching the record of a linked value that has its file. -/
theorem attach_of_linked (hk : Kept db db.naming s) (hsharded : db.layout = .sharded)
    (hlinked : s.Linked h ref table) :
    ∃ a w, Value.attach db h.value.kind table ref.id h.value.precision ref.compressed s.world =
        .ok a w ∧
      (a.path? w = h.value.path? s.world ↔ ref.layout = .sharded ∨
        FileStore.isFile (db.naming.path .sharded ref.owner ref.id) s.world.store = false) ∧
      (a.path? w = h.value.path? s.world → a.readBytes w = .ok h.origin w) ∧
      (a.path? w = h.value.path? s.world ∨
        a.path? w = some (db.naming.path .sharded ref.owner ref.id)) := by
  have howns := hlinked.owns hk
  obtain ⟨hmade, hcontent, howner, -⟩ := hlinked
  have hb := hk.backed ⟨h, hmade, hcontent, rfl⟩
  obtain ⟨stored, hfile, hstores⟩ := hb.stored howns
  rw [howner] at hfile ⊢
  have hattach := Value.attach_ok db h.value.kind table h.value.precision ref.compressed s.world
    hb.proper.word_ne
  have hthere : FileStore.isFile (db.naming.path ref.layout (.table table) ref.id) s.world.store =
      true := by
    rw [isFile_eq, hfile]
    rfl
  have hlayout : Value.attachLayout db table ref.id s.world.store = ref.layout ↔
      ref.layout = .sharded ∨
        FileStore.isFile (db.naming.path .sharded (.table table) ref.id) s.world.store = false := by
    unfold Value.attachLayout
    cases href : ref.layout with
    | sharded =>
      rw [href] at hthere
      simp [hsharded, hthere]
    | flat =>
      rw [href] at hthere
      simp [hsharded, hthere]
  have hpath : h.value.path? s.world = some (db.naming.path ref.layout (.table table) ref.id) := by
    rw [Value.path?, Value.file?, hcontent, Option.map_some, hb.path_eq, howner]
  generalize Value.attachLayout db table ref.id s.world.store = layout at *
  have hnew : ({ s.world with handles := s.world.handles ++
      [{ path := db.naming.path layout (.table table) ref.id, armed := false }] } : World σ).handle
        s.world.handles.length =
      { path := db.naming.path layout (.table table) ref.id, armed := false } :=
    World.handle_append_new rfl
  refine ⟨_, _, hattach, ?_, fun heq => ?_, ?_⟩
  · rw [hpath, ← hlayout, ← db.naming.path_eq_iff layout ref.layout (.table table) ref.id]
    simp only [Value.path?, Value.file?, Option.map_some, hnew, Option.some.injEq]
  · rw [hpath] at heq
    simp only [Value.path?, Value.file?, Option.map_some, hnew, Option.some.injEq] at heq
    refine Value.readBytes_ok rfl ?_ ?_ hstores
    · rw [hnew]
    · rw [hnew]
      dsimp only
      rw [heq]
      exact hfile
  · rw [hpath]
    simp only [Value.path?, Value.file?, Option.map_some, hnew, Option.some.injEq]
    cases layout with
    | sharded => exact Or.inr rfl
    | flat =>
      cases href : ref.layout with
      | sharded => exact absurd (hlayout.2 (Or.inl href)) (by rw [href]; rintro ⟨⟩)
      | flat => exact Or.inl rfl

/-- A database works with flat names at first, over any files, and then with a tree. A value that was
linked in either time and has not lost its file can be attached in the tree from what its row
records. It is found under its own name, with its own content, exactly when it is in the tree itself
or no file in the tree has its table and id; such a file is found in its place. -/
theorem attach_after_flat [Codec.Inverts] {base : Path} {old new : Settings} {flat tree : Database}
    {w₀ w₁ w₂ : World σ} {s₁ s₂ : Session σ}
    (hold : old.layout = .flat) (hopen₁ : Database.openAt base old w₀ = .ok flat w₁)
    (hreaches₁ : Reaches flat { world := w₁ } s₁)
    (hnew : new.layout = .sharded) (hopen₂ : Database.openAt base new s₁.world = .ok tree w₂)
    (hreaches₂ : Reaches tree { s₁ with world := w₂ } s₂) (hlinked : s₂.Linked h ref table) :
    h.value.readBytes s₂.world = .ok h.origin s₂.world ∧
    ∃ a w, Value.attach tree h.value.kind table ref.id h.value.precision ref.compressed s₂.world =
        .ok a w ∧
      (a.path? w = h.value.path? s₂.world ↔ ref.layout = .sharded ∨
        FileStore.isFile (tree.naming.path .sharded ref.owner ref.id) s₂.world.store = false) ∧
      (a.path? w = h.value.path? s₂.world → a.readBytes w = .ok h.origin w) ∧
      (a.path? w = h.value.path? s₂.world ∨
        a.path? w = some (tree.naming.path .sharded ref.owner ref.id)) := by
  obtain ⟨rfl, hbase, hopened₂, hsharded, hscan⟩ := Database.openAt_tree hnew hopen₂
  obtain ⟨hopened₁, hcounting⟩ := Database.openAt_flat hold hopen₁
  have hk₁ := hreaches₁.kept (hopened₁ hbase) (kept_start hcounting)
  have hk₂ := hreaches₂.kept hopened₂ (hk₁.reopen hscan)
  exact ⟨readBytes_of_owns hk₂ hlinked.made hlinked.content_eq (hlinked.owns hk₂),
    attach_of_linked hk₂ hsharded hlinked⟩

end Attaching

def flatSettings : Settings := { inlineThreshold := 2, layout := .flat }

def flatDatabase : Database where
  settings := flatSettings
  naming := ⟨⟨['d', '/', 'b']⟩, 256⟩
  allocator := .counter 0

def countingWorld : World MemoryStore := { emptyWorld with counters := [1] }

def flatSession : Session MemoryStore :=
  ({ world := countingWorld : Session MemoryStore }.step flatDatabase
    (.create .binary threeOctets none)).step flatDatabase (.link 0 ⟨6⟩)

def mixedSession (table : TableId) : Session MemoryStore :=
  (flatSession.step smallDatabase (.create .binary threeOthers none)).step smallDatabase
    (.link 2 table)

theorem openAt_countingWorld : Database.openAt ⟨['d', '/', 'b']⟩ flatSettings emptyWorld =
    .ok flatDatabase countingWorld := rfl

theorem openAt_small (w : World MemoryStore) :
    Database.openAt ⟨['d', '/', 'b']⟩ smallSettings w = .ok smallDatabase w := rfl

theorem fits_of_count {w : World MemoryStore} (h : w.counters.getD 0 0 ≠ 0) :
    flatDatabase.Fits w := h

theorem reaches_flatSession : Reaches flatDatabase { world := countingWorld } flatSession :=
  .step _ (.step _ .start fun _ => fits_of_count (by decide)) fun _ =>
    fits_of_count (by decide +kernel)

theorem reaches_mixedSession (table : TableId) :
    Reaches smallDatabase flatSession (mixedSession table) := by
  refine .step _ (.step _ .start fun _ => ?_) fun _ => ?_
  · exact fits_of_place 0 1 rfl (by decide)
  · exact fits_of_place 0 2 rfl (by decide)

def flatFile : ValueFile where
  id := ⟨1⟩
  owner := .table ⟨6⟩
  compressed := false
  layout := .flat
  handle := 1

def flatHeld : Held where
  value := { kind := .binary, precision := 3, content := .file flatFile }
  origin := [1, 2, 3]

theorem linked_flatHeld (table : TableId) : (mixedSession table).Linked flatHeld flatFile ⟨6⟩ :=
  ⟨List.mem_cons_of_mem _ List.mem_cons_self, rfl, rfl, rfl⟩

/-- A value of three octets is made with a flat name and given to table 6. Then another one is made in
the tree and given to table 7, and the first is attached there and found. -/
theorem attach_after_flat_elsewhere :
    flatSettings.layout = .flat ∧ smallSettings.layout = .sharded ∧
    Database.openAt ⟨['d', '/', 'b']⟩ flatSettings emptyWorld = .ok flatDatabase countingWorld ∧
    Reaches flatDatabase { world := countingWorld } flatSession ∧
    Database.openAt ⟨['d', '/', 'b']⟩ smallSettings flatSession.world =
      .ok smallDatabase flatSession.world ∧
    Reaches smallDatabase flatSession (mixedSession ⟨7⟩) ∧
    ∃ h ref, (mixedSession ⟨7⟩).Linked h ref ⟨6⟩ ∧ ref.layout = .flat ∧
      ∃ a w, Value.attach smallDatabase h.value.kind ⟨6⟩ ref.id h.value.precision ref.compressed
          (mixedSession ⟨7⟩).world = .ok a w ∧
        a.path? w = h.value.path? (mixedSession ⟨7⟩).world ∧ a.readBytes w = .ok [1, 2, 3] w := by
  have hreaches := reaches_mixedSession ⟨7⟩
  have hfree : FileStore.isFile (smallDatabase.naming.path .sharded (.table ⟨6⟩) ⟨1⟩)
      (mixedSession ⟨7⟩).world.store = false := by decide +kernel
  obtain ⟨-, a, w, hattach, hpath, hread, -⟩ := attach_after_flat rfl openAt_countingWorld
    reaches_flatSession rfl (openAt_small _) hreaches (linked_flatHeld _)
  have hsame := hpath.2 (Or.inr hfree)
  exact ⟨rfl, rfl, openAt_countingWorld, reaches_flatSession, openAt_small _, hreaches, flatHeld,
    flatFile, linked_flatHeld _, rfl, a, w, hattach, hsame, hread hsame⟩

def fullWorld : World MemoryStore where
  store := (default : MemoryStore).put
    (flatDatabase.naming.flatPath (.table ⟨6⟩) ⟨Allocator.lastWord - 1⟩) [7]

def lateSession : Session MemoryStore :=
  (({ world := { fullWorld with counters := [Allocator.lastWord] } : Session MemoryStore }.step
    flatDatabase (.create .binary threeOctets none)).step flatDatabase
    (.create .binary threeOctets none)).step flatDatabase (.link 0 ⟨6⟩)

def decimalSettings : Settings := { inlineThreshold := 2, fanout := 10, maxProbes := 10 }

def decimalDatabase : Database where
  settings := decimalSettings
  naming := ⟨⟨['d', '/', 'b']⟩, 10⟩
  allocator := .scan 10

def crowd (count : Nat) (s : MemoryStore) (word : UInt32) : MemoryStore :=
  (List.range' 1 count).foldl (fun s i => s.put
    ((decimalDatabase.naming.stem ⟨word⟩).join (Numeral.write i ++ ['.', 'd', 'b'])) []) s

/-- The world where all directories on the way to the last one are full, chance leads a search
there, and the next place in it is just past the last word. -/
def crowdedWorld : World MemoryStore where
  store := crowd 5 ([0, 40, 420, 4290, 42940, 429490, 4294960, 42949670, 429496720].foldl
    (crowd 10) default) 4294967290
  counters := []
  entropy := { word := fun i => [3, 1, 8, 3, 8, 5, 6, 1, 8].getD i 0 }

theorem openAt_decimal (w : World MemoryStore) :
    Database.openAt ⟨['d', '/', 'b']⟩ decimalSettings w = .ok decimalDatabase w := rfl

theorem openAt_crowdedWorld : Database.openAt ⟨['d', '/', 'b']⟩ flatSettings crowdedWorld =
    .ok flatDatabase { crowdedWorld with counters := [1] } := by
  rfl

def overflowSession : Session MemoryStore :=
  ({ world := { crowdedWorld with counters := [1] } : Session MemoryStore }.step decimalDatabase
    (.create .binary threeOctets none)).step decimalDatabase (.link 0 ⟨6⟩)

def hasZero (s : Session σ) (table : TableId) : Bool :=
  s.made.any fun h => match h.value.content with
    | .file ref => ref.id.word = 0 && ref.owner = .table table && !(s.world.handle ref.handle).retired
    | .inline _ _ => false

/-- Number zero cannot be attached, though a linked value may have it once words have run over. -/
theorem attach_of_hasZero (db : Database) (hzero : s.hasZero table = true) :
    ∃ h ref, s.Linked h ref table ∧ Value.attach db h.value.kind table ref.id h.value.precision
      ref.compressed s.world = .error (.forbidden .objectZero) s.world := by
  obtain ⟨h, hmade, hmatch⟩ := List.any_eq_true.1 hzero
  cases hcontent : h.value.content with
  | inline data stamp => simp only [hcontent, Bool.false_eq_true] at hmatch
  | file ref =>
    simp only [hcontent, Bool.and_eq_true, decide_eq_true_eq, Bool.not_eq_true'] at hmatch
    obtain ⟨⟨hid, howner⟩, hlive⟩ := hmatch
    exact ⟨h, ref, ⟨hmade, hcontent, howner, hlive⟩, Value.attach_zero db _ _ _ _ _ hid⟩

theorem hasZero_overflowSession : overflowSession.hasZero ⟨6⟩ = true := by decide +kernel

/-- A value with a flat name is not found when one in the tree was given its table and id. When a
counter has run out, or a place is past the words, a value is linked that cannot be attached. -/
theorem attach_misses_flat :
    (Database.openAt ⟨['d', '/', 'b']⟩ flatSettings emptyWorld = .ok flatDatabase countingWorld ∧
      Reaches flatDatabase { world := countingWorld } flatSession ∧
      Database.openAt ⟨['d', '/', 'b']⟩ smallSettings flatSession.world =
        .ok smallDatabase flatSession.world ∧
      Reaches smallDatabase flatSession (mixedSession ⟨6⟩) ∧
      ∃ h ref, (mixedSession ⟨6⟩).Linked h ref ⟨6⟩ ∧
        h.value.readBytes (mixedSession ⟨6⟩).world = .ok [1, 2, 3] (mixedSession ⟨6⟩).world ∧
        ∃ a w, Value.attach smallDatabase h.value.kind ⟨6⟩ ref.id h.value.precision ref.compressed
            (mixedSession ⟨6⟩).world = .ok a w ∧
          a.path? w ≠ h.value.path? (mixedSession ⟨6⟩).world ∧ a.readBytes w = .ok [4, 5, 6] w) ∧
    (Database.openAt ⟨['d', '/', 'b']⟩ flatSettings fullWorld =
        .ok flatDatabase { fullWorld with counters := [Allocator.lastWord] } ∧
      Database.openAt ⟨['d', '/', 'b']⟩ smallSettings lateSession.world =
        .ok smallDatabase lateSession.world ∧
      ∃ h ref, lateSession.Linked h ref ⟨6⟩ ∧
        Value.attach smallDatabase h.value.kind ⟨6⟩ ref.id h.value.precision ref.compressed
          lateSession.world = .error (.forbidden .objectZero) lateSession.world) ∧
    Database.openAt ⟨['d', '/', 'b']⟩ flatSettings crowdedWorld =
        .ok flatDatabase { crowdedWorld with counters := [1] } ∧
      Database.openAt ⟨['d', '/', 'b']⟩ decimalSettings { crowdedWorld with counters := [1] } =
        .ok decimalDatabase { crowdedWorld with counters := [1] } ∧
      ∃ h ref, overflowSession.Linked h ref ⟨6⟩ ∧
        Value.attach decimalDatabase h.value.kind ⟨6⟩ ref.id h.value.precision ref.compressed
          overflowSession.world = .error (.forbidden .objectZero) overflowSession.world := by
  refine ⟨⟨openAt_countingWorld, reaches_flatSession, openAt_small _, reaches_mixedSession ⟨6⟩,
    ?_⟩, ⟨rfl, openAt_small _, attach_of_hasZero _ ?_⟩, openAt_crowdedWorld, openAt_decimal _,
    attach_of_hasZero _ hasZero_overflowSession⟩
  · refine ⟨flatHeld, flatFile, linked_flatHeld _, rfl, _, _,
      Value.attach_ok _ _ _ _ _ _ (by decide), ?_, rfl⟩
    decide +kernel
  · decide +kernel

end Session

end LargeObjects
