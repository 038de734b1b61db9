import Mathlib
import LargeObjects.Proofs.Frames
import LargeObjects.Proofs.MemoryLaws
import LargeObjects.Proofs.Operations

/-! The files of a tree in which only sessions work. None of them is an orphan: a temporary file has a
value that holds it, and a linked one the handle under which it was made. -/
namespace LargeObjects

open ReliableStore

section Runs

variable [Codec] {σ : Type} [FileStore σ] [ReliableStore σ] {n : Naming} {db : Database}
  {s s' : Session σ}

def Session.Covers (n : Naming) (s : Session σ) (q : List Component) : Prop :=
  ∃ ref origin, s.Uses ref origin ∧ s.world.Owns ref.handle ∧
    (n.path ref.layout ref.owner ref.id).components = q

structure Tracked (n : Naming) (s : Session σ) : Prop where
  tree : ∀ {ref origin}, s.Uses ref origin → ref.layout = .sharded
  covered : ∀ q, (fileAt? s.world.store q).isSome → s.Covers n q

namespace Tracked

variable {w' : World σ} {h : Held} {ref : ValueFile}

omit [Codec] in
/-- Files stay covered where no handle loses its file. -/
theorem later (ht : Tracked n s) (huses : ∀ {ref origin}, s'.Uses ref origin ↔ s.Uses ref origin)
    (howns : ∀ {ref origin}, s.Uses ref origin → s.world.Owns ref.handle → s'.world.Owns ref.handle)
    (hfile : ∀ q, fileAt? s'.world.store q = fileAt? s.world.store q) : Tracked n s' := by
  refine ⟨fun hu => ht.tree (huses.1 hu), fun q hq => ?_⟩
  rw [hfile] at hq
  obtain ⟨ref, origin, hu, ho, hpath⟩ := ht.covered q hq
  exact ⟨ref, origin, huses.2 hu, howns hu ho, hpath⟩

/-- A change for one handle keeps the files covered that are not its own. -/
theorem covered_of_spares (hk : Kept db n s) (ht : Tracked n s) {k : HandleId}
    (hspares : Spares n k s w') {q : List Component} (hq : (fileAt? s.world.store q).isSome)
    (hnot : ∀ {ref origin}, s.Uses ref origin → ref.handle = k →
      (n.path ref.layout ref.owner ref.id).components ≠ q) : { s with world := w' }.Covers n q := by
  obtain ⟨ref, origin, hu, ho, hpath⟩ := ht.covered q hq
  have hne : ref.handle ≠ k := fun heq => hnot hu heq hpath
  exact ⟨ref, origin, hu, (hk.elsewhere hspares hu hne).2.2 ho, hpath⟩

end Tracked

namespace Session

variable {w' : World σ} {h : Held} {ref : ValueFile}

omit [Codec] [FileStore σ] [ReliableStore σ] in
theorem Covers.hold {q : List Component} (hc : { s with world := w' }.Covers n q) :
    (s.hold h w').Covers n q := by
  obtain ⟨ref, origin, ⟨h', hmem, hrest⟩, ho, hpath⟩ := hc
  exact ⟨ref, origin, ⟨h', List.mem_append_left _ hmem, hrest⟩, ho, hpath⟩

omit [Codec] [FileStore σ] [ReliableStore σ] in
/-- The file of a new value is covered. -/
theorem covers_new (hcontent : h.value.content = .file ref) {path : Path}
    (hnew : w'.handle ref.handle = .new path ref.owner) :
    (s.hold h w').Covers n (n.path ref.layout ref.owner ref.id).components := by
  refine ⟨ref, h.origin, (uses_hold hcontent).2 (Or.inr ⟨rfl, rfl⟩), ?_, rfl⟩
  unfold World.Owns hold
  rw [hnew]
  exact ⟨rfl, fun _ => Nat.one_pos⟩

end Session

namespace Tracked

variable {w₁ w' : World σ} {store : σ} {h : Held} {ref : ValueFile} {origin : Bytes} {id : ObjectId}
  {owner : Owner} {i : Nat}

theorem make (hk : Kept db n s) (ht : Tracked n s) (hopen : db.Opened n)
    (hlayout : db.layout = .sharded) {v : Value} {stored : Bytes} {compressed : Bool}
    (hfits : db.Fits s.world) (halloc : db.allocate s.world = .ok id w₁)
    (hcontent : v.content = .file
      { id, owner, compressed, layout := db.layout, handle := s.world.handles.length })
    (hchanges : Changes (db.naming.path db.layout owner id).components (some stored)
      s.world.store store) :
    Tracked n (s.hold ⟨v, origin⟩ { w₁ with
      store
      handles := w₁.handles ++ [.new (db.naming.path db.layout owner id) owner] }) := by
  have hspares := hk.spares_append hopen hfits halloc hchanges
    (.new (db.naming.path db.layout owner id) owner)
  have hhandles : w₁.handles ++ [Handle.new (db.naming.path db.layout owner id) owner] =
      s.world.handles ++ [.new (db.naming.path db.layout owner id) owner] := by
    rw [(db.allocate_sameFiles.1 halloc).handles_eq]
  refine ⟨fun hu => ?_, fun q hq => ?_⟩
  · rcases (Session.uses_hold hcontent).1 hu with hu | ⟨rfl, -⟩
    · exact ht.tree hu
    · exact hlayout
  -- A file is the new one, or it was there before and has the handle that it had.
  by_cases hpath : q = (db.naming.path db.layout owner id).components
  · let w' : World σ := { w₁ with
      store
      handles := w₁.handles ++ [.new (db.naming.path db.layout owner id) owner] }
    have hnew : w'.handle s.world.handles.length =
        .new (db.naming.path db.layout owner id) owner := World.handle_append_new hhandles
    have hcovers := Session.covers_new (n := n) (s := s) (h := ⟨v, origin⟩) hcontent hnew
    rw [hpath]
    rwa [← hopen.path_new] at hcovers
  · have hold : (fileAt? s.world.store q).isSome := by rwa [← hchanges.elsewhere q hpath]
    exact (covered_of_spares hk ht hspares hold fun hu heq => absurd heq (hk.not_new hu)).hold

theorem lost (hk : Kept db n s) (ht : Tracked n s) (hopen : db.Opened n) (hfits : db.Fits s.world)
    (halloc : db.allocate s.world = .ok id w₁)
    (hchanges : Changes (db.naming.path db.layout .temp id).components none s.world.store store)
    (new : Handle) :
    Tracked n { s with world := { w₁ with store, handles := w₁.handles ++ [new] } } := by
  have hspares := hk.spares_append hopen hfits halloc hchanges new
  refine ⟨ht.tree, fun q hq => ?_⟩
  have hpath : q ≠ (db.naming.path db.layout .temp id).components := by
    rintro rfl
    dsimp only at hq
    rw [hchanges.there] at hq
    cases hq
  have hold : (fileAt? s.world.store q).isSome := by rwa [← hchanges.elsewhere q hpath]
  exact covered_of_spares hk ht hspares hold fun hu heq => absurd heq (hk.not_new hu)

/-- A file that is gone needs no handle. -/
theorem covered_of_gone (hk : Kept db n s) (ht : Tracked n s) (huses : s.Uses ref origin)
    (hspares : Spares n ref.handle s w')
    (hchanges : Changes (s.world.handle ref.handle).path.components none s.world.store w'.store)
    {q : List Component} (hq : (fileAt? w'.store q).isSome) :
    { s with world := w' }.Covers n q := by
  have hpath : q ≠ (s.world.handle ref.handle).path.components := by
    rintro rfl
    rw [hchanges.there] at hq
    cases hq
  have hold : (fileAt? s.world.store q).isSome := by rwa [← hchanges.elsewhere q hpath]
  refine covered_of_spares hk ht hspares hold fun hu heq hsame => hpath ?_
  obtain ⟨rfl, -⟩ := hk.shared hu huses heq
  rw [← hsame, (hk.backed huses).path_eq]

theorem close (hk : Kept db n s) (ht : Tracked n s) (hmem : h ∈ s.held)
    (hcontent : h.value.content = .file ref)
    (hlive : (s.world.handle ref.handle).retired = false)
    (hchanges : Changes (s.world.handle ref.handle).path.components none s.world.store store) :
    Tracked n { s with world := { s.world with
      store
      handles := s.world.handles.modify ref.handle Handle.retire } } := by
  have huses : s.Uses ref h.origin := ⟨h, hk.held_made hmem, hcontent, rfl⟩
  obtain ⟨hspares, -⟩ := hk.retire_gone hmem hcontent hlive hchanges
  exact ⟨ht.tree, fun q hq => covered_of_gone hk ht huses hspares hchanges hq⟩

theorem move (hk : Kept db n s) (ht : Tracked n s) (hopen : db.Opened n) (hmem : h ∈ s.held)
    (hcontent : h.value.content = .file ref)
    (hlive : (s.world.handle ref.handle).retired = false)
    (hserved : ¬(ref.layout = .sharded ∧ db.layout = .flat))
    (hmoves : Moves (s.world.handle ref.handle).path.components
      (db.naming.path ref.layout owner ref.id).components s.world.store store) :
    Tracked n (s.hold
      ⟨h.value.withFile { ref with owner, handle := s.world.handles.length }, h.origin⟩
      { s.world with
        store
        handles := s.world.handles.modify ref.handle Handle.retire ++
          [.new (db.naming.path ref.layout owner ref.id) owner] }) := by
  have huses : s.Uses ref h.origin := ⟨h, hk.held_made hmem, hcontent, rfl⟩
  have hb := hk.backed huses
  let w' : World σ := { s.world with
    store
    handles := s.world.handles.modify ref.handle Handle.retire ++
      [.new (db.naming.path ref.layout owner ref.id) owner] }
  have hhandles : w'.handles = s.world.handles.modify ref.handle Handle.retire ++
      [.new (db.naming.path ref.layout owner ref.id) owner] := rfl
  obtain ⟨hspares, -, -⟩ := hk.retire_moved hopen hmem hcontent hlive hserved hmoves
    [.new (db.naming.path ref.layout owner ref.id) owner]
  rw [hopen.path_eq hserved] at hmoves
  refine ⟨fun hu => ?_, fun q hq => ?_⟩
  · rcases (Session.uses_hold rfl).1 hu with hu | ⟨rfl, -⟩
    · exact ht.tree hu
    · have hlayout := ht.tree huses
      exact hlayout
  -- A file is the moved one or was there before, and nothing is left at the source.
  by_cases htarget : q = (n.path ref.layout owner ref.id).components
  · have hnew := World.handle_modify_append_new hhandles
    let h' : Held := ⟨h.value.withFile { ref with owner, handle := s.world.handles.length }, h.origin⟩
    have hcontent' : h'.value.content =
        .file { ref with owner, handle := s.world.handles.length } := rfl
    rw [htarget]
    exact Session.covers_new hcontent' hnew
  have hsource : q ≠ (s.world.handle ref.handle).path.components := by
    rintro rfl
    have hleft : fileAt? store (s.world.handle ref.handle).path.components = none := hmoves.left
    unfold Session.hold at hq
    rw [hleft] at hq
    cases hq
  have hold : (fileAt? s.world.store q).isSome := by
    rwa [← hmoves.elsewhere q hsource htarget]
  refine (covered_of_spares hk ht hspares hold fun hu heq hsame => hsource ?_).hold
  obtain ⟨rfl, -⟩ := hk.shared hu huses heq
  rw [← hsame, hb.path_eq]

omit [Codec] [FileStore σ] [ReliableStore σ] in
/-- A handle whose holders change keeps its file if some holder is left. -/
theorem owns_modify {w : World σ} {f : Handle → Handle} {k j : HandleId}
    (hhandles : w'.handles = w.handles.modify k f ++ []) (hk : w.Knows k) (hj : w.Knows j)
    (hkeeps : w.Owns k → (f (w.handle k)).retired = false ∧
      ((f (w.handle k)).armed = true → 0 < (f (w.handle k)).holders))
    (ho : w.Owns j) : w'.Owns j := by
  have hhandle := World.handle_modify_append hhandles hk hj
  unfold World.Owns
  by_cases heq : j = k
  · rw [if_pos heq] at hhandle
    rw [hhandle, heq]
    rw [heq] at ho
    exact hkeeps ho
  · rw [if_neg heq] at hhandle
    rw [hhandle]
    exact ho

theorem share (hk : Kept db n s) (ht : Tracked n s) (hmem : h ∈ s.held)
    (hcontent : h.value.content = .file ref) :
    Tracked n (s.hold h
      { s.world with handles := s.world.handles.modify ref.handle Handle.takeHold }) := by
  have huses : s.Uses ref h.origin := ⟨h, hk.held_made hmem, hcontent, rfl⟩
  refine ht.later (fun {ref' origin'} => ?_) (fun hu ho => ?_) fun _ => rfl
  · rw [Session.uses_hold hcontent]
    refine ⟨fun hu => ?_, Or.inl⟩
    rcases hu with hu | ⟨rfl, rfl⟩
    · exact hu
    · exact huses
  · refine owns_modify (List.append_nil _).symm (hk.backed huses).known (hk.backed hu).known ?_ ho
    rintro ⟨hlive, -⟩
    exact ⟨hlive, fun _ => Nat.succ_pos _⟩

theorem release (hk : Kept db n s) (ht : Tracked n s) (hi : s.held[i]? = some h)
    (hcontent : h.value.content = .file ref)
    (hkeeps : ¬(s.world.handle ref.handle).Discards → store = s.world.store)
    (hdiscards : (s.world.handle ref.handle).Discards →
      Changes (s.world.handle ref.handle).path.components none s.world.store store) :
    Tracked n { s with
      world := { s.world with
        store
        handles := s.world.handles.modify ref.handle Handle.letGo }
      held := s.held.eraseIdx i } := by
  have hmem := List.mem_of_getElem? hi
  have huses : s.Uses ref h.origin := ⟨h, hk.held_made hmem, hcontent, rfl⟩
  by_cases hlast : (s.world.handle ref.handle).Discards
  · have hspares := hk.spares_release hmem hcontent hkeeps fun h => (hdiscards h).elsewhere
    exact ⟨ht.tree, fun q hq => covered_of_gone hk ht huses hspares (hdiscards hlast) hq⟩
  · refine ht.later Iff.rfl (fun hu ho => ?_) fun q => by rw [hkeeps hlast]
    refine owns_modify (List.append_nil _).symm (hk.backed huses).known (hk.backed hu).known ?_ ho
    rintro ⟨hlive, -⟩
    refine ⟨hlive, fun harmed => Nat.pos_of_ne_zero fun hzero => hlast ⟨hzero, ?_⟩⟩
    exact Handle.isAutoDelete_iff.2 ⟨harmed, hlive⟩

end Tracked

/-- No change of a session leaves a file without a handle. -/
theorem Transition.tracked (h : Transition db s s') (hopen : db.Opened n)
    (hlayout : db.layout = .sharded) (hk : Kept db n s) (ht : Tracked n s) : Tracked n s' := by
  cases h with
  | exhausted _ halloc =>
    have hsame := db.allocate_sameFiles.2 halloc
    refine ht.later Iff.rfl (fun _ ho => ?_) fun q => by rw [hsame.store_eq]
    unfold World.Owns
    rw [World.handle_of_eq hsame.handles_eq]
    exact ho
  | inline hcontent => exact ht.later (Session.uses_hold_inline hcontent) (fun _ ho => ho) fun _ => rfl
  | share hmem hcontent => exact Tracked.share hk ht hmem hcontent
  | make hfits halloc hcontent hchanges _ =>
    exact Tracked.make hk ht hopen hlayout hfits halloc hcontent hchanges
  | lost hfits halloc hchanges => exact Tracked.lost hk ht hopen hfits halloc hchanges _
  | move hmem hcontent hlive hserved _ hmoves =>
    exact Tracked.move hk ht hopen hmem hcontent hlive hserved hmoves
  | close hmem hcontent hlive hchanges => exact Tracked.close hk ht hmem hcontent hlive hchanges
  | release hi hcontent hkeeps hdiscards => exact Tracked.release hk ht hi hcontent hkeeps hdiscards
  | letGo => exact ht.later Iff.rfl (fun _ ho => ho) fun _ => rfl
  | forget hmade _ hstays =>
    refine ⟨?_, fun q hq => ?_⟩
    · rintro ref origin ⟨h, hmem, hcontent, horigin⟩
      exact ht.tree ⟨h, hmade hmem, hcontent, horigin⟩
    · obtain ⟨ref, origin, hu, ho, hpath⟩ := ht.covered q hq
      exact ⟨ref, origin, hstays hu ho, ho, hpath⟩

theorem Transitions.tracked (h : Transitions db s s') (hopen : db.Opened n)
    (hlayout : db.layout = .sharded) (hk : Kept db n s) (ht : Tracked n s) : Tracked n s' := by
  induction h with
  | refl => exact ht
  | tail hbefore hlast ih => exact hlast.tracked hopen hlayout (Transitions.kept hbefore hopen hk) ih

/-- Files stay tracked over whole runs. -/
theorem Session.Reaches.tracked [Codec.Inverts] {first : Session σ} (h : Session.Reaches db first s)
    (hopen : db.Opened n) (hlayout : db.layout = .sharded) (hk : Kept db n first)
    (ht : Tracked n first) : Tracked n s := by
  induction h with
  | start => exact ht
  | step e hbefore hfits ih =>
    have hkept := hbefore.kept hopen hk
    exact (Session.step_transitions hopen hkept e hfits).tracked hopen hlayout hkept ih

namespace Session

variable {w : World σ}

omit [Codec] in
/-- What a temporary file has for a name, and whose object's it is. -/
theorem tempId_of_components {path : Path} {owner : Owner} {id id' : ObjectId}
    (hproper : n.Proper .sharded id) (hpath : (n.path .sharded owner id).components = path.components)
    (htemp : path.fileName?.bind Naming.parseSharded? = some (.temp, id')) :
    owner = .temp ∧ id = id' := by
  have hcomponents := Naming.components_shardedPath n owner (hproper.slot_ne rfl)
  rw [show n.shardedPath owner id = n.path .sharded owner id from rfl, hpath] at hcomponents
  rw [Path.fileName?_of_components hcomponents, Option.bind_some,
    Naming.parseSharded?_fileName] at htemp
  cases htemp
  exact ⟨rfl, rfl⟩

theorem readBytes_of_owns (hk : Kept db n s) {h : Held} {ref : ValueFile} (hmade : h ∈ s.made)
    (hcontent : h.value.content = .file ref) (howns : s.world.Owns ref.handle) :
    h.value.readBytes s.world = .ok h.origin s.world := by
  have hb := hk.backed ⟨h, hmade, hcontent, rfl⟩
  obtain ⟨stored, hfile, hstores⟩ := hb.stored howns
  rw [← hb.path_eq] at hfile
  exact Value.readBytes_ok hcontent howns.1 hfile hstores

theorem isFile_of_owns (hk : Kept db n s) {ref : ValueFile} {origin : Bytes}
    (huses : s.Uses ref origin) (howns : s.world.Owns ref.handle) :
    FileStore.isFile (s.world.handle ref.handle).path s.world.store = true := by
  have hb := hk.backed huses
  obtain ⟨stored, hfile, -⟩ := hb.stored howns
  rw [isFile_eq, hb.path_eq, hfile]
  rfl

/-- Nothing is made in a session that starts. -/
theorem kept_start (hcounting : ∀ {place}, db.allocator = .counter place →
      place < w.counters.length) : Kept db n { world := w } := by
  have hnone : ∀ {ref origin}, ¬({ world := w } : Session σ).Uses ref origin := by
    rintro ref origin ⟨h, hmem, -⟩
    exact List.not_mem_nil hmem
  refine ⟨fun _ h => h, fun h hmem => absurd hmem List.not_mem_nil, fun hu => absurd hu hnone,
    fun hu => absurd hu hnone, fun hu => absurd hu hnone, fun hu => absurd hu hnone, fun hplace => ?_⟩
  exact ⟨hcounting hplace, fun _ _ _ hu => absurd hu hnone⟩

omit [Codec] in
theorem tracked_start (hempty : ∀ q, fileAt? w.store q = none) : Tracked n { world := w } := by
  refine ⟨?_, fun q hq => ?_⟩
  · rintro ref origin ⟨h, hmem, -⟩
    exact absurd hmem List.not_mem_nil
  · rw [hempty] at hq
    cases hq

/-- A temporary file has a handle that some value holds. -/
theorem temp_of_file (hk : Kept db n s) (ht : Tracked n s) (path : Path) (id : ObjectId)
    (hfile : FileStore.isFile path s.world.store = true)
    (hparse : path.fileName?.bind Naming.parseSharded? = some (.temp, id)) :
    ∃ h ∈ s.held, ∃ ref, h.value.content = .file ref ∧ ref.id = id ∧
      (s.world.handle ref.handle).isAutoDelete = true ∧
      (s.world.handle ref.handle).path.same path = true := by
  rw [isFile_eq] at hfile
  obtain ⟨ref, origin, huses, howns, hpath⟩ := ht.covered _ hfile
  have hb := hk.backed huses
  have htree := ht.tree huses
  have hproper := hb.proper
  rw [htree] at hpath hproper
  obtain ⟨howner, rfl⟩ := tempId_of_components hproper hpath hparse
  have harmed := hb.armed_iff.2 howner
  have hpos := howns.2 harmed
  rw [hk.counted huses] at hpos
  -- An armed handle with a file has holders, and these are values that are held.
  obtain ⟨h, hmem, hholds⟩ := List.countP_pos_iff.1 hpos
  cases hcontent : h.value.content with
  | inline data stamp => simp [Value.file?, hcontent] at hholds
  | file ref' =>
    have hhandle : ref'.handle = ref.handle := by simpa [Value.file?, hcontent] using hholds
    obtain ⟨rfl, -⟩ := hk.shared ⟨h, hk.held_made hmem, hcontent, rfl⟩ huses hhandle
    refine ⟨h, hmem, _, hcontent, rfl, Handle.isAutoDelete_iff.2 ⟨harmed, howns.1⟩, ?_⟩
    rw [Path.same, hb.path_eq, htree]
    exact decide_eq_true hpath

/-- Any run of operations in a tree that is empty at first. The handle of a value that is held and
not retired has a file under the name that says which layout, owner and object it belongs to, and
the value reads back what it was made with. Two such handles share neither the file nor the object.
A temporary file is that of an armed handle which some value holds; when no values are left, there is
none. Every file is one that some value of the run was made for, and holds that value's content. -/
theorem files_match_handles [Codec.Inverts] {base : Path} {settings : Settings} {w₀ : World σ}
    (hlayout : settings.layout = .sharded) (hempty : ∀ q, fileAt? w₀.store q = none)
    (hopen : Database.openAt base settings w₀ = .ok db w) (hreaches : Reaches db { world := w } s) :
    (∀ h ∈ s.held, ∀ ref, h.value.content = .file ref →
      (s.world.handle ref.handle).retired = false →
      (s.world.handle ref.handle).path = db.naming.path ref.layout ref.owner ref.id ∧
      FileStore.isFile (s.world.handle ref.handle).path s.world.store = true ∧
      h.value.readBytes s.world = .ok h.origin s.world) ∧
    (∀ h ∈ s.held, ∀ h' ∈ s.held, ∀ ref ref', h.value.content = .file ref →
      h'.value.content = .file ref' → (s.world.handle ref.handle).retired = false →
      (s.world.handle ref'.handle).retired = false → ref.handle ≠ ref'.handle →
      (s.world.handle ref.handle).path.same (s.world.handle ref'.handle).path = false ∧
      ref.id ≠ ref'.id) ∧
    (∀ path id, FileStore.isFile path s.world.store = true →
      path.fileName?.bind Naming.parseSharded? = some (.temp, id) →
      ∃ h ∈ s.held, ∃ ref, h.value.content = .file ref ∧ ref.id = id ∧
        (s.world.handle ref.handle).isAutoDelete = true ∧
        (s.world.handle ref.handle).path.same path = true) ∧
    (s.held = [] → ∀ path id, FileStore.isFile path s.world.store = true →
      path.fileName?.bind Naming.parseSharded? ≠ some (.temp, id)) ∧
    ∀ path, FileStore.isFile path s.world.store = true →
      ∃ h ∈ s.made, ∃ ref, h.value.content = .file ref ∧
        (s.world.handle ref.handle).retired = false ∧
        (db.naming.path ref.layout ref.owner ref.id).same path = true ∧
        h.value.readBytes s.world = .ok h.origin s.world := by
  obtain ⟨rfl, -, hopened, hsharded, hscan⟩ := Database.openAt_tree hlayout hopen
  have hstart : Kept db db.naming ({ world := w } : Session σ) :=
    kept_start fun hplace => absurd hplace (hscan _)
  have hk := hreaches.kept hopened hstart
  have ht := hreaches.tracked hopened hsharded hstart (tracked_start hempty)
  have htemp := temp_of_file hk ht
  refine ⟨?_, ?_, htemp, ?_, ?_⟩
  · intro h hmem ref hcontent hlive
    have hmade := hk.held_made hmem
    have howns := hk.owns hmem hcontent hlive
    exact ⟨(hk.backed ⟨h, hmade, hcontent, rfl⟩).path_eq,
      isFile_of_owns hk ⟨h, hmade, hcontent, rfl⟩ howns, readBytes_of_owns hk hmade hcontent howns⟩
  · intro h hmem h' hmem' ref ref' hcontent hcontent' hlive hlive' hne
    have huses : s.Uses ref h.origin := ⟨h, hk.held_made hmem, hcontent, rfl⟩
    have huses' : s.Uses ref' h'.origin := ⟨h', hk.held_made hmem', hcontent', rfl⟩
    have hb := hk.backed huses
    have hb' := hk.backed huses'
    -- Handles with one object would be one handle, and paths tell objects apart.
    have hid : ref.id ≠ ref'.id := by
      intro hid
      refine hne (hk.apart huses huses' (hk.owns hmem hcontent hlive)
        (hk.owns hmem' hcontent' hlive') ?_ hid)
      rw [ht.tree huses, ht.tree huses']
    refine ⟨decide_eq_false fun hsame => hid ?_, hid⟩
    rw [hb.path_eq, hb'.path_eq] at hsame
    exact (Naming.path_injective hb.proper hb'.proper hsame).2.2
  · intro hnone path id hfile hparse
    obtain ⟨h, hmem, -⟩ := htemp path id hfile hparse
    rw [hnone] at hmem
    exact List.not_mem_nil hmem
  · intro path hfile
    rw [isFile_eq] at hfile
    obtain ⟨ref, origin, ⟨h, hmade, hcontent, rfl⟩, howns, hpath⟩ := ht.covered _ hfile
    exact ⟨h, hmade, ref, hcontent, howns.1, decide_eq_true hpath,
      readBytes_of_owns hk hmade hcontent howns⟩

end Session

end Runs

namespace Session

theorem fits_of_place {σ : Type} [FileStore σ] {w w' : World σ} {settings : Settings}
    {naming : Naming} {maxProbes : UInt32} (dir : UInt32) (slot : Nat)
    (hplace : Allocator.placeFrom naming maxProbes maxProbes.toNat 0 w = .ok (dir, slot) w')
    (hlt : dir.toNat + slot < UInt32.size) :
    Database.Fits { settings, naming, allocator := .scan maxProbes } w := by
  intro dir' slot' w'' h
  rw [hplace] at h
  cases h
  exact hlt

def smallSettings : Settings := { inlineThreshold := 2, fanout := 4, maxProbes := 1 }

def smallDatabase : Database where
  settings := smallSettings
  naming := ⟨⟨['d', '/', 'b']⟩, 4⟩
  allocator := .scan 1

def threeOctets : Plan := ⟨[.bytes [1, 2, 3]], by decide⟩

def threeOthers : Plan := ⟨[.bytes [4, 5, 6]], by decide⟩

def emptyWorld : World MemoryStore := { store := default }

def linkedSession : Session MemoryStore :=
  ({ world := emptyWorld : Session MemoryStore }.step smallDatabase
    (.create .binary threeOctets none)).step smallDatabase (.link 0 ⟨6⟩)

def packedDatabase : Database :=
  { smallDatabase with
    settings.binaryCompression := some (.zstd 3)
    settings.characterCompression := some (.zstd 3) }

def packedSession : Session MemoryStore :=
  ({ world := emptyWorld : Session MemoryStore }.step packedDatabase
    (.create .binary threeOctets none)).step packedDatabase (.link 0 ⟨6⟩)

/-- The file of the linked value: the tag, a frame with one block of the three octets as they are, and
an empty block at the end. -/
def packedFile : Bytes := [1, 40, 181, 47, 253, 0, 56, 24, 0, 0, 1, 2, 3, 1, 0, 0]

/-- The value has a compressed file of its table's, in its place of the tree. It is the only file, and
there is no temporary one. -/
theorem files_match_handles_linked :
    Codec.Inverts ∧ packedDatabase.layout = .sharded ∧ (∀ q, fileAt? emptyWorld.store q = none) ∧
    Database.openAt ⟨['d', '/', 'b']⟩ packedDatabase.settings emptyWorld =
      .ok packedDatabase emptyWorld ∧
    Reaches packedDatabase { world := emptyWorld } packedSession ∧
    (∃ h ∈ packedSession.held, ∃ ref, h.value.content = .file ref ∧ h.origin = [1, 2, 3] ∧
      ref.id = ⟨1⟩ ∧ ref.owner = .table ⟨6⟩ ∧ ref.layout = .sharded ∧ ref.compressed = true ∧
      (packedSession.world.handle ref.handle).retired = false ∧
      (packedSession.world.handle ref.handle).path =
        packedDatabase.naming.path .sharded (.table ⟨6⟩) ⟨1⟩ ∧
      (packedSession.world.handle ref.handle).path = .ofString "d/b.lobs.db/1.t6.lob.db" ∧
      fileAt? packedSession.world.store (packedSession.world.handle ref.handle).path.components =
        some packedFile ∧
      h.value.readBytes packedSession.world = .ok [1, 2, 3] packedSession.world) ∧
    ∀ path, FileStore.isFile path packedSession.world.store = true →
      ∃ h ∈ packedSession.made, ∃ ref, h.value.content = .file ref ∧
        (packedDatabase.naming.path ref.layout ref.owner ref.id).same path = true ∧
        h.value.readBytes packedSession.world = .ok h.origin packedSession.world := by
  have hempty : ∀ q, fileAt? emptyWorld.store q = none := fun _ => rfl
  have hopen : Database.openAt ⟨['d', '/', 'b']⟩ packedDatabase.settings emptyWorld =
      .ok packedDatabase emptyWorld := rfl
  have hreaches : Reaches packedDatabase { world := emptyWorld } packedSession := by
    refine .step _ (.step _ .start fun _ => ?_) fun _ => ?_
    · exact fits_of_place 0 1 rfl (by decide)
    · exact fits_of_place 0 2 rfl (by decide)
  obtain ⟨hheld, -, -, -, hfiles⟩ := files_match_handles rfl hempty hopen hreaches
  -- The first value has lost its handle to the second one, which is the linked one.
  obtain ⟨h, hmem, ref, hcontent, horigin, hid, howner, hlayout, hcompressed, hlive, hfile⟩ :
      ∃ h ∈ packedSession.held, ∃ ref, h.value.content = .file ref ∧ h.origin = [1, 2, 3] ∧
        ref.id = ⟨1⟩ ∧ ref.owner = .table ⟨6⟩ ∧ ref.layout = .sharded ∧ ref.compressed = true ∧
        (packedSession.world.handle ref.handle).retired = false ∧
        fileAt? packedSession.world.store
          (packedDatabase.naming.path .sharded (.table ⟨6⟩) ⟨1⟩).components = some packedFile := by
    refine ⟨_, List.mem_cons_of_mem _ List.mem_cons_self, _, rfl, rfl, rfl, rfl, rfl, rfl, rfl, ?_⟩
    cbv
  obtain ⟨hpath, -, hread⟩ := hheld h hmem ref hcontent hlive
  rw [hlayout, howner, hid] at hpath
  rw [horigin] at hread
  have hspelled : packedDatabase.naming.path .sharded (.table ⟨6⟩) ⟨1⟩ =
    .ofString "d/b.lobs.db/1.t6.lob.db" := by decide
  rw [← hpath] at hfile hspelled
  refine ⟨Frame.inverts, rfl, hempty, hopen, hreaches, ⟨h, hmem, ref, hcontent, horigin, hid, howner,
    hlayout, hcompressed, hlive, hpath, hspelled, hfile, hread⟩, fun path hpath' => ?_⟩
  obtain ⟨h', hmade, ref', hcontent', -, hsame, hread'⟩ := hfiles path hpath'
  exact ⟨h', hmade, ref', hcontent', hsame, hread'⟩

end Session

end LargeObjects
