import Mathlib
import LargeObjects.Proofs.Custody

/-! The ways in which a session changes. Every operation is made of these, and each of them keeps
the files in custody. -/
namespace LargeObjects

open ReliableStore

variable [Codec] {σ : Type} [FileStore σ] [ReliableStore σ]

structure Changes (p : List Component) (content : Option Bytes) (s s' : σ) : Prop where
  there : fileAt? s' p = content
  elsewhere : ∀ q ≠ p, fileAt? s' q = fileAt? s q

structure Moves (p q : List Component) (s s' : σ) : Prop where
  there : fileAt? s' q = fileAt? s p
  left : fileAt? s' p = none
  elsewhere : ∀ r, r ≠ p → r ≠ q → fileAt? s' r = fileAt? s r

inductive Transition (db : Database) : Session σ → Session σ → Prop
  /-- No id was found. -/
  | exhausted {s : Session σ} {e : ObjectError} {w : World σ} :
    db.Fits s.world → db.allocate s.world = .error e w → Transition db s { s with world := w }
  | inline {s : Session σ} {h : Held} :
    h.value.file? = none → h.Whole → Transition db s (s.hold h s.world)
  | share {s : Session σ} {h : Held} {ref : ValueFile} :
    h ∈ s.held → h.value.content = .file ref →
    Transition db s
      (s.hold h { s.world with handles := s.world.handles.modify ref.handle Handle.takeHold })
  /-- A new object has a file. -/
  | make {s : Session σ} {v : Value} {origin stored : Bytes} {id : ObjectId} {owner : Owner}
    {compressed : Bool} {w₁ : World σ} {store : σ} :
    db.Fits s.world → db.allocate s.world = .ok id w₁ →
    v.content = .file
      { id, owner, compressed, layout := db.layout, handle := s.world.handles.length } →
    Changes (db.naming.path db.layout owner id).components (some stored) s.world.store store →
    Stores compressed stored origin →
    Transition db s (s.hold ⟨v, origin⟩ { w₁ with
      store
      handles := w₁.handles ++ [.new (db.naming.path db.layout owner id) owner] })
  /-- A new object was given up. -/
  | lost {s : Session σ} {id : ObjectId} {new : Handle} {w₁ : World σ} {store : σ} :
    db.Fits s.world → db.allocate s.world = .ok id w₁ →
    Changes (db.naming.path db.layout .temp id).components none s.world.store store →
    Transition db s { s with world := { w₁ with store, handles := w₁.handles ++ [new] } }
  /-- A file goes to another owner. -/
  | move {s : Session σ} {h : Held} {ref : ValueFile} {owner : Owner} {store : σ} :
    h ∈ s.held → h.value.content = .file ref → (s.world.handle ref.handle).retired = false →
    ¬(ref.layout = .sharded ∧ db.layout = .flat) → ref.owner ≠ owner →
    Moves (s.world.handle ref.handle).path.components
      (db.naming.path ref.layout owner ref.id).components s.world.store store →
    Transition db s (s.hold
      ⟨h.value.withFile { ref with owner, handle := s.world.handles.length }, h.origin⟩
      { s.world with
        store
        handles := s.world.handles.modify ref.handle Handle.retire ++
          [.new (db.naming.path ref.layout owner ref.id) owner] })
  | close {s : Session σ} {h : Held} {ref : ValueFile} {store : σ} :
    h ∈ s.held → h.value.content = .file ref → (s.world.handle ref.handle).retired = false →
    Changes (s.world.handle ref.handle).path.components none s.world.store store →
    Transition db s { s with world := { s.world with
      store
      handles := s.world.handles.modify ref.handle Handle.retire } }
  /-- A value is let go, and maybe its file with it. -/
  | release {s : Session σ} {i : Nat} {h : Held} {ref : ValueFile} {store : σ} :
    s.held[i]? = some h → h.value.content = .file ref →
    (¬(s.world.handle ref.handle).Discards → store = s.world.store) →
    ((s.world.handle ref.handle).Discards →
      Changes (s.world.handle ref.handle).path.components none s.world.store store) →
    Transition db s { s with
      world := { s.world with
        store
        handles := s.world.handles.modify ref.handle Handle.letGo }
      held := s.held.eraseIdx i }
  | letGo {s : Session σ} {i : Nat} {h : Held} :
    s.held[i]? = some h → h.value.file? = none →
    Transition db s { s with held := s.held.eraseIdx i }
  /-- Values that nobody holds any more, and that have no file, need not be remembered. -/
  | forget {s : Session σ} {made : List Held} : made ⊆ s.made → s.held ⊆ made →
    (∀ {ref origin}, s.Uses ref origin → s.world.Owns ref.handle →
      { s with made }.Uses ref origin) → Transition db s { s with made }

namespace Kept

variable {n : Naming} {db : Database} {s : Session σ} {w₁ w' : World σ} {store : σ} {h : Held}
  {ref : ValueFile} {origin : Bytes} {id : ObjectId} {owner : Owner} {i : Nat}

theorem not_new (hk : Kept db n s) (huses : s.Uses ref origin) :
    ref.handle ≠ s.world.handles.length := by
  intro heq
  have hknown := (hk.backed huses).known
  rw [heq] at hknown
  exact Nat.lt_irrefl _ hknown

theorem exhausted (hk : Kept db n s) (hopen : db.Opened n) {e : ObjectError}
    (hfits : db.Fits s.world) (halloc : db.allocate s.world = .error e w') :
    Kept db n { s with world := w' } := by
  have hsame := db.allocate_sameFiles.2 halloc
  have hhandle := World.handle_of_eq hsame.handles_eq
  refine hk.change (k := s.world.handles.length) ⟨fun j _ hj => ⟨?_, hhandle j⟩, fun _ _ _ => ?_⟩
    (fun huses heq => absurd heq (hk.not_new huses)) hk.held_made (fun huses => ?_) fun hplace => ?_
  · unfold World.Knows
    rw [hsame.handles_eq]
    exact hj
  · rw [hsame.store_eq]
  · rw [hhandle]
    exact hk.counted huses
  · cases hopen with
    | tree => cases hplace
    | flat =>
      cases hplace
      -- A counter that has run out stands at zero, and custody says nothing of it then.
      obtain ⟨hlt, hcounter⟩ := (Allocator.countFrom_counter (hk.counting rfl).1).2 halloc
      refine ⟨hlt, fun hnonzero => ⟨hfits, ?_⟩⟩
      rcases hcounter with hzero | hle
      · exact absurd hzero hnonzero
      · exact hle

/-- A new object is no other object. -/
theorem spares_append (hk : Kept db n s) (hopen : db.Opened n) (hfits : db.Fits s.world)
    (halloc : db.allocate s.world = .ok id w₁) {content : Option Bytes}
    (hchanges : Changes (db.naming.path db.layout owner id).components content s.world.store store)
    (new : Handle) :
    Spares n s.world.handles.length s { w₁ with store, handles := w₁.handles ++ [new] } := by
  have hsame := db.allocate_sameFiles.1 halloc
  obtain ⟨hproper, hfresh, -⟩ := hk.fresh hopen hfits halloc
  have hhandles : w₁.handles ++ [new] = s.world.handles ++ [new] := by rw [hsame.handles_eq]
  refine hk.spares hproper (fun huses howns hlayout hid => ?_) (fun j _ hj => ?_) fun q hq => ?_
  · exact absurd hid (hfresh huses howns hlayout)
  · exact ⟨hj.of_append hhandles, World.handle_append_old hhandles hj⟩
  · refine hchanges.elsewhere q ?_
    rw [hopen.path_new]
    exact hq owner

/-- A new handle can be made together with a change to the file of a new object. -/
theorem append (hk : Kept db n s) (hopen : db.Opened n) (hfits : db.Fits s.world)
    (halloc : db.allocate s.world = .ok id w₁) {content : Option Bytes}
    (hchanges : Changes (db.naming.path db.layout owner id).components content s.world.store store)
    (new : Handle) :
    Kept db n { s with world := { w₁ with store, handles := w₁.handles ++ [new] } } := by
  have hsame := db.allocate_sameFiles.1 halloc
  obtain ⟨-, -, hcounting⟩ := hk.fresh hopen hfits halloc
  have hhandles : w₁.handles ++ [new] = s.world.handles ++ [new] := by rw [hsame.handles_eq]
  have hspares := hk.spares_append hopen hfits halloc hchanges new
  refine hk.change hspares (fun huses heq => absurd heq (hk.not_new huses)) hk.held_made
    (fun huses => ?_) fun hplace => ?_
  · rw [World.handle_append_old hhandles (hk.backed huses).known]
    exact hk.counted huses
  · obtain ⟨hlt, hbefore, hle, -⟩ := hcounting hplace
    exact ⟨hlt, fun _ => ⟨hbefore, hle⟩⟩

theorem make (hk : Kept db n s) (hopen : db.Opened n) {v : Value} {stored : Bytes}
    {compressed : Bool} (hfits : db.Fits s.world) (halloc : db.allocate s.world = .ok id w₁)
    (hcontent : v.content = .file
      { id, owner, compressed, layout := db.layout, handle := s.world.handles.length })
    (hchanges : Changes (db.naming.path db.layout owner id).components (some stored)
      s.world.store store)
    (hstores : Stores compressed stored origin) :
    Kept db n (s.hold ⟨v, origin⟩ { w₁ with
      store
      handles := w₁.handles ++ [.new (db.naming.path db.layout owner id) owner] }) := by
  have hsame := db.allocate_sameFiles.1 halloc
  obtain ⟨hproper, hfresh, hcounting⟩ := hk.fresh hopen hfits halloc
  have hkept := hk.append hopen hfits halloc hchanges (.new (db.naming.path db.layout owner id) owner)
  have hhandles : w₁.handles ++ [Handle.new (db.naming.path db.layout owner id) owner] =
      s.world.handles ++ [Handle.new (db.naming.path db.layout owner id) owner] := by
    rw [hsame.handles_eq]
  -- The new world gets a name, so that only what is said of it is used.
  generalize hw : ({ w₁ with
    store
    handles := w₁.handles ++ [.new (db.naming.path db.layout owner id) owner] } : World σ) = w'
    at hkept ⊢
  have hhandles' : w'.handles = s.world.handles ++ [.new (db.naming.path db.layout owner id) owner] := by
    rw [← hw, ← hhandles]
  have hnew := World.handle_append_new hhandles'
  refine hkept.hold_file hcontent ⟨?_, ?_, ?_, hproper, fun _ => ⟨stored, ?_, hstores⟩⟩ ?_
    (fun huses => hk.not_new huses) ?_ ?_
  · unfold World.Knows
    rw [hhandles', List.length_append]
    exact Nat.lt_succ_self _
  · rw [hnew, ← hopen.path_new]
    rfl
  · rw [hnew]
    exact decide_eq_true_iff
  · rw [← hopen.path_new, ← hw]
    exact hchanges.there
  · rw [hnew]
    rfl
  · intro ref' origin' huses howns hlayout hid
    refine absurd hid (hfresh huses ?_ hlayout)
    unfold World.Owns at howns ⊢
    rwa [World.handle_append_old hhandles' (hk.backed huses).known] at howns
  · intro place hplace _ _
    obtain ⟨-, -, -, hid⟩ := hcounting hplace
    rwa [← hw]

/-- The handle of a value that is used can change in its holders, or lose its file. -/
theorem touch (hk : Kept db n s) (huses : s.Uses ref origin) {f : Handle → Handle}
    {more : List Handle} (hhandles : w'.handles = s.world.handles.modify ref.handle f ++ more)
    (hcounters : w'.counters = s.world.counters)
    (hpath : ∀ h : Handle, (f h).path = h.path) (harmed : ∀ h : Handle, (f h).armed = h.armed)
    (hspares : ∀ {ref' origin'}, s.Uses ref' origin' → s.world.Owns ref'.handle →
      ref'.handle ≠ ref.handle →
      fileAt? w'.store (n.path ref'.layout ref'.owner ref'.id).components =
        fileAt? s.world.store (n.path ref'.layout ref'.owner ref'.id).components)
    (hkeeps : w'.Owns ref.handle → s.world.Owns ref.handle ∧
      fileAt? w'.store (n.path ref.layout ref.owner ref.id).components =
        fileAt? s.world.store (n.path ref.layout ref.owner ref.id).components)
    {held' : List Held} (hheld : held' ⊆ s.made)
    (hcounted : ∀ k, s.world.Knows k → (s.world.handle k).holders = s.holders k →
      (if k = ref.handle then f (s.world.handle k) else s.world.handle k).holders =
        Session.holders { world := w', held := held', made := s.made } k) :
    Kept db n { world := w', held := held', made := s.made } := by
  have hb := hk.backed huses
  have hhandle : ∀ {k}, s.world.Knows k →
      w'.handle k = if k = ref.handle then f (s.world.handle k) else s.world.handle k :=
    fun hknown => World.handle_modify_append hhandles hb.known hknown
  have hown := hhandle hb.known
  rw [if_pos rfl] at hown
  refine hk.change (k := ref.handle) ⟨fun j hne hj => ⟨hj.of_modify_append hhandles, ?_⟩, hspares⟩
    (fun huses' heq => ?_) hheld (fun huses' => ?_) fun hplace => ?_
  · rw [hhandle hj, if_neg hne]
  · obtain ⟨rfl, rfl⟩ := hk.shared huses' huses heq
    refine ⟨⟨hb.known.of_modify_append hhandles, ?_, ?_, hb.proper, fun howns => ?_⟩,
      fun howns => (hkeeps howns).1⟩
    · rw [hown, hpath, hb.path_eq]
    · rw [hown, harmed, hb.armed_iff]
    · obtain ⟨hbefore, hsame⟩ := hkeeps howns
      rw [hsame]
      exact hb.stored hbefore
  · rw [hhandle (hk.backed huses').known]
    exact hcounted _ (hk.backed huses').known (hk.counted huses')
  · rw [hcounters]
    exact ⟨(hk.counting hplace).1, fun hnonzero => ⟨hnonzero, UInt32.le_refl _⟩⟩

/-- What custody says of values depends on the files that they refer to. -/
theorem remake (hk : Kept db n s) {made : List Held} (hheld : s.held ⊆ made)
    (hwhole : ∀ h ∈ made, h.Whole)
    (huses : ∀ {ref origin}, { s with made }.Uses ref origin → s.Uses ref origin) :
    Kept db n { s with made } := by
  refine ⟨hheld, hwhole, fun hu => hk.backed (huses hu), fun hu => hk.counted (huses hu),
    fun hu hu' => hk.shared (huses hu) (huses hu'), fun hu hu' => hk.apart (huses hu) (huses hu'),
    fun hplace => ?_⟩
  obtain ⟨hlt, hbelow⟩ := hk.counting hplace
  exact ⟨hlt, fun hnonzero _ _ hu => hbelow hnonzero (huses hu)⟩

theorem share (hk : Kept db n s) (hmem : h ∈ s.held) (hcontent : h.value.content = .file ref) :
    Kept db n (s.hold h
      { s.world with handles := s.world.handles.modify ref.handle Handle.takeHold }) := by
  have hmade := hk.held_made hmem
  have huses : s.Uses ref h.origin := ⟨h, hmade, hcontent, rfl⟩
  let w' : World σ := { s.world with handles := s.world.handles.modify ref.handle Handle.takeHold }
  have hhandles : w'.handles = s.world.handles.modify ref.handle Handle.takeHold ++ [] :=
    (List.append_nil _).symm
  have hown := World.handle_modify_append hhandles (hk.backed huses).known (hk.backed huses).known
  rw [if_pos rfl] at hown
  have hheld : s.held ++ [h] ⊆ s.made := by
    intro h' hmem'
    rcases List.mem_append.1 hmem' with hold | hnew
    · exact hk.held_made hold
    · obtain rfl := List.mem_singleton.1 hnew
      exact hmade
  have hkept : Kept db n { world := w', held := s.held ++ [h], made := s.made } := by
    refine hk.touch huses hhandles rfl (fun _ => rfl) (fun _ => rfl) (fun _ _ _ => rfl)
      (fun howns => ⟨hk.owns hmem hcontent ?_, rfl⟩) hheld fun k _ hcount => ?_
    · have hlive := howns.1
      rw [hown] at hlive
      exact hlive
    · have hholders : Session.holders { world := w', held := s.held ++ [h], made := s.made } k =
          s.holders k + if ref.handle = k then 1 else 0 := Session.holders_hold (w := w') hcontent k
      rw [hholders, ← hcount]
      by_cases hkr : k = ref.handle
      · rw [if_pos hkr, if_pos hkr.symm]
        rfl
      · rw [if_neg hkr, if_neg (Ne.symm hkr), Nat.add_zero]
  have huses' : ∀ {ref' origin'}, (s.hold h w').Uses ref' origin' → s.Uses ref' origin' := by
    intro ref' origin' hu
    rcases (Session.uses_hold hcontent).1 hu with hu | ⟨rfl, rfl⟩
    · exact hu
    · exact huses
  refine hkept.remake (Session.hold_subset (w := w') hk.held_made) (fun h' hmem' => ?_) huses'
  rcases List.mem_append.1 hmem' with hold | hnew
  · exact hk.whole h' hold
  · obtain rfl := List.mem_singleton.1 hnew
    exact hk.whole h' hmade

/-- A handle can be retired when only files of its object change. -/
theorem retire (hk : Kept db n s) (huses : s.Uses ref origin) (howns : s.world.Owns ref.handle)
    {more : List Handle}
    (hhandles : w'.handles = s.world.handles.modify ref.handle Handle.retire ++ more)
    (hcounters : w'.counters = s.world.counters)
    (hfile : ∀ q, (∀ owner, q ≠ (n.path ref.layout owner ref.id).components) →
      fileAt? w'.store q = fileAt? s.world.store q) :
    Spares n ref.handle s w' ∧ Kept db n { s with world := w' } ∧ ¬w'.Owns ref.handle := by
  have hb := hk.backed huses
  have hhandle : ∀ {k}, s.world.Knows k →
      w'.handle k = if k = ref.handle then (s.world.handle k).retire else s.world.handle k :=
    fun hknown => World.handle_modify_append hhandles hb.known hknown
  have hgone : ¬w'.Owns ref.handle := by
    apply World.not_owns_of_retired
    rw [hhandle hb.known, if_pos rfl]
    rfl
  have hspares : Spares n ref.handle s w' := hk.spares hb.proper (hk.sole huses howns)
    (fun j hne hj => ⟨hj.of_modify_append hhandles, by rw [hhandle hj, if_neg hne]⟩) hfile
  refine ⟨hspares, hk.touch huses hhandles hcounters (fun _ => rfl) (fun _ => rfl) hspares.file_eq
    (fun h => absurd h hgone) hk.held_made fun k _ hcount => ?_, hgone⟩
  rw [show Session.holders { s with world := w' } k = s.holders k from rfl, ← hcount]
  split <;> rfl

/-- A handle is retired when its file goes away. -/
theorem retire_gone (hk : Kept db n s) (hmem : h ∈ s.held) (hcontent : h.value.content = .file ref)
    (hlive : (s.world.handle ref.handle).retired = false)
    (hchanges : Changes (s.world.handle ref.handle).path.components none s.world.store store) :
    let w' : World σ :=
      { s.world with store, handles := s.world.handles.modify ref.handle Handle.retire }
    Spares n ref.handle s w' ∧ Kept db n { s with world := w' } := by
  intro w'
  have huses : s.Uses ref h.origin := ⟨h, hk.held_made hmem, hcontent, rfl⟩
  have hhandles : w'.handles = s.world.handles.modify ref.handle Handle.retire ++ [] :=
    (List.append_nil _).symm
  obtain ⟨hspares, hkept, -⟩ := hk.retire huses (hk.owns hmem hcontent hlive) hhandles rfl fun q hq => by
    refine hchanges.elsewhere q ?_
    rw [(hk.backed huses).path_eq]
    exact hq ref.owner
  exact ⟨hspares, hkept⟩

theorem close (hk : Kept db n s) (hmem : h ∈ s.held) (hcontent : h.value.content = .file ref)
    (hlive : (s.world.handle ref.handle).retired = false)
    (hchanges : Changes (s.world.handle ref.handle).path.components none s.world.store store) :
    Kept db n { s with world := { s.world with
      store
      handles := s.world.handles.modify ref.handle Handle.retire } } :=
  (hk.retire_gone hmem hcontent hlive hchanges).2

/-- A handle is retired when its file moves to another owner. -/
theorem retire_moved (hk : Kept db n s) (hopen : db.Opened n) (hmem : h ∈ s.held)
    (hcontent : h.value.content = .file ref)
    (hlive : (s.world.handle ref.handle).retired = false)
    (hserved : ¬(ref.layout = .sharded ∧ db.layout = .flat))
    (hmoves : Moves (s.world.handle ref.handle).path.components
      (db.naming.path ref.layout owner ref.id).components s.world.store store) (new : List Handle) :
    let w' : World σ :=
      { s.world with store, handles := s.world.handles.modify ref.handle Handle.retire ++ new }
    Spares n ref.handle s w' ∧ Kept db n { s with world := w' } ∧ ¬w'.Owns ref.handle := by
  intro w'
  have huses : s.Uses ref h.origin := ⟨h, hk.held_made hmem, hcontent, rfl⟩
  rw [(hk.backed huses).path_eq, hopen.path_eq hserved] at hmoves
  exact hk.retire huses (hk.owns hmem hcontent hlive) rfl rfl
    fun q hq => hmoves.elsewhere q (hq ref.owner) (hq owner)

theorem move (hk : Kept db n s) (hopen : db.Opened n) (hmem : h ∈ s.held)
    (hcontent : h.value.content = .file ref)
    (hlive : (s.world.handle ref.handle).retired = false)
    (hserved : ¬(ref.layout = .sharded ∧ db.layout = .flat))
    (hmoves : Moves (s.world.handle ref.handle).path.components
      (db.naming.path ref.layout owner ref.id).components s.world.store store) :
    Kept db n (s.hold
      ⟨h.value.withFile { ref with owner, handle := s.world.handles.length }, h.origin⟩
      { s.world with
        store
        handles := s.world.handles.modify ref.handle Handle.retire ++
          [.new (db.naming.path ref.layout owner ref.id) owner] }) := by
  have huses : s.Uses ref h.origin := ⟨h, hk.held_made hmem, hcontent, rfl⟩
  have howns := hk.owns hmem hcontent hlive
  have hb := hk.backed huses
  obtain ⟨stored, hfile, hstores⟩ := hb.stored howns
  obtain ⟨hspares, hkept, hgone⟩ := hk.retire_moved hopen hmem hcontent hlive hserved hmoves
    [.new (db.naming.path ref.layout owner ref.id) owner]
  rw [hb.path_eq, hopen.path_eq hserved] at hmoves
  generalize hw : ({ s.world with
    store
    handles := s.world.handles.modify ref.handle Handle.retire ++
      [.new (db.naming.path ref.layout owner ref.id) owner] } : World σ) = w' at hspares hkept hgone ⊢
  have hhandles : w'.handles = s.world.handles.modify ref.handle Handle.retire ++
      [.new (db.naming.path ref.layout owner ref.id) owner] := by
    rw [← hw]
  have hstore : w'.store = store := by rw [← hw]
  have hnew := World.handle_modify_append_new hhandles
  refine hkept.hold_file rfl ⟨?_, ?_, ?_, ⟨hb.proper.word_ne, hb.proper.slot_ne⟩,
    fun _ => ⟨stored, ?_, hstores⟩⟩ ?_ (fun huses' => hk.not_new huses') ?_ ?_
  · show s.world.handles.length < w'.handles.length
    rw [hhandles, List.length_append, List.length_modify]
    exact Nat.lt_succ_self _
  · rw [hnew, ← hopen.path_eq hserved]
    rfl
  · rw [hnew]
    exact decide_eq_true_iff
  · rw [hstore]
    exact hmoves.there.trans hfile
  · rw [hnew]
    rfl
  · intro ref' origin' huses' howns' hlayout hid
    refine absurd ?_ hgone
    -- The only handle that had the object is the one that is retired.
    by_cases hne : ref'.handle = ref.handle
    · rwa [hne] at howns'
    · have hbefore := (hk.elsewhere hspares huses' hne).2.1 howns'
      exact absurd (hk.apart huses' huses hbefore howns hlayout hid) hne
  · intro place hplace hflat hnonzero
    rw [← hw] at hnonzero ⊢
    have hbelow := (hk.counting hplace).2 hnonzero huses hflat
    exact hbelow

/-- The file that may go away with a value is that of no other object. -/
theorem spares_release (hk : Kept db n s) (hmem : h ∈ s.held) (hcontent : h.value.content = .file ref)
    (hkeeps : ¬(s.world.handle ref.handle).Discards → store = s.world.store)
    (hdiscards : (s.world.handle ref.handle).Discards →
      ∀ q ≠ (s.world.handle ref.handle).path.components, fileAt? store q = fileAt? s.world.store q) :
    Spares n ref.handle s
      { s.world with store, handles := s.world.handles.modify ref.handle Handle.letGo } := by
  have huses : s.Uses ref h.origin := ⟨h, hk.held_made hmem, hcontent, rfl⟩
  have hb := hk.backed huses
  let w' : World σ :=
    { s.world with store, handles := s.world.handles.modify ref.handle Handle.letGo }
  have hhandles : w'.handles = s.world.handles.modify ref.handle Handle.letGo ++ [] :=
    (List.append_nil _).symm
  refine ⟨fun j hne hj => ⟨hj.of_modify_append hhandles, ?_⟩, fun {ref' _} huses' howns' hne => ?_⟩
  · rw [World.handle_modify_append hhandles hb.known hj, if_neg hne]
  · by_cases hlast : (s.world.handle ref.handle).Discards
    · have hlive : (s.world.handle ref.handle).retired = false :=
        (Handle.isAutoDelete_iff.1 hlast.2).2
      refine hdiscards hlast _ fun heq => hne ?_
      rw [hb.path_eq] at heq
      obtain ⟨hlayout, -, hid⟩ := Naming.path_injective (hk.backed huses').proper hb.proper heq
      exact hk.apart huses' huses howns' (hk.owns hmem hcontent hlive) hlayout hid
    · exact congrArg (fileAt? · _) (hkeeps hlast)

/-- A file that may go away with a value need not: if deleting it fails, it has no handle any more. -/
theorem release (hk : Kept db n s) (hi : s.held[i]? = some h)
    (hcontent : h.value.content = .file ref)
    (hkeeps : ¬(s.world.handle ref.handle).Discards → store = s.world.store)
    (hdiscards : (s.world.handle ref.handle).Discards →
      ∀ q ≠ (s.world.handle ref.handle).path.components, fileAt? store q = fileAt? s.world.store q) :
    Kept db n { s with
      world := { s.world with
        store
        handles := s.world.handles.modify ref.handle Handle.letGo }
      held := s.held.eraseIdx i } := by
  have hmem := List.mem_of_getElem? hi
  have huses : s.Uses ref h.origin := ⟨h, hk.held_made hmem, hcontent, rfl⟩
  have hb := hk.backed huses
  generalize hw : ({ s.world with
    store
    handles := s.world.handles.modify ref.handle Handle.letGo } : World σ) = w'
  have hstore : w'.store = store := by rw [← hw]
  have hhandles : w'.handles = s.world.handles.modify ref.handle Handle.letGo ++ [] := by
    rw [← hw, List.append_nil]
  have hafter := World.handle_modify_append hhandles hb.known hb.known
  rw [if_pos rfl] at hafter
  have hspares := hk.spares_release hmem hcontent hkeeps hdiscards
  rw [hw] at hspares
  refine hk.touch huses hhandles (by rw [← hw]) (fun _ => rfl) (fun _ => rfl) hspares.file_eq
    (fun howns => ?_) (fun h' hmem' => hk.held_made (List.mem_of_mem_eraseIdx hmem')) fun k _ hcount => ?_
  · have hlast : ¬(s.world.handle ref.handle).Discards := fun h =>
      World.not_owns_of_discards h hafter howns
    have hlive := howns.1
    rw [hafter] at hlive
    rw [hstore, hkeeps hlast]
    exact ⟨hk.owns hmem hcontent hlive, rfl⟩
  · have herase := Session.holders_eraseIdx (w := w') hi k
    have hfile : h.value.file?.any (fun ref => decide (ref.handle = k)) = decide (ref.handle = k) := by
      rw [Value.file?, hcontent]
      rfl
    rw [hfile, ← hcount] at herase
    show _ = Session.holders { s with world := w', held := s.held.eraseIdx i } k
    by_cases hkr : k = ref.handle
    · rw [if_pos hkr]
      rw [if_pos (by simpa using hkr.symm)] at herase
      show (s.world.handle k).holders - 1 = _
      omega
    · rw [if_neg hkr]
      rw [if_neg (by simpa using Ne.symm hkr)] at herase
      omega

theorem letGo (hk : Kept db n s) (hi : s.held[i]? = some h) (hcontent : h.value.file? = none) :
    Kept db n { s with held := s.held.eraseIdx i } := by
  refine ⟨fun h' hmem => hk.held_made (List.mem_of_mem_eraseIdx hmem), hk.whole, hk.backed,
    fun {ref _} hu => ?_, hk.shared, hk.apart, hk.counting⟩
  have herase := Session.holders_eraseIdx (w := s.world) hi ref.handle
  rw [hcontent] at herase
  exact (hk.counted hu).trans herase.symm

end Kept

variable {n : Naming} {db : Database} {s s' : Session σ}

/-- Every change of a session keeps custody. -/
theorem Transition.kept (h : Transition db s s') (hopen : db.Opened n) (hk : Kept db n s) :
    Kept db n s' := by
  cases h with
  | exhausted hfits halloc => exact hk.exhausted hopen hfits halloc
  | inline hcontent hwhole => exact hk.hold_inline hcontent hwhole
  | share hmem hcontent => exact hk.share hmem hcontent
  | make hfits halloc hcontent hchanges hstores =>
    exact hk.make hopen hfits halloc hcontent hchanges hstores
  | lost hfits halloc hchanges => exact hk.append hopen hfits halloc hchanges _
  | move hmem hcontent hlive hserved _ hmoves =>
    exact hk.move hopen hmem hcontent hlive hserved hmoves
  | close hmem hcontent hlive hchanges => exact hk.close hmem hcontent hlive hchanges
  | release hi hcontent hkeeps hdiscards =>
    exact hk.release hi hcontent hkeeps fun hlast => (hdiscards hlast).elsewhere
  | letGo hi hcontent => exact hk.letGo hi hcontent
  | forget hmade hheld =>
    refine hk.remake hheld (fun h hmem => hk.whole h (hmade hmem)) ?_
    rintro ref origin ⟨h, hmem, hcontent, horigin⟩
    exact ⟨h, hmade hmem, hcontent, horigin⟩

end LargeObjects
