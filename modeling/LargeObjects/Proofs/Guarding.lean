import Mathlib
import LargeObjects.Proofs.Finding
import LargeObjects.Proofs.Folders
import LargeObjects.Proofs.Retirement

/-! A database with flat names, as it goes on from what was found when it was opened. Its ids come from
a counter, and the files of an id that it has given out are reserved: at most one handle is open to
them, and none of them is there but the one that the handle is on. -/
namespace LargeObjects

open Step LocalStore FolderStore

namespace Naming

variable {n : Naming} {owner owner' : Owner} {id id' : ObjectId}

def flatName (n : Naming) (owner : Owner) (id : ObjectId) : Name :=
  n.base.lastPiece ++ flatEnding owner id

theorem flatName_injective (h : n.flatName owner id = n.flatName owner' id') :
    owner = owner' ∧ id = id' :=
  flatEnding_injective (List.append_cancel_left h)

theorem Nested.enters (h : n.Nested) (owner : Owner) (id : ObjectId) :
    (n.flatPath owner id).Enters n.flatDirectory (n.flatName owner id) := by
  unfold Path.Enters
  rw [(flatDirectory_of_lead h.name h.lead).1]
  exact components_flatPath n owner id

theorem flatPath_injective (h : n.flatPath owner id = n.flatPath owner' id') :
    owner = owner' ∧ id = id' := by
  have hsteps := congrArg Path.components h
  rw [components_flatPath, components_flatPath, List.append_cancel_left_eq, List.cons.injEq,
    Component.name.injEq] at hsteps
  exact flatName_injective hsteps.1

end Naming

variable {σ : Type} [FileStore σ] [LocalStore σ] [FolderStore σ]

def FolderStore.Taken (dir : Path) (s : σ) (t : Name) : Prop :=
  (fileIn? dir s t).isSome ∨ FolderIn dir s t

structure FolderStore.Only (dir : Path) (names : List Name) (s s' : σ) : Prop where
  sane : Sane s'
  settled : Settled dir s'
  folders (t : Name) : FolderIn dir s' t ↔ FolderIn dir s t
  files (t : Name) : t ∉ names → fileIn? dir s' t = fileIn? dir s t

namespace FolderStore.Only

variable {dir : Path} {names : List Name} {s s' s'' : σ}

theorem refl (hs : Sane s) (hdir : Settled dir s) : Only dir names s s :=
  ⟨hs, hdir, fun _ => Iff.rfl, fun _ _ => rfl⟩

theorem trans (h : Only dir names s s') (h' : Only dir names s' s'') : Only dir names s s'' :=
  ⟨h'.sane, h'.settled, fun t => (h'.folders t).trans (h.folders t),
    fun t ht => (h'.files t ht).trans (h.files t ht)⟩

theorem run (h : Only dir names s s') {r : Request σ} {names' : List Name}
    (hr : r.Within (fun w t => Writes w dir t s') dir names') (hsub : names' ⊆ names) :
    Only dir names s (r.run s') := by
  obtain ⟨hsane, hsettled, hfolders, hfiles⟩ := run_keeps h.sane h.settled hr
  exact h.trans ⟨hsane, hsettled, hfolders, fun t ht => hfiles t fun hmem => ht (hsub hmem)⟩

end FolderStore.Only

/-- A database with flat names and what was found when it was opened: the store, how many handles there
were, and that no file or directory had a name of an object from the first word of its counter on. -/
structure Opening (σ : Type) [FileStore σ] [LocalStore σ] [FolderStore σ] where
  db : Database
  place : Nat
  start : UInt32
  first : HandleId
  store : σ
  flat : db.layout = .flat
  counts : db.allocator = .counter place
  nested : db.naming.Nested
  free (owner : Owner) (id : ObjectId) : start ≤ id.word → id.word ≠ Allocator.lastWord →
    ¬Taken db.naming.flatDirectory store (db.naming.flatName owner id)

namespace Opening

variable {o : Opening σ} {w w' : World σ} {k j : HandleId} {owner owner' : Owner} {id i : ObjectId}
  {bound : UInt32}

def dir (o : Opening σ) : Path := o.db.naming.flatDirectory

def name (o : Opening σ) (owner : Owner) (id : ObjectId) : Name := o.db.naming.flatName owner id

def path (o : Opening σ) (owner : Owner) (id : ObjectId) : Path := o.db.naming.flatPath owner id

theorem enters (o : Opening σ) (owner : Owner) (id : ObjectId) :
    (o.path owner id).Enters o.dir (o.name owner id) := o.nested.enters owner id

theorem path_eq (o : Opening σ) (owner : Owner) (id : ObjectId) :
    o.db.naming.path o.db.layout owner id = o.path owner id := by
  rw [o.flat]
  rfl

structure Live (o : Opening σ) (w : World σ) (k : HandleId) (owner : Owner) (id : ObjectId) :
    Prop where
  first_le : o.first ≤ k
  retired_eq : (w.handle k).retired = false
  path_eq : (w.handle k).path = o.path owner id

namespace Live

theorem knows (h : o.Live w k owner id) : w.Knows k := World.knows_of_live h.retired_eq

theorem unique (h : o.Live w k owner id) (h' : o.Live w k owner' i) : owner' = owner ∧ i = id :=
  Naming.flatPath_injective (h'.path_eq.symm.trans h.path_eq)

theorem of_handle (h : o.Live w k owner id) (hsame : w'.handle k = w.handle k) :
    o.Live w' k owner id :=
  ⟨h.first_le, hsame ▸ h.retired_eq, hsame ▸ h.path_eq⟩

/-- The live handles after one was made are those before and maybe the new one. -/
theorem of_append {new : Handle} (hhandles : w'.handles = w.handles ++ [new])
    (h : o.Live w' k owner id) : o.Live w k owner id ∨
      k = w.handles.length ∧ new.retired = false ∧ new.path = o.path owner id := by
  by_cases hk : w.Knows k
  · exact Or.inl (h.of_handle (World.handle_append_old hhandles hk).symm)
  · have hlt := h.knows
    unfold World.Knows at hk hlt
    rw [hhandles, List.length_append, List.length_singleton] at hlt
    obtain rfl : k = w.handles.length := Nat.le_antisymm (Nat.lt_succ_iff.1 hlt) (Nat.not_lt.1 hk)
    have hnew := World.handle_append_new hhandles
    exact Or.inr ⟨rfl, hnew ▸ h.retired_eq, hnew ▸ h.path_eq⟩

/-- A change of a handle that keeps its path brings no retired handle back to life. -/
theorem of_modify {f : Handle → Handle} (hpath : ∀ h, (f h).path = h.path)
    (hretired : ∀ h, (f h).retired = false → h.retired = false)
    (hhandles : w'.handles = w.handles.modify j f) (hj : w.Knows j) (h : o.Live w' k owner id) :
    o.Live w k owner id := by
  have hsame := World.handle_modify hhandles hj k
  split at hsame
  · exact ⟨h.first_le, hretired _ (hsame ▸ h.retired_eq),
      (hpath _).symm.trans ((congrArg Handle.path hsame).symm.trans h.path_eq)⟩
  · exact h.of_handle hsame.symm

theorem of_retire (hhandles : w'.handles = w.handles.modify j Handle.retire) (hj : w.Knows j)
    (h : o.Live w' k owner id) : k ≠ j ∧ o.Live w k owner id := by
  refine ⟨?_, h.of_modify (f := Handle.retire) (fun _ => rfl) (fun _ => nofun) hhandles hj⟩
  rintro rfl
  have hretired := h.retired_eq
  rw [World.handle_modify hhandles hj, if_pos rfl] at hretired
  cases hretired

end Live

structure Guards (o : Opening σ) (bound : UInt32) (w : World σ) : Prop where
  sane : Sane w.store
  settled : Settled o.dir w.store
  /-- The counter has run out when it stands at zero. -/
  counter : w.Counter o.place bound ∨ w.Counter o.place 0
  start_le : o.start ≤ bound
  first_le : o.first ≤ w.handles.length
  folders (t : Name) : FolderIn o.dir w.store t ↔ FolderIn o.dir o.store t
  kept (t : Name) : (fileIn? o.dir o.store t).isSome →
    fileIn? o.dir w.store t = fileIn? o.dir o.store t
  unused (owner : Owner) (id : ObjectId) : bound ≤ id.word → id.word ≠ Allocator.lastWord →
    fileIn? o.dir w.store (o.name owner id) = none
  /-- Of the files of an id there is only the one that the handle is on. -/
  live {k : HandleId} {owner : Owner} {id : ObjectId} : o.Live w k owner id →
    o.start ≤ id.word ∧ id.word < bound ∧
      ∀ owner' ≠ owner, fileIn? o.dir w.store (o.name owner' id) = none
  alone {k k' : HandleId} {owner owner' : Owner} {id : ObjectId} : o.Live w k owner id →
    o.Live w k' owner' id → k = k'

structure Fresh (o : Opening σ) (w : World σ) (id : ObjectId) : Prop where
  start_le : o.start ≤ id.word
  fileIn?_eq (owner : Owner) : fileIn? o.dir w.store (o.name owner id) = none
  not_live (k : HandleId) (owner : Owner) : ¬o.Live w k owner id

theorem clear_of_only {s s' : σ} (honly : Only o.dir [o.name owner i] s s')
    (h : ∀ owner' ≠ owner, fileIn? o.dir s (o.name owner' i) = none) :
    ∀ owner' ≠ owner, fileIn? o.dir s' (o.name owner' i) = none := by
  intro owner' hne
  rw [honly.files, h owner' hne]
  intro hmem
  exact hne (Naming.flatName_injective (List.mem_singleton.1 hmem)).1

namespace Guards

/-- Something is done with the files of one object. Its handle, if there is a live one then, is the
handle that is given, and of its other files there is none. -/
theorem touch (h : o.Guards bound w) {names : List Name} (hstart : o.start ≤ i.word) (hlt : i.word < bound)
    (honly : Only o.dir names w.store w'.store)
    (hnames : ∀ t ∈ names, ∃ owner, t = o.name owner i) (hcounters : w'.counters = w.counters)
    (hlength : w.handles.length ≤ w'.handles.length)
    (hlive : ∀ k' owner' id, o.Live w' k' owner' id →
      (id ≠ i ∧ o.Live w k' owner' id) ∨ id = i ∧ k' = k ∧ owner' = owner)
    (hclear : ∀ owner' ≠ owner, fileIn? o.dir w'.store (o.name owner' i) = none) :
    o.Guards bound w' := by
  have helse : ∀ {owner id}, id ≠ i →
      fileIn? o.dir w'.store (o.name owner id) = fileIn? o.dir w.store (o.name owner id) := by
    intro owner id hne
    refine honly.files _ fun hmem => ?_
    obtain ⟨owner', hsame⟩ := hnames _ hmem
    exact hne (Naming.flatName_injective hsame).2
  refine ⟨honly.sane, honly.settled, ?_, h.start_le, h.first_le.trans hlength,
    fun t => (honly.folders t).trans (h.folders t), fun t ht => ?_, fun owner' id hle hne => ?_,
    fun {k' owner' id} hk' => ?_, fun {k₁ k₂ owner₁ owner₂ id} h₁ h₂ => ?_⟩
  · unfold World.Counter
    rw [hcounters]
    exact h.counter
  · rw [honly.files t fun hmem => ?_, h.kept t ht]
    obtain ⟨owner', rfl⟩ := hnames t hmem
    exact o.free owner' i hstart (Allocator.ne_last_of_lt hlt) (Or.inl ht)
  · have hne' : id ≠ i := by
      rintro rfl
      exact UInt32.not_le.2 hlt hle
    rw [helse hne', h.unused owner' id hle hne]
  · rcases hlive k' owner' id hk' with ⟨hne, hold⟩ | ⟨rfl, -, rfl⟩
    · obtain ⟨hfrom, hbelow, hclear'⟩ := h.live hold
      exact ⟨hfrom, hbelow, fun owner₁ hne₁ => (helse hne).trans (hclear' owner₁ hne₁)⟩
    · exact ⟨hstart, hlt, hclear⟩
  · rcases hlive k₁ owner₁ id h₁ with ⟨hne, hold₁⟩ | ⟨rfl, rfl, -⟩
    · rcases hlive k₂ owner₂ id h₂ with ⟨-, hold₂⟩ | ⟨rfl, -⟩
      · exact h.alone hold₁ hold₂
      · exact absurd rfl hne
    · rcases hlive k₂ owner₂ id h₂ with ⟨hne, -⟩ | ⟨-, rfl, -⟩
      · exact absurd rfl hne
      · rfl

/-- Files of one object have changed, and no handle has come to life. -/
theorem edit (h : o.Guards bound w) {names : List Name} (hstart : o.start ≤ i.word) (hlt : i.word < bound)
    (hhere : ∀ k' owner', o.Live w k' owner' i → k' = k ∧ owner' = owner)
    (honly : Only o.dir names w.store w'.store) (hnames : ∀ t ∈ names, ∃ owner, t = o.name owner i)
    (hcounters : w'.counters = w.counters) (hlength : w.handles.length ≤ w'.handles.length)
    (hlive : ∀ k' owner' id, o.Live w' k' owner' id → o.Live w k' owner' id)
    (hclear : ∀ owner' ≠ owner, fileIn? o.dir w'.store (o.name owner' i) = none) :
    o.Guards bound w' := by
  refine h.touch hstart hlt honly hnames hcounters hlength (k := k) (fun k' owner' id hk' => ?_) hclear
  have hold := hlive k' owner' id hk'
  by_cases hid : id = i
  · rw [hid] at hold
    exact Or.inr ⟨hid, hhere k' owner' hold⟩
  · exact Or.inl ⟨hid, hold⟩

/-- Files of one object have changed, and the only live handle on them is new. -/
theorem append (h : o.Guards bound w) {names : List Name} (hstart : o.start ≤ i.word) (hlt : i.word < bound)
    (hhere : ∀ k' owner', ¬o.Live w k' owner' i) {new : Handle} (hnew : new.path = o.path owner i)
    (honly : Only o.dir names w.store w'.store) (hnames : ∀ t ∈ names, ∃ owner, t = o.name owner i)
    (hcounters : w'.counters = w.counters) (hhandles : w'.handles = w.handles ++ [new])
    (hclear : ∀ owner' ≠ owner, fileIn? o.dir w'.store (o.name owner' i) = none) :
    o.Guards bound w' := by
  have hlength : w.handles.length ≤ w'.handles.length := by
    rw [hhandles, List.length_append]
    exact Nat.le_add_right _ _
  refine h.touch hstart hlt honly hnames hcounters hlength (k := w.handles.length)
    (fun k' owner' id hk' => ?_) hclear
  rcases hk'.of_append hhandles with hold | ⟨hlast, -, hpath⟩
  · refine Or.inl ⟨?_, hold⟩
    rintro rfl
    exact hhere k' owner' hold
  · obtain ⟨rfl, rfl⟩ := Naming.flatPath_injective (hnew.symm.trans hpath)
    exact Or.inr ⟨rfl, hlast, rfl⟩

/-- Nothing but handles has changed, and none has come to life. -/
theorem rehandle (h : o.Guards bound w) {handles : List Handle} (hlength : w.handles.length ≤ handles.length)
    (hlive : ∀ k owner id, o.Live { w with handles } k owner id → o.Live w k owner id) :
    o.Guards bound { w with handles } where
  sane := h.sane
  settled := h.settled
  counter := h.counter
  start_le := h.start_le
  first_le := h.first_le.trans hlength
  folders := h.folders
  kept := h.kept
  unused := h.unused
  live hk := h.live (hlive _ _ _ hk)
  alone hk hk' := h.alone (hlive _ _ _ hk) (hlive _ _ _ hk')

/-- Only the counter has moved. -/
theorem recount (h : o.Guards bound w) {bound' : UInt32} (hle : bound ≤ bound') {counters : List UInt32}
    (hcounter : ({ w with counters } : World σ).Counter o.place bound' ∨
      ({ w with counters } : World σ).Counter o.place 0) : o.Guards bound' { w with counters } where
  sane := h.sane
  settled := h.settled
  counter := hcounter
  start_le := UInt32.le_trans h.start_le hle
  first_le := h.first_le
  folders := h.folders
  kept := h.kept
  unused owner id hfrom := h.unused owner id (UInt32.le_trans hle hfrom)
  live {k owner id} hk := by
    have hbefore : o.Live w k owner id := ⟨hk.first_le, hk.retired_eq, hk.path_eq⟩
    obtain ⟨hfrom, hbelow, hclear⟩ := h.live hbefore
    exact ⟨hfrom, UInt32.lt_of_lt_of_le hbelow hle, hclear⟩
  alone {k k' owner owner' id} hk hk' := by
    have hbefore : o.Live w k owner id := ⟨hk.first_le, hk.retired_eq, hk.path_eq⟩
    have hbefore' : o.Live w k' owner' id := ⟨hk'.first_le, hk'.retired_eq, hk'.path_eq⟩
    exact h.alone hbefore hbefore'

/-- A search ends with an id that was not in use and reserves it, or there are no ids left. -/
theorem allocate (h : o.Guards bound w) (hfits : o.db.Fits w) :
    (∃ id counters, o.db.allocate w = .ok id { w with counters } ∧ bound ≤ id.word ∧
      o.Fresh { w with counters } id ∧ id.word < id.word + 1 ∧
      o.Guards (id.word + 1) { w with counters }) ∨
    ∃ e counters, o.db.allocate w = .error e { w with counters } ∧ o.Guards bound { w with counters } := by
  have hcounter : w.Counter o.place bound := by
    refine h.counter.resolve_right fun hzero => ?_
    unfold Database.Fits at hfits
    rw [o.counts] at hfits
    exact hfits (World.counter_iff.1 hzero).2
  have hrun : o.db.allocate w = (Allocator.counter o.place).allocate o.db.naming .flat w := by
    unfold Database.allocate
    rw [o.counts, o.flat]
  rw [hrun]
  rcases Allocator.allocate_flat o.db.naming hcounter with ⟨id, hfree, hok⟩ | ⟨-, herror⟩
  · have hlt := Allocator.lt_add_one_of_ne_last hfree.ne_last
    have hfresh : o.Fresh w id := ⟨UInt32.le_trans h.start_le hfree.start_le,
      fun owner => h.unused owner id hfree.start_le hfree.ne_last,
      fun k owner hk => UInt32.not_le.2 (h.live hk).2.1 hfree.start_le⟩
    refine Or.inl ⟨id, _, hok, hfree.start_le, ⟨hfresh.start_le, hfresh.fileIn?_eq, fun k owner hk => ?_⟩,
      hlt, ?_⟩
    · exact hfresh.not_live k owner ⟨hk.first_le, hk.retired_eq, hk.path_eq⟩
    exact h.recount (UInt32.le_trans hfree.start_le (UInt32.le_of_lt hlt)) (Or.inl (hcounter.set _))
  · exact Or.inr ⟨_, _, herror, h.recount (UInt32.le_refl _) (Or.inr (hcounter.set 0))⟩

end Guards

end Opening

end LargeObjects
