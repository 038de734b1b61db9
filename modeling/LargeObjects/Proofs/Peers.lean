import Mathlib
import LargeObjects.Proofs.Freshness
import LargeObjects.Proofs.Seats

/-! Two processes that have done the same, one with a store in memory and one with a file system. What
they do next with their files and handles, and with the same chance, they do alike. -/
namespace LargeObjects

open Step

structure Peers (g : Ground) (w : World MemoryStore) (w' : World Disk) : Prop where
  twins : Twins g w.store w'.store
  handles_eq : w.handles = w'.handles
  counters_eq : w.counters = w'.counters
  entropy_eq : w.entropy = w'.entropy
  seated : ∀ h ∈ w.handles, g.Holds h.path

def ListsAlike (s : MemoryStore) (d : Disk) (dir : Path) : Prop :=
  ∃ entries, FileStore.list dir s = .ok entries s ∧ FileStore.list dir d = .ok entries d

structure PeersAt (g : Ground) (s : MemoryStore) (d : Disk) (w : World MemoryStore) (w' : World Disk) :
    Prop where
  peers : Peers g w w'
  memory : w.store = s
  disk : w'.store = d

variable {g : Ground} {w : World MemoryStore} {w' : World Disk} {s : MemoryStore} {d : Disk} {k : HandleId}
  {path : Path} {α β : Type} {A : α → β → Prop}

namespace Peers

/-- Both processes have the same handles. -/
theorem handle_eq (h : Peers g w w') (k : HandleId) : w.handle k = w'.handle k := by
  unfold World.handle
  rw [h.handles_eq]

theorem withStore (h : Peers g w w') (htwins : Twins g s d) :
    Peers g { w with store := s } { w' with store := d } :=
  ⟨htwins, h.handles_eq, h.counters_eq, h.entropy_eq, h.seated⟩

/-- What the stores do alike, the processes do alike. -/
theorem onStore (h : Peers g w w') {act : Step StoreError MemoryStore α} {act' : Step StoreError Disk β}
    (hact : Agree (Twins g) A (act w.store) (act' w'.store)) :
    Agree (Peers g) A (World.onStore act w) (World.onStore act' w') := by
  unfold World.onStore
  generalize act w.store = r at hact
  generalize act' w'.store = r' at hact
  cases hact with
  | ok ha htwins => exact .ok ha (h.withStore htwins)
  | error htwins => exact .error (h.withStore htwins)

theorem modifyHandle (h : Peers g w w') (k : HandleId) {f : Handle → Handle}
    (hf : ∀ x, (f x).path = x.path) :
    Agree (Peers g) Eq (World.modifyHandle k f w) (World.modifyHandle k f w') := by
  refine .ok rfl ⟨h.twins, ?_, h.counters_eq, h.entropy_eq, fun x hx => ?_⟩
  · show w.handles.modify k f = w'.handles.modify k f
    rw [h.handles_eq]
  · obtain ⟨j, hj, hget⟩ := List.mem_iff_getElem.1 hx
    rw [List.getElem_modify] at hget
    rw [List.length_modify] at hj
    have hseated := h.seated _ (List.getElem_mem hj)
    split at hget
    · rw [← hget, hf]
      exact hseated
    · rw [← hget]
      exact hseated

/-- A new handle gets the same number in both. -/
theorem newHandle (h : Peers g w w') (hpath : g.Holds path) (armed : Bool) :
    Agree (Peers g) Eq (World.newHandle path armed w) (World.newHandle path armed w') := by
  unfold World.newHandle
  rw [← h.handles_eq]
  refine .ok rfl ⟨h.twins, rfl, h.counters_eq, h.entropy_eq, fun x hx => ?_⟩
  rcases List.mem_append.1 hx with hx | hx
  · exact h.seated x hx
  · rw [List.mem_singleton.1 hx]
    exact hpath

theorem retain (h : Peers g w w') (k : HandleId) :
    Agree (Peers g) Eq (World.retain k w) (World.retain k w') := h.modifyHandle k fun _ => rfl

theorem retire (h : Peers g w w') (k : HandleId) :
    Agree (Peers g) Eq (World.retire k w) (World.retire k w') := h.modifyHandle k fun _ => rfl

theorem holds_of_live (h : Peers g w w') (hlive : (w.handle k).retired = false) :
    g.Holds (w.handle k).path := by
  unfold World.handle at hlive ⊢
  rw [List.getD_eq_getElem?_getD] at hlive ⊢
  cases hget : w.handles[k]? with
  | none =>
    rw [hget] at hlive
    cases hlive
  | some x => exact h.seated x (List.mem_of_getElem? hget)

/-- A handle is retired in both or has its path in both. -/
theorem livePath (h : Peers g w w') (k : HandleId) :
    Agree (Peers g) (fun p q => p = q ∧ p = (w.handle k).path ∧ (w.handle k).retired = false)
      (World.livePath k w) (World.livePath k w') := by
  cases hretired : (w.handle k).retired with
  | true =>
    rw [World.livePath_error hretired, World.livePath_error (h.handle_eq k ▸ hretired), ← h.handle_eq]
    exact .error h
  | false =>
    rw [World.livePath_ok hretired, World.livePath_ok (h.handle_eq k ▸ hretired), ← h.handle_eq]
    exact .ok ⟨rfl, rfl, rfl⟩ h

theorem delete (h : Peers g w w') (hpath : g.Holds path) :
    Agree (Peers g) Eq (World.onStore (FileStore.delete path) w)
      (World.onStore (FileStore.delete path) w') := by
  obtain ⟨names, hseat, hspells⟩ := hpath
  exact h.onStore (h.twins.delete hseat hspells)

/-- A file that goes without notice goes from both. -/
theorem discard (h : Peers g w w') (hpath : g.Holds path) :
    Agree (Peers g) Eq (World.discard path w) (World.discard path w') := by
  obtain ⟨names, hseat, hspells⟩ := hpath
  have hdelete := h.twins.delete hseat hspells
  unfold World.discard
  generalize FileStore.delete path w.store = r at hdelete
  generalize FileStore.delete path w'.store = r' at hdelete
  cases hdelete with
  | ok _ htwins => exact .ok rfl (h.withStore htwins)
  | error htwins => exact .ok rfl (h.withStore htwins)

theorem letGo (h : Peers g w w') (k : HandleId) :
    Peers g { w with handles := w.handles.modify k Handle.letGo }
      { w' with handles := w'.handles.modify k Handle.letGo } := by
  have hmodify := h.modifyHandle k (f := Handle.letGo) fun _ => rfl
  cases hmodify with
  | ok _ h' => exact h'

/-- The last holder takes the file along in both. -/
theorem release (h : Peers g w w') (k : HandleId) :
    Agree (Peers g) Eq (World.release k w) (World.release k w') := by
  have h₁ := h.letGo k
  have hrun : ∀ {σ : Type} [FileStore σ] (v : World σ),
      let v₁ : World σ := { v with handles := v.handles.modify k Handle.letGo }
      World.release k v = (if (v₁.handle k).holders = 0 ∧ (v₁.handle k).isAutoDelete then
        World.discard (v₁.handle k).path else pure ()) v₁ := fun _ => rfl
  rw [hrun w, hrun w', ← h₁.handle_eq k]
  split
  next hlast =>
    refine h₁.discard (h₁.holds_of_live ?_)
    have hauto := hlast.2
    unfold Handle.isAutoDelete at hauto
    rw [Bool.and_eq_true, Bool.not_eq_true'] at hauto
    exact hauto.2
  next => exact .ok rfl h₁

end Peers

namespace PeersAt

theorem refl (h : Peers g w w') : PeersAt g w.store w'.store w w' := ⟨h, rfl, rfl⟩

/-- A directory that both list alike has the same numbers taken up. -/
theorem entryNumbers (h : PeersAt g s d w w') {dir : Path} (hlists : ListsAlike s d dir) :
    Agree (PeersAt g s d) Eq (Allocator.entryNumbers dir w) (Allocator.entryNumbers dir w') := by
  obtain ⟨entries, hmemory, hdisk⟩ := hlists
  rw [← h.memory] at hmemory
  rw [← h.disk] at hdisk
  have hrun : ∀ {σ : Type} [FileStore σ] {v : World σ}, FileStore.list dir v.store = .ok entries v.store →
      Allocator.entryNumbers dir v =
        .ok (entries.filterMap fun path => path.fileName?.bind Naming.entryNumber?) v := by
    intro σ _ v hlist
    unfold Allocator.entryNumbers
    rw [bind_ok (World.onStore_ok hlist)]
    rfl
  rw [hrun hmemory, hrun hdisk]
  exact .ok rfl h

/-- Chance is the same in both. -/
theorem randomDigit (h : PeersAt g s d w w') (radix : UInt32) :
    Agree (PeersAt g s d) Eq (World.randomDigit radix w) (World.randomDigit radix w') := by
  unfold World.randomDigit
  rw [← h.peers.entropy_eq]
  exact .ok rfl ⟨⟨h.peers.twins, h.peers.handles_eq, h.peers.counters_eq, rfl, h.peers.seated⟩,
    h.memory, h.disk⟩

theorem nextCount (h : PeersAt g s d w w') (place : Nat) :
    Agree (PeersAt g s d) Eq (World.nextCount place w) (World.nextCount place w') := by
  unfold World.nextCount
  rw [← h.peers.counters_eq]
  exact .ok rfl ⟨⟨h.peers.twins, h.peers.handles_eq, rfl, h.peers.entropy_eq, h.peers.seated⟩,
    h.memory, h.disk⟩

section Search

open Allocator

variable {naming : Naming} {title : Name} (hon : naming.On g title)

/-- So the least free slot is the same. -/
theorem vacancy? (h : PeersAt g s d w w') {id : UInt32} (hlists : ListsAlike s d (naming.stem ⟨id⟩)) :
    Agree (PeersAt g s d) Eq (Allocator.vacancy? naming id w) (Allocator.vacancy? naming id w') := by
  unfold Allocator.vacancy?
  refine (h.entryNumbers hlists).bind ?_
  rintro numbers _ v v' rfl hv
  by_cases hfull : naming.fanout.toNat ≤ numbers.length
  · simp only [if_pos hfull]
    exact .ok rfl hv
  · simp only [if_neg hfull]
    exact .ok rfl hv

/-- Both find the same place, or none. -/
theorem scanFrom (h : PeersAt g s d w w') (maxProbes : UInt32) (probes : Nat) {id : UInt32}
    (hid : id % naming.fanout = 0) (hlists : ∀ id, ListsAlike s d (naming.shardDirectory id)) :
    Agree (PeersAt g s d) Eq (Allocator.scanFrom naming maxProbes probes id w)
      (Allocator.scanFrom naming maxProbes probes id w') := by
  induction probes generalizing id w w' with
  | zero => exact .error h
  | succ probes ih =>
    have hstem : naming.stem ⟨id⟩ = naming.shardDirectory ⟨id⟩ := if_pos hid
    refine (h.vacancy? (hstem ▸ hlists ⟨id⟩)).bind ?_
    rintro place _ v v' rfl hv
    cases place with
    | some slot => exact .ok rfl hv
    | none =>
      refine (hv.randomDigit naming.fanout).bind ?_
      rintro digit _ u u' rfl hu
      exact ih hu (childDirectory_mod _ _ _)

include hon in
theorem isTaken (h : PeersAt g s d w w') (id : ObjectId) :
    Agree (PeersAt g s d) Eq (Allocator.isTaken naming .flat id w)
      (Allocator.isTaken naming .flat id w') := by
  obtain ⟨names, hseat, hspells⟩ := hon.holds .flat .temp id
  exact .ok (h.peers.twins.isFile_eq hseat hspells) h

include hon in
/-- Both count to the same id. -/
theorem countFrom (h : PeersAt g s d w w') (place fuel : Nat) :
    Agree (PeersAt g s d) Eq (Allocator.countFrom naming .flat place fuel w)
      (Allocator.countFrom naming .flat place fuel w') := by
  induction fuel generalizing w w' with
  | zero => exact .error h
  | succ fuel ih =>
    refine (h.nextCount place).bind ?_
    rintro id _ v v' rfl hv
    by_cases hlast : id = lastWord
    · simp only [if_pos hlast]
      exact .error hv
    · simp only [if_neg hlast]
      refine (hv.isTaken hon ⟨id⟩).bind ?_
      rintro taken _ u u' rfl hu
      cases taken with
      | true => exact ih hu
      | false => exact .ok rfl hu

end Search

end PeersAt

def Database.Searches (db : Database) : Prop :=
  (∃ maxProbes, db.allocator = .scan maxProbes) ∧ db.layout = .sharded ∨
    (∃ place, db.allocator = .counter place) ∧ db.layout = .flat

/-- Where the directories of the tree are listed alike, the same id is found. -/
theorem Peers.allocate {db : Database} {title : Name} (h : Peers g w w') (hon : db.naming.On g title)
    (hsearches : db.Searches)
    (hlists : db.layout = .sharded → ∀ id, ListsAlike w.store w'.store (db.naming.shardDirectory id)) :
    Agree (PeersAt g w.store w'.store) Eq (db.allocate w) (db.allocate w') := by
  unfold Database.allocate Allocator.allocate
  rcases hsearches with ⟨⟨maxProbes, hscan⟩, hlayout⟩ | ⟨⟨place, hcounter⟩, hlayout⟩
  · rw [hscan]
    exact (PeersAt.refl h).scanFrom maxProbes _ UInt32.zero_mod (hlists hlayout)
  · rw [hcounter, hlayout]
    exact (PeersAt.refl h).countFrom hon place _

end LargeObjects
