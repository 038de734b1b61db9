import Mathlib
import LargeObjects.Value.Ownership
import LargeObjects.Proofs.MemoryLaws
import LargeObjects.Proofs.Steps

/-! Unlinking that fails. Before the file is renamed, whatever has its temporary name is deleted, so
a rename that fails comes too late for that file. -/
namespace LargeObjects

namespace Value

variable {σ : Type} [FileStore σ] {db : Database} {v : Value} {ref : ValueFile} {w w' : World σ}
  {e : ObjectError}

/-- The ways in which unlinking a linked value with a live handle fails. -/
theorem unlink_error_cases (hfile : v.content = .file ref) (howner : ref.owner ≠ .temp)
    (hlive : (w.handle ref.handle).retired = false) (h : v.unlink db w = .error e w') :
    let temp := db.naming.path ref.layout .temp ref.id
    w' = w ∧ (ref.layout = .sharded ∧ db.layout = .flat) ∨
    ¬(ref.layout = .sharded ∧ db.layout = .flat) ∧
      ((∃ cause s, FileStore.delete temp w.store = .error cause s ∧ w' = { w with store := s }) ∨
        ∃ found s cause s', FileStore.delete temp w.store = .ok found s ∧
          FileStore.rename (w.handle ref.handle).path temp s = .error cause s' ∧
          w' = { w with store := s' }) := by
  intro temp
  unfold unlink at h
  simp only [hfile] at h
  rw [Step.bind_ok (World.livePath_ok hlive)] at h
  by_cases hserved : ref.layout = .sharded ∧ db.layout = .flat
  · rw [Step.bind_error (Database.requireServed_error hserved)] at h
    cases h
    exact Or.inl ⟨rfl, hserved⟩
  rw [Step.bind_ok (Database.requireServed_ok hserved), if_neg howner] at h
  refine Or.inr ⟨hserved, ?_⟩
  cases hdel : FileStore.delete temp w.store with
  | error cause s =>
    rw [Step.bind_error (World.onStore_error hdel)] at h
    cases h
    exact Or.inl ⟨cause, s, rfl, rfl⟩
  | ok found s =>
    rw [Step.bind_ok (World.onStore_ok hdel)] at h
    cases hren : FileStore.rename (w.handle ref.handle).path temp s with
    | error cause s' =>
      rw [Step.bind_error (World.onStore_error hren)] at h
      cases h
      exact Or.inr ⟨found, s, cause, s', rfl, hren, rfl⟩
    | ok _ s' =>
      rw [Step.bind_ok (World.onStore_ok hren)] at h
      cases h

def sampleTree : Database where
  settings := { fanout := 4 }
  naming := ⟨⟨['d', 'b']⟩, 4⟩
  allocator := .scan 1

open SteadyStore in
/-- When unlinking fails the handle stays, and so does every file but the one with the temporary
name. That one stays exactly when the layout is refused or the deletion finds nothing to delete: a
deletion that took a file away is not undone by the failure of the rename after it. -/
theorem unlink_error_keeps_files_iff [SteadyStore σ] (hfile : v.content = .file ref)
    (howner : ref.owner ≠ .temp) (hlive : (w.handle ref.handle).retired = false)
    (h : v.unlink db w = .error e w') :
    let temp := db.naming.path ref.layout .temp ref.id
    (w'.handle ref.handle).retired = false ∧
    (∀ p, place? temp w.store ≠ some p → content? w'.store p = content? w.store p) ∧
    ((∀ p, (content? w.store p).isSome → content? w'.store p = content? w.store p) ↔
      (ref.layout = .sharded ∧ db.layout = .flat) ∨
        ¬∃ s, FileStore.delete temp w.store = .ok true s) := by
  intro temp
  rcases unlink_error_cases hfile howner hlive h with
    ⟨rfl, hrefused⟩ | ⟨hserved, ⟨cause, s, hdel, rfl⟩ | ⟨found, s, cause, s', hdel, hren, rfl⟩⟩
  · exact ⟨hlive, fun _ _ => rfl, fun _ => Or.inl hrefused, fun _ _ _ => rfl⟩
  · have hsame := delete_error hdel
    refine ⟨hlive, fun p _ => by rw [hsame], fun _ => Or.inr ?_, fun _ p _ => by rw [hsame]⟩
    rintro ⟨s₁, hok⟩
    rw [hdel] at hok
    cases hok
  · have hsame := rename_error hren
    refine ⟨hlive, fun p hp => by rw [hsame, delete_elsewhere hdel hp], ?_, ?_⟩
    · intro hkept
      refine Or.inr ?_
      rintro ⟨s₁, hok⟩
      rw [hdel] at hok
      cases hok
      obtain ⟨p, hplace, hthere⟩ := (delete_found hdel).1 rfl
      have hgone := hkept p hthere
      rw [hsame, delete_at hdel hplace] at hgone
      rw [← hgone] at hthere
      cases hthere
    · rintro (hrefused | hnothing) p hthere
      · exact absurd hrefused hserved
      · rw [hsame]
        refine delete_elsewhere hdel fun hplace => hnothing ⟨s, ?_⟩
        rwa [(delete_found hdel).2 ⟨p, hplace, hthere⟩] at hdel

def sweptFile : ValueFile where
  id := ⟨1⟩
  owner := .table ⟨3⟩
  compressed := false
  layout := .sharded
  handle := 0

def sweptWorld : World MemoryStore where
  store := (default : MemoryStore).put (sampleTree.naming.shardedPath .temp ⟨2⟩) [7]
  handles := [{ path := sampleTree.naming.shardedPath (.table ⟨3⟩) ⟨1⟩, armed := false }]

open SteadyStore in
/-- A file that was swept away cannot be renamed, and the file of another object stays. -/
theorem unlink_error_keeps_files_after_sweep :
    ∃ (w' : World MemoryStore) (e : ObjectError),
      sweptFile.owner ≠ .temp ∧ (sweptWorld.handle sweptFile.handle).retired = false ∧
      unlink sampleTree ⟨.binary, 1, .file sweptFile, none⟩ sweptWorld = .error e w' ∧
      (∃ p, (content? sweptWorld.store p).isSome) ∧
      ∀ p, (content? sweptWorld.store p).isSome →
        content? w'.store p = content? sweptWorld.store p := by
  obtain ⟨e, w', h⟩ : ∃ e w',
      unlink sampleTree ⟨.binary, 1, .file sweptFile, none⟩ sweptWorld = .error e w' := ⟨_, _, rfl⟩
  refine ⟨w', e, by decide, rfl, h, ?_, ?_⟩
  · refine ⟨(sampleTree.naming.shardedPath .temp ⟨2⟩).components, ?_⟩
    decide +kernel
  · refine (unlink_error_keeps_files_iff rfl (by decide) rfl h).2.2.2 (Or.inr ?_)
    rintro ⟨s, hs⟩
    cases hs

def attachTwice (db : Database) (table : TableId) (id : ObjectId) : Action σ Value := do
  let first ← attach db .binary table id 1 false
  let second ← attach db .binary table id 1 false
  let _ ← first.unlink db
  return second

/-- Two values refer to one object. The file that unlinking the first has left under the temporary
name is lost when unlinking the second fails. -/
theorem unlink_error_loses_file :
    ∃ (w w' : World MemoryStore) (v : Value) (ref : ValueFile) (e : ObjectError),
      attachTwice sampleTree ⟨3⟩ ⟨1⟩
        { store := (default : MemoryStore).put (sampleTree.naming.shardedPath (.table ⟨3⟩) ⟨1⟩) [7] } =
          .ok v w ∧
      v.content = .file ref ∧ v.state w = .linked ∧ v.unlink sampleTree w = .error e w' ∧
      w.store.get? (sampleTree.naming.shardedPath .temp ⟨1⟩) = some [7] ∧
      w'.store.get? (sampleTree.naming.shardedPath .temp ⟨1⟩) = none := by
  refine ⟨_, _, _, _, _, rfl, rfl, ?_, rfl, ?_, ?_⟩
  · decide +kernel
  · decide +kernel
  · decide +kernel

end Value

end LargeObjects
