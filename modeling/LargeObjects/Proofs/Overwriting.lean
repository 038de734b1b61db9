import Mathlib
import LargeObjects.Proofs.Counting
import LargeObjects.Proofs.Outcomes
import LargeObjects.Proofs.Reattaching

/-! Which files a flat database keeps. A counter only looks for temporary files, so the id of a new
object can be one that a table has a file with, and linking the object there replaces that file. -/
namespace LargeObjects

open ReliableStore FallibleStore Allocator Step

def Keeps {σ : Type} [FileStore σ] [ReliableStore σ] (places : List (List Component)) (s s' : σ) :
    Prop :=
  ∀ q ∉ places, ∀ content, fileAt? s q = some content → fileAt? s' q = some content

namespace Keeps

variable {σ : Type} [FileStore σ] [ReliableStore σ] {s s' : σ}

/-- With what becomes of one more place it is known whether all files are kept. -/
theorem nil_iff {goal : List Component} {content : Bytes} (h : Keeps [goal] s s')
    (hgoal : fileAt? s' goal = some content) :
    Keeps [] s s' ↔ ∀ old, fileAt? s goal = some old → old = content := by
  refine ⟨fun hall old hold => ?_, fun hsame q _ old hold => ?_⟩
  · have hkept := hall goal List.not_mem_nil old hold
    rw [hgoal] at hkept
    exact (Option.some.inj hkept).symm
  · by_cases hq : q = goal
    · subst hq
      rw [hgoal, hsame old hold]
    · exact h q (fun hmem => hq (List.mem_singleton.1 hmem)) old hold

end Keeps

variable {σ : Type} [FileStore σ] [FallibleStore σ]

/-- What is done only where there was no file keeps all files. -/
theorem FallibleStore.Near.keeps {places : List (List Component)} {s s' : σ}
    (h : Near places s s') (hnone : ∀ q ∈ places, fileAt? (below s) q = none) :
    Keeps [] (below s) (below s') := by
  intro q _ content hfile
  rw [h.elsewhere q, hfile]
  intro hmem
  rw [hnone q hmem] at hfile
  cases hfile

/-- Renaming a new file keeps all others but the one whose name it gets. -/
theorem keeps_rename {source : Path} (goal : Path) {s₀ s : σ} (h : Keeps [] (below s₀) (below s))
    (hnew : fileAt? (below s₀) source.components = none) :
    Keeps [goal.components] (below s₀) (below (after (FileStore.rename source goal) s)) := by
  intro q hq content hfile
  have hkept := h q List.not_mem_nil content hfile
  have hsource : q ≠ source.components := by
    rintro rfl
    rw [hnew] at hfile
    cases hfile
  have helse := FallibleStore.elsewhere (.rename source goal) s (q := q) (by
    intro hmem
    rcases List.mem_cons.1 hmem with heq | hmem
    · exact hsource heq
    · exact hq hmem)
  exact helse.trans hkept

/-- What was at the old name is at the new one when a rename goes through. -/
theorem file_of_rename {source goal : Path} {s s' : σ} {content : Bytes}
    (hfile : fileAt? (below s) source.components = some content)
    (h : FileStore.rename source goal s = .ok () s') :
    fileAt? (below s') goal.components = some content := by
  obtain ⟨t, hrename, hgoal, -⟩ := ReliableStore.rename_ok goal hfile
  rw [FallibleStore.rename_ok h] at hrename
  cases hrename
  exact hgoal

variable {db : Database} {place : Nat} {start : UInt32} {w w' w₁ : World σ} {id : ObjectId}

/-- A flat database finds the first id without a temporary file. -/
theorem Database.Finds.firstFree (hflat : db.layout = .flat) (hcounter : db.allocator = .counter place)
    (hstart : w.Counter place start) (h : db.Finds w id w') :
    FirstFree db.naming start id (below w.store) := by
  have hfound := h.found
  unfold Database.allocate Allocator.allocate at hfound
  rw [hcounter, hflat] at hfound
  have hends := allocate_flat (w := w.below) db.naming hstart
  unfold Allocator.allocate at hends
  dsimp only at hfound hends
  rw [hfound] at hends
  obtain ⟨first, hfree, hrun⟩ | ⟨-, hrun⟩ := hends
  · injection hrun with hid _
    rw [hid]
    exact hfree
  · cases hrun

theorem temp_eq_none {s : σ} {naming : Naming} (h : FirstFree naming start id (below s)) :
    fileAt? (below s) (naming.flatPath .temp id).components = none := by
  have hnot := h.isFile_eq
  rw [ReliableStore.isFile_eq] at hnot
  exact Option.not_isSome_iff_eq_none.1 (Bool.eq_false_iff.1 hnot)

section Making

variable [Codec]

namespace Value

/-- Making a value keeps all files, even if it fails. -/
theorem keeps_create (kind : Kind) (source : Source σ) (declared : Option Nat)
    (hflat : db.layout = .flat) (hcounter : db.allocator = .counter place)
    (hstart : w.Counter place start) :
    Keeps [] (below w.store) (below (after (create db kind source declared) w).store) := by
  have hnear : ∀ {id : ObjectId} {w' : World σ} {s : σ}, db.Finds w id w' →
      Near [(db.naming.path db.layout .temp id).components] w'.store s →
      Keeps [] (below w.store) (below s) := by
    intro id w' s hfinds hnear
    have hnone := temp_eq_none (hfinds.firstFree hflat hcounter hstart)
    rw [← hfinds.looks.looked.below_eq] at hnone ⊢
    apply hnear.keeps
    intro q hq
    rw [List.mem_singleton.1 hq, hflat]
    exact hnone
  have hlooks : ∀ {w' : World σ}, w.Looks w' → Keeps [] (below w.store) (below w'.store) := by
    intro w' hlooks q _ content hfile
    rw [hlooks.looked.below_eq]
    exact hfile
  have hends := create_creates db kind source declared w
  unfold after
  generalize create db kind source declared w = r at hends
  cases hends with
  | looked h => exact hlooks h
  | plain h => exact hlooks h
  | uncreated _ hfinds hcreate =>
    exact hnear hfinds (Near.run (.create _) (after_error hcreate))
  | made _ hfinds hmade => exact hnear hfinds hmade
  | abandoned _ hfinds habandoned =>
    exact hnear hfinds (habandoned.trans (Near.run (.delete _) rfl))

variable {kind : Kind} {source : Source σ} {declared : Option Nat}

/-- The world in which a value with a file was made, and its id. -/
theorem created_file {v : Value} {ref : ValueFile}
    (hcreate : create db kind source declared w = .ok v w₁) (hcontent : v.content = .file ref) :
    ∃ w' s, db.Finds w ref.id w' ∧ w₁ = { w' with
        store := s
        handles := w'.handles ++ [.new (db.naming.path db.layout .temp ref.id) .temp] } ∧
      v.content = .file
        { id := ref.id, owner := .temp, compressed := ref.compressed, layout := db.layout,
          handle := w'.handles.length } := by
  have hends := create_creates db kind source declared w
  rw [hcreate] at hends
  cases hends with
  | plain _ hfile =>
    rw [file?, hcontent] at hfile
    cases hfile
  | @made _ id compressed w' s _ hfinds _ hmade =>
    rw [hcontent] at hmade
    cases hmade
    refine ⟨w', s, hfinds, rfl, ?_⟩
    rw [hcontent, hfinds.looks.handles_eq]

/-- Of linking a new file to a table, the store sees no more than a rename. -/
theorem link_created {v : Value} {ref : ValueFile} (hflat : db.layout = .flat)
    (hcreate : create db kind source declared w = .ok v w₁) (hcontent : v.content = .file ref)
    (table : TableId) :
    let temp := db.naming.flatPath .temp ref.id
    let goal := db.naming.flatPath (.table table) ref.id
    (after (v.link db table) w₁).store = after (FileStore.rename temp goal) w₁.store ∧
      ∀ u w₂, v.link db table w₁ = .ok u w₂ →
        FileStore.rename temp goal w₁.store = .ok () w₂.store := by
  obtain ⟨w', s, -, rfl, hfresh⟩ := created_file hcreate hcontent
  have hlink := link_fresh hfresh table s
  have hok := fun s' (h : FileStore.rename (db.naming.path db.layout .temp ref.id)
    (db.naming.path db.layout (.table table) ref.id) s = .ok () s') => link_fresh_ok hfresh h
  have hpath : ∀ owner, db.naming.path db.layout owner ref.id = db.naming.flatPath owner ref.id := by
    intro owner
    rw [hflat]
    rfl
  simp only [hpath] at hlink hok ⊢
  cases hrename : FileStore.rename (db.naming.flatPath .temp ref.id)
      (db.naming.flatPath (.table table) ref.id) s with
  | error e s' =>
    rw [bind_error (World.onStore_error hrename)] at hlink
    rw [after_error hlink, after_error hrename]
    refine ⟨rfl, fun u w₂ hlinked => ?_⟩
    rw [hlink] at hlinked
    cases hlinked
  | ok _ s' =>
    rw [after_ok (hok s' hrename), after_ok hrename]
    refine ⟨rfl, fun u w₂ hlinked => ?_⟩
    rw [hok s' hrename] at hlinked
    cases hlinked
    rfl

end Value

/-- With flat names, an id has no temporary file when it is given out, but a table may have a file with
it. Making a value keeps all files, and linking it those that the table has with other ids. All are
kept only if the table has no other content with this one. -/
theorem Database.flat_keeps_iff (hflat : db.layout = .flat) (hcounter : db.allocator = .counter place)
    (hstart : w.Counter place start) :
    (∀ id w', db.allocate w = .ok id w' → FirstFree db.naming start id (below w.store) ∧
      ((∀ owner, fileAt? (below w.store) (db.naming.flatPath owner id).components = none) ↔
        ∀ table, fileAt? (below w.store) (db.naming.flatPath (.table table) id).components = none)) ∧
    ∀ kind source declared,
      Keeps [] (below w.store) (below (after (Value.create db kind source declared) w).store) ∧
      ∀ v ref w₁, Value.create db kind source declared w = .ok v w₁ → v.content = .file ref →
        ∀ table : TableId, let goal := (db.naming.flatPath (.table table) ref.id).components
          Keeps [goal] (below w.store) (below (after (v.link db table) w₁).store) ∧
          ∀ u w₂ content, v.link db table w₁ = .ok u w₂ →
            fileAt? (below w₁.store) (db.naming.flatPath .temp ref.id).components = some content →
            (Keeps [] (below w.store) (below w₂.store) ↔
              ∀ old, fileAt? (below w.store) goal = some old → old = content) := by
  refine ⟨fun id w' halloc => ?_, fun kind source declared =>
    ⟨Value.keeps_create _ _ _ hflat hcounter hstart, fun v ref w₁ hcreate hcontent table => ?_⟩⟩
  · obtain ⟨hlooks, hfound⟩ := db.looks_allocate.ok halloc
    have hfree := Database.Finds.firstFree hflat hcounter hstart ⟨hlooks, hfound⟩
    refine ⟨hfree, fun hnone table => hnone (.table table), fun hnone owner => ?_⟩
    cases owner with
    | temp => exact temp_eq_none hfree
    | table table => exact hnone table
  · intro goal
    -- Up to the link all files are kept, and the link is a rename from a name that was new.
    have hmade : Keeps [] (below w.store) (below w₁.store) := by
      have hkeeps := Value.keeps_create kind source declared hflat hcounter hstart
      rwa [after_ok hcreate] at hkeeps
    obtain ⟨w', s, hfinds, -, -⟩ := Value.created_file hcreate hcontent
    have hnew := temp_eq_none (hfinds.firstFree hflat hcounter hstart)
    obtain ⟨hstore, hrename⟩ := Value.link_created hflat hcreate hcontent table
    have hlinked := keeps_rename (db.naming.flatPath (.table table) ref.id) hmade hnew
    rw [← hstore] at hlinked
    refine ⟨hlinked, fun u w₂ content hok hfile => ?_⟩
    rw [after_ok hok] at hlinked
    exact hlinked.nil_iff (file_of_rename hfile (hrename u w₂ hok))

end Making

namespace Session

def claimedWorld : World MemoryStore where
  store := (default : MemoryStore).put (flatDatabase.naming.flatPath (.table ⟨6⟩) ⟨1⟩) [9]
  counters := [1]

/-- Linking a new value to another table keeps that file. -/
theorem flat_keeps_claimed : flatDatabase.layout = .flat ∧
    flatDatabase.allocator = .counter 0 ∧ claimedWorld.Counter 0 1 ∧
    ∃ v w₁ u w₂, Value.create flatDatabase .binary (.planned threeOctets.deliveries)
        none claimedWorld = .ok v w₁ ∧
      v.link flatDatabase ⟨7⟩ w₁ = .ok u w₂ ∧
      Keeps [] claimedWorld.store w₂.store := by
  have hflat : flatDatabase.layout = .flat := rfl
  have hcounter : flatDatabase.allocator = .counter 0 := rfl
  have hstart : claimedWorld.Counter 0 1 := rfl
  obtain ⟨-, hmakes⟩ := Database.flat_keeps_iff hflat hcounter hstart
  obtain ⟨-, hlinks⟩ := hmakes .binary (.planned threeOctets.deliveries) none
  obtain ⟨-, hiff⟩ := hlinks _ _ _ rfl rfl ⟨7⟩
  refine ⟨hflat, hcounter, hstart, _, _, _, _, rfl, rfl, ?_⟩
  apply (hiff _ _ _ rfl rfl).2
  intro old hold
  cases hold

/-- Linking it to the same table replaces the file, with an id that was to have none. -/
theorem flat_link_replaces : flatDatabase.layout = .flat ∧
    flatDatabase.allocator = .counter 0 ∧ claimedWorld.Counter 0 1 ∧
    fileAt? claimedWorld.store (flatDatabase.naming.flatPath (.table ⟨6⟩) ⟨1⟩).components =
      some [9] ∧
    (∃ w', flatDatabase.allocate claimedWorld = .ok ⟨1⟩ w') ∧
    ∃ v w₁ u w₂, Value.create flatDatabase .binary (.planned threeOctets.deliveries)
        none claimedWorld = .ok v w₁ ∧
      v.link flatDatabase ⟨6⟩ w₁ = .ok u w₂ ∧
      fileAt? w₂.store (flatDatabase.naming.flatPath (.table ⟨6⟩) ⟨1⟩).components ≠
        some [9] := by
  refine ⟨rfl, rfl, rfl, rfl, ⟨_, rfl⟩, _, _, _, _, rfl, rfl, ?_⟩
  decide +kernel

end Session

end LargeObjects
