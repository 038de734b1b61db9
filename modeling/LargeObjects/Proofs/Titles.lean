import Mathlib
import LargeObjects.Proofs.Deeds

/-! The names of the files of values. Whatever is done with a database, with flat names or in a tree,
the handle of a value stays on the path that layout, owner and object make. -/
namespace LargeObjects

open FallibleStore Step

def World.Calls {σ : Type} (n : Naming) (w : World σ) (v : Value) : Prop :=
  ∀ ref, v.content = .file ref → w.Knows ref.handle ∧
    (w.handle ref.handle).path = n.path ref.layout ref.owner ref.id

namespace World

variable {σ : Type} {n : Naming} {w w' : World σ} {v : Value}

theorem calls_inline (h : v.file? = none) : w.Calls n v := by
  intro ref hcontent
  rw [Value.file?, hcontent] at h
  cases h

/-- A name that is right stays right while handles stay. -/
theorem Calls.later (h : w.Calls n v) (hstay : Handle.Stay w.handles w'.handles) : w'.Calls n v := by
  intro ref hcontent
  obtain ⟨hknown, hpath⟩ := h ref hcontent
  obtain ⟨hknown', hsame⟩ := handle_path_of_stay hstay hknown
  exact ⟨hknown', hsame.trans hpath⟩

/-- A value whose handle is the last of all. -/
theorem calls_last {ref : ValueFile} {handles : List Handle} {h : Handle} (hcontent : v.content = .file ref)
    (hhandles : w.handles = handles ++ [h]) (hlast : ref.handle = handles.length)
    (hpath : h.path = n.path ref.layout ref.owner ref.id) : w.Calls n v := by
  intro ref' hcontent'
  obtain rfl : ref = ref' := Content.file.inj (hcontent.symm.trans hcontent')
  have hget : w.handles.getD ref.handle .absent = h := by
    rw [hhandles, hlast, List.getD_append_right _ _ _ _ (Nat.le_refl _), Nat.sub_self]
    rfl
  refine ⟨?_, ?_⟩
  · show ref.handle < w.handles.length
    rw [hhandles, hlast, List.length_append]
    exact Nat.lt_succ_self _
  · rw [← hpath, ← hget]
    rfl

end World

namespace Value

variable {σ : Type} [FileStore σ] [FallibleStore σ] {db : Database} {needs : Prop} {owner : Owner}
  {v u : Value} {w w' : World σ}

/-- A new file is named for its owner and its object. -/
theorem Creates.calls (h : Creates db needs owner w (.ok u w')) : w'.Calls db.naming u := by
  cases h with
  | plain _ hfile => exact World.calls_inline hfile
  | made _ hfinds _ hcontent =>
    rw [← hfinds.looks.handles_eq] at hcontent
    exact World.calls_last hcontent rfl rfl rfl

/-- A file that was just made belongs to the owner that it was made for. -/
theorem Creates.owner_eq (h : Creates db needs owner w (.ok u w')) {ref : ValueFile}
    (hcontent : u.content = .file ref) : ref.owner = owner := by
  cases h with
  | plain _ hfile =>
    rw [Value.file?, hcontent] at hfile
    cases hfile
  | made _ _ _ hmade =>
    rw [hmade] at hcontent
    rw [← Content.file.inj hcontent]

/-- A file with a new owner is named for that owner. -/
theorem Relinks.calls (h : Relinks db needs v w (.ok u w')) (hv : w.Calls db.naming v) :
    w'.Calls db.naming u := by
  have hstay := h.stays
  cases h with
  | creates h => exact h.calls
  | shared => exact hv.later hstay
  | @moved ref owner s hcontent =>
    have hlength : (w.handles.modify ref.handle Handle.retire).length = w.handles.length :=
      List.length_modify _ _ _
    have hfile : (v.withFile { ref with owner, handle := w.handles.length }).content =
      .file { ref with owner, handle := w.handles.length } := rfl
    exact World.calls_last hfile rfl hlength.symm rfl

theorem Unlinks.calls (h : Unlinks db v w (.ok u w')) (hv : w.Calls db.naming v) :
    w'.Calls db.naming u := by
  cases h with
  | relinks h => exact h.calls hv
  | deleted _ _ _ _ h => exact h.calls hv

theorem Spills.calls (h : Spills db needs v w (.ok u w')) (hv : w.Calls db.naming v) :
    w'.Calls db.naming u := by
  cases h with
  | relinks h => exact h.calls hv
  | @moved u id table compressed old w₁ s s' _ hfinds _ _ hcontent =>
    -- The handle that the file had first comes before its last one.
    rw [← hfinds.looks.handles_eq] at hcontent
    have hhandles := List.append_cons w₁.handles old
      [.new (db.naming.path db.layout (.table table) id) (.table table)]
    have hlength : w₁.handles.length + 1 = (w₁.handles ++ [old]).length := by
      rw [List.length_append, List.length_singleton]
    exact World.calls_last hcontent hhandles hlength rfl

end Value

namespace Session

variable {σ : Type} [FileStore σ] [FallibleStore σ] {db : Database} {n : Naming} {s s' : Session σ}

def Titled (n : Naming) (s : Session σ) : Prop := ∀ h ∈ s.held, s.world.Calls n h.value

omit [FileStore σ] [FallibleStore σ] in
theorem Titled.later (hs : s.Titled n) {w' : World σ} {held' made' : List Held}
    (hstay : Handle.Stay s.world.handles w'.handles) (hheld : held' ⊆ s.held) :
    ({ world := w', held := held', made := made' } : Session σ).Titled n :=
  fun h hmem => (hs h (hheld hmem)).later hstay

omit [FileStore σ] [FallibleStore σ] in
theorem Titled.hold (hs : s.Titled n) {h : Held} {w' : World σ}
    (hstay : Handle.Stay s.world.handles w'.handles) (hcalls : w'.Calls n h.value) :
    (s.hold h w').Titled n := by
  intro h' hmem
  rcases List.mem_append.1 hmem with hold | hnew
  · exact (hs h' hold).later hstay
  · rw [List.mem_singleton.1 hnew]
    exact hcalls

omit [FileStore σ] [FallibleStore σ] in
/-- Right names are kept by whatever an operation ends in. -/
theorem Titled.settle (hs : s.Titled n) (origin : Bytes)
    {r : EStateM.Result ObjectError (World σ) Value} (hstay : Value.Stays s.world r)
    (hcalls : ∀ {v w'}, r = .ok v w' → w'.Calls n v) : (s.settle origin r).Titled n := by
  cases r with
  | ok v w' => exact hs.hold hstay (hcalls rfl)
  | error e w' => exact hs.later hstay fun _ h => h

/-- No operation calls a file by another name. -/
theorem Titled.ends {needs : Prop} (hs : s.Titled db.naming) (h : Ends db needs s s') :
    s'.Titled db.naming := by
  cases h with
  | inline hfile => exact hs.hold (Handle.Stay.refl _) (World.calls_inline hfile)
  | creates origin h =>
    refine hs.settle origin h.stays ?_
    rintro v w' rfl
    exact h.calls
  | relinks origin hmem h =>
    refine hs.settle origin h.stays ?_
    rintro v w' rfl
    exact h.calls (hs _ hmem)
  | unlinks origin hmem h =>
    refine hs.settle origin h.stays ?_
    rintro v w' rfl
    exact h.calls (hs _ hmem)
  | spills origin hmem h =>
    refine hs.settle origin h.stays ?_
    rintro v w' rfl
    exact h.calls (hs _ hmem)
  | keeps hheld hstay | deletes _ hheld hstay => exact hs.later hstay hheld

variable [Codec]

/-- No deed does. -/
theorem Titled.perform (hs : s.Titled db.naming) (d : Deed) : (s.perform db d).Titled db.naming := by
  have hstay := perform_stay db s d
  cases d with
  | work e => exact hs.ends (step_ends db s e)
  | attach kind table id precision compressed =>
    simp only [Session.perform, acquire_eq_settle] at hstay ⊢
    by_cases hid : id.word = 0
    · rw [Value.attach_zero db kind table precision compressed s.world hid]
      exact hs
    · rw [Value.attach_ok db kind table precision compressed s.world hid] at hstay ⊢
      exact hs.hold hstay (World.calls_last rfl rfl rfl rfl)
  | sweep table | purge => exact hs.later hstay fun _ h => h

end Session

end LargeObjects
