import Mathlib
import LargeObjects.World
import LargeObjects.Proofs.StoreLaws
import LargeObjects.Proofs.Steps

/-! Handles: new ones come at the end, and letting go of one may take its file along. -/
namespace LargeObjects

namespace Handle

def new (path : Path) (owner : Owner) : Handle := { path, armed := owner = .temp }

def takeHold (h : Handle) : Handle := { h with holders := h.holders + 1 }

def letGo (h : Handle) : Handle := { h with holders := h.holders - 1 }

def retire (h : Handle) : Handle := { h with retired := true }

def Discards (h : Handle) : Prop := h.letGo.holders = 0 ∧ h.letGo.isAutoDelete

theorem isAutoDelete_iff {h : Handle} : h.isAutoDelete ↔ h.armed = true ∧ h.retired = false := by
  unfold isAutoDelete
  rw [Bool.and_eq_true_iff, Bool.not_eq_true']

end Handle

namespace World

open ReliableStore

variable {σ : Type} {w : World σ} {id : HandleId}

def Knows (w : World σ) (id : HandleId) : Prop := id < w.handles.length

/-- A handle that is not retired was made at some time. -/
theorem knows_of_live (h : (w.handle id).retired = false) : w.Knows id := by
  by_contra hknown
  unfold handle at h
  rw [List.getD_eq_default _ _ (Nat.not_lt.1 hknown)] at h
  cases h

theorem Knows.of_append {w' : World σ} {more : List Handle} (hknown : w.Knows id)
    (h : w'.handles = w.handles ++ more) : w'.Knows id := by
  unfold Knows at hknown ⊢
  rw [h, List.length_append]
  exact Nat.lt_add_right _ hknown

theorem Knows.of_modify_append {w' : World σ} {k : HandleId} {f : Handle → Handle}
    {more : List Handle} (hknown : w.Knows id) (h : w'.handles = w.handles.modify k f ++ more) :
    w'.Knows id := by
  unfold Knows at hknown ⊢
  rw [h, List.length_append, List.length_modify]
  exact Nat.lt_add_right _ hknown

theorem handle_of_eq {w' : World σ} (h : w'.handles = w.handles) (id : HandleId) :
    w'.handle id = w.handle id := by
  unfold handle
  rw [h]

/-- New handles come at the end, so the others are found where they were. -/
theorem handle_append_old {w' : World σ} {more : List Handle} (h : w'.handles = w.handles ++ more)
    (hknown : w.Knows id) : w'.handle id = w.handle id := by
  unfold handle
  rw [h]
  exact List.getD_append _ _ _ _ hknown

theorem handle_append_new {w' : World σ} {new : Handle} (h : w'.handles = w.handles ++ [new]) :
    w'.handle w.handles.length = new := by
  unfold handle
  rw [h, List.getD_append_right _ _ _ _ (Nat.le_refl _), Nat.sub_self]
  rfl

/-- A change of one handle is seen of that one alone. -/
theorem handle_modify {w' : World σ} {f : Handle → Handle} (h : w'.handles = w.handles.modify id f)
    (hknown : w.Knows id) (k : HandleId) :
    w'.handle k = if k = id then f (w.handle k) else w.handle k := by
  unfold handle
  simp only [h, List.getD_eq_getElem?_getD, List.getElem?_modify]
  by_cases hk : id = k
  · subst hk
    rw [if_pos rfl, List.getElem?_eq_getElem hknown]
    simp
  · rw [if_neg (Ne.symm hk)]
    simp [hk]

theorem handle_modify_append {w' : World σ} {f : Handle → Handle} {more : List Handle}
    (h : w'.handles = w.handles.modify id f ++ more) (hknown : w.Knows id) {k : HandleId}
    (hk : w.Knows k) : w'.handle k = if k = id then f (w.handle k) else w.handle k := by
  let between : World σ := { w with handles := w.handles.modify id f }
  have hbetween : between.Knows k := by
    unfold Knows
    rw [List.length_modify]
    exact hk
  have hmodify : between.handle k = if k = id then f (w.handle k) else w.handle k :=
    handle_modify rfl hknown k
  rw [handle_append_old (w := between) h hbetween, hmodify]

theorem handle_modify_append_new {w' : World σ} {f : Handle → Handle} {new : Handle}
    (h : w'.handles = w.handles.modify id f ++ [new]) : w'.handle w.handles.length = new := by
  have hlength : (w.handles.modify id f).length = w.handles.length := List.length_modify _ _ _
  let between : World σ := { w with handles := w.handles.modify id f }
  have happend := handle_append_new (w := between) h
  rwa [hlength] at happend

theorem modify_append_cons (handles : List Handle) (h : Handle) (rest : List Handle)
    (f : Handle → Handle) :
    (handles ++ h :: rest).modify handles.length f = handles ++ f h :: rest := by
  induction handles with
  | nil => rfl
  | cons first others ih =>
    rw [List.cons_append, List.length_cons, List.modify_succ_cons, ih, List.cons_append]

theorem modify_append_new (handles : List Handle) (h : Handle) (f : Handle → Handle) :
    (handles ++ [h]).modify handles.length f = handles ++ [f h] :=
  modify_append_cons handles h [] f

variable [FileStore σ]

/-- One holder fewer, and with the last one goes the file of an armed handle that has it still. -/
theorem release_eq (hknown : w.Knows id) :
    release id w =
      (if (w.handle id).letGo.holders = 0 ∧ (w.handle id).letGo.isAutoDelete then
        discard (w.handle id).path
      else pure ()) { w with handles := w.handles.modify id Handle.letGo } := by
  have hafter : ({ w with handles := w.handles.modify id Handle.letGo }).handle id =
      (w.handle id).letGo := by
    rw [handle_modify rfl hknown, if_pos rfl]
  have hpath : (w.handle id).path = (w.handle id).letGo.path := rfl
  rw [hpath, ← hafter]
  rfl

/-- Letting go of a handle that others hold, or that is not armed, or that has lost its file,
touches no file. -/
theorem release_keeps (hknown : w.Knows id)
    (h : ¬(w.handle id).Discards) :
    release id w = .ok () { w with handles := w.handles.modify id Handle.letGo } := by
  unfold Handle.Discards at h
  rw [release_eq hknown, if_neg h]
  rfl

/-- The last holder of an armed handle takes the file along. -/
theorem release_discards [ReliableStore σ] (hknown : w.Knows id)
    (h : (w.handle id).Discards) :
    ∃ s', release id w =
        .ok () { w with store := s', handles := w.handles.modify id Handle.letGo } ∧
      fileAt? s' (w.handle id).path.components = none ∧
      ∀ q ≠ (w.handle id).path.components, fileAt? s' q = fileAt? w.store q := by
  obtain ⟨s', hdelete, hgone, hfile⟩ := delete_ok (w.handle id).path w.store
  refine ⟨s', ?_, hgone, hfile⟩
  unfold Handle.Discards at h
  rw [release_eq hknown, if_pos h]
  simp only [discard, hdelete]

/-- The only holder of a new armed handle takes the file along. -/
theorem release_new [ReliableStore σ] (w : World σ) (s : σ) (path : Path) :
    ∃ s', release w.handles.length
        { w with store := s, handles := w.handles ++ [{ path, armed := true }] } =
        .ok () { w with
          store := s', handles := w.handles ++ [{ path, armed := true, holders := 0 }] } ∧
      fileAt? s' path.components = none ∧
      ∀ q ≠ path.components, fileAt? s' q = fileAt? s q := by
  let fresh : Handle := { path, armed := true }
  have hnew : ({ w with store := s, handles := w.handles ++ [fresh] }).handle w.handles.length =
      fresh := handle_append_new rfl
  have hknown : ({ w with store := s, handles := w.handles ++ [fresh] }).Knows
      w.handles.length := by
    unfold Knows
    rw [List.length_append, List.length_singleton]
    exact Nat.lt_succ_self _
  obtain ⟨s', hrun, hgone, helse⟩ := release_discards hknown (by rw [hnew]; exact ⟨rfl, rfl⟩)
  rw [hnew] at hgone helse
  refine ⟨s', ?_, hgone, helse⟩
  rw [hrun, modify_append_new]
  rfl

end World

end LargeObjects
