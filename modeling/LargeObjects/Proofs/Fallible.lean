import Mathlib
import LargeObjects.Store.Faulty
import LargeObjects.Proofs.MemoryLaws
import LargeObjects.Proofs.Steps

/-! Stores whose calls may fail. What such a store holds is what a reliable store beneath it holds. A
call that succeeds does what the same call does beneath, and a call that fails touches nothing but
the places that it was about. -/
namespace LargeObjects

open ReliableStore

inductive Request (σ : Type) [FileStore σ] where
  | create (path : Path)
  | write (writer : FileStore.Writer σ) (bytes : Bytes)
  | flush (writer : FileStore.Writer σ)
  | close (writer : FileStore.Writer σ)
  | openRead (path : Path)
  | read (reader : FileStore.Reader σ) (limit : Nat)
  | delete (path : Path)
  | rename (source target : Path)
  | copy (source target : Path)
  | list (dir : Path)

namespace Request

variable {σ : Type} [FileStore σ]

def run : Request σ → σ → σ
  | create path => Step.after (FileStore.create path)
  | write w bytes => Step.after (FileStore.write w bytes)
  | flush w => Step.after (FileStore.flush w)
  | close w => FileStore.close w
  | openRead path => Step.after (FileStore.openRead path)
  | read r limit => fun s => (Step.after (FileStore.read limit) (r, s)).2
  | delete path => Step.after (FileStore.delete path)
  | rename source target => Step.after (FileStore.rename source target)
  | copy source target => Step.after (FileStore.copy source target)
  | list dir => Step.after (FileStore.list dir)

/-- The places that a call is about; `target` tells on which file a writer is open. Reading and
listing are about none. -/
def places (target : FileStore.Writer σ → List Component) : Request σ → List (List Component)
  | create path => [path.components]
  | write w _ => [target w]
  | flush w => [target w]
  | close w => [target w]
  | delete path => [path.components]
  | rename source goal => [source.components, goal.components]
  | copy _ goal => [goal.components]
  | openRead _ | read _ _ | list _ => []

end Request

/-- A store over a reliable one, its base. Faults may be put in front of any call, but the calls that get
through are those of a store that knows its files by their paths. A file system is not of this kind. -/
class FallibleStore (σ : Type) [FileStore σ] where
  Base : Type
  [fileStore : FileStore Base]
  [reliable : ReliableStore Base]
  below : σ → Base
  reader : FileStore.Reader σ → FileStore.Reader Base
  writer : FileStore.Writer σ → FileStore.Writer Base
  /-- The place that a writer was opened for. -/
  target : FileStore.Writer σ → List Component
  create_ok {path : Path} {w : FileStore.Writer σ} {s s' : σ} :
    FileStore.create path s = .ok w s' →
      FileStore.create path (below s) = .ok (writer w) (below s') ∧ target w = path.components
  write_ok {w : FileStore.Writer σ} {bytes : Bytes} {s s' : σ} :
    FileStore.write w bytes s = .ok () s' →
      FileStore.write (writer w) bytes (below s) = .ok () (below s')
  flush_ok {w : FileStore.Writer σ} {s s' : σ} :
    FileStore.flush w s = .ok () s' → FileStore.flush (writer w) (below s) = .ok () (below s')
  close_eq (w : FileStore.Writer σ) (s : σ) :
    below (FileStore.close w s) = FileStore.close (writer w) (below s)
  openRead_ok {path : Path} {r : FileStore.Reader σ} {s s' : σ} :
    FileStore.openRead path s = .ok r s' →
      FileStore.openRead path (below s) = .ok (reader r) (below s') ∧
        (fileAt? (below s) path.components).isSome
  read_ok {limit : Nat} {r r' : FileStore.Reader σ} {s s' : σ} {bytes : Bytes} :
    FileStore.read limit (r, s) = .ok bytes (r', s') →
      FileStore.read limit (reader r, below s) = .ok bytes (reader r', below s')
  unread_eq (r : FileStore.Reader σ) (s : σ) :
    FileStore.unread r s = FileStore.unread (reader r) (below s)
  delete_ok {path : Path} {s s' : σ} {found : Bool} : FileStore.delete path s = .ok found s' →
    FileStore.delete path (below s) = .ok found (below s')
  rename_ok {source goal : Path} {s s' : σ} : FileStore.rename source goal s = .ok () s' →
    FileStore.rename source goal (below s) = .ok () (below s')
  copy_ok {source goal : Path} {s s' : σ} {count : Nat} :
    FileStore.copy source goal s = .ok count s' →
      FileStore.copy source goal (below s) = .ok count (below s')
  list_ok {dir : Path} {s s' : σ} {entries : List Path} : FileStore.list dir s = .ok entries s' →
    FileStore.list dir (below s) = .ok entries (below s')
  isFile_eq (path : Path) (s : σ) : FileStore.isFile path s = FileStore.isFile path (below s)
  looks (r : Request σ) (s : σ) : r.places target = [] → below (r.run s) = below s
  elsewhere (r : Request σ) (s : σ) {q : List Component} :
    q ∉ r.places target → fileAt? (below (r.run s)) q = fileAt? (below s) q
  /-- Removing a file removes it or does nothing. -/
  delete_files (path : Path) (s : σ) :
    fileAt? (below (Step.after (FileStore.delete path) s)) path.components = none ∨
      fileAt? (below (Step.after (FileStore.delete path) s)) path.components =
        fileAt? (below s) path.components
  /-- Renaming a file that is there moves it or does nothing; else there is nothing to do. -/
  rename_files (source goal : Path) (s : σ) :
    (∀ q, fileAt? (below (Step.after (FileStore.rename source goal) s)) q = fileAt? (below s) q) ∨
      (fileAt? (below s) source.components).isSome ∧ FileStore.rename source goal (below s) =
        .ok () (below (Step.after (FileStore.rename source goal) s))

attribute [reducible, instance] FallibleStore.fileStore FallibleStore.reliable

namespace MemoryStore

/-- Without a file nothing happens. -/
theorem after_withFile {α : Type} (path : Path) (act : Bytes → MemoryStore → α × MemoryStore)
    (s : MemoryStore) : Step.after (withFile path act) s =
      (s.at? path.components).elim s fun content => (act content s).2 := by
  unfold Step.after withFile
  rw [get?_eq_at?]
  cases s.at? path.components <;> rfl

theorem isSome_of_withFile {α : Type} {path : Path} {act : Bytes → MemoryStore → α × MemoryStore}
    {s s' : MemoryStore} {a : α} (h : withFile path act s = .ok a s') :
    (s.at? path.components).isSome := by
  unfold withFile at h
  rw [get?_eq_at?] at h
  cases hat : s.at? path.components with
  | none =>
    rw [hat] at h
    cases h
  | some content => rfl

theorem at?_put_ne (s : MemoryStore) {path : Path} (content : Bytes) {q : List Component}
    (h : q ∉ [path.components]) : (s.put path content).at? q = s.at? q := by
  rw [at?_put, if_neg fun heq => h (List.mem_singleton.2 heq.symm)]

end MemoryStore

open MemoryStore in
/-- A store held in memory is its own base. -/
instance : FallibleStore MemoryStore where
  Base := MemoryStore
  below s := s
  reader r := r
  writer w := w
  target w := w.components
  create_ok := by
    rintro path w s s' ⟨⟩
    exact ⟨rfl, rfl⟩
  write_ok h := h
  flush_ok h := h
  close_eq _ _ := rfl
  openRead_ok h := ⟨h, isSome_of_withFile h⟩
  read_ok h := h
  unread_eq _ _ := rfl
  delete_ok h := h
  rename_ok h := h
  copy_ok h := h
  list_ok h := h
  isFile_eq _ _ := rfl
  looks r s h := by
    cases r with
    | openRead path =>
      refine (after_withFile _ _ _).trans ?_
      cases s.at? path.components <;> rfl
    | read | list => rfl
    | create | write | flush | close | delete | rename | copy => cases h
  elsewhere r s q h := by
    cases r with
    | create path => exact at?_put_ne s _ h
    | write w bytes =>
      simp only [Request.run, Step.after, FileStore.write, get?_eq_at?]
      cases s.at? w.components with
      | none => rfl
      | some content => exact at?_put_ne s _ h
    | delete path =>
      refine (at?_erase s path q).trans (if_neg fun heq => h ?_)
      exact List.mem_singleton.2 heq.symm
    | rename source goal =>
      have hsource : q ≠ source.components := fun heq => h (heq ▸ List.mem_cons_self)
      have hgoal : q ∉ [goal.components] := fun hmem => h (List.mem_cons_of_mem _ hmem)
      simp only [Request.run, FileStore.rename, after_withFile]
      cases s.at? source.components with
      | none => rfl
      | some content =>
        refine (at?_put_ne _ _ hgoal).trans ((at?_erase _ _ _).trans (if_neg ?_))
        exact Ne.symm hsource
    | copy source goal =>
      simp only [Request.run, FileStore.copy, after_withFile]
      cases s.at? source.components with
      | none => rfl
      | some content => exact at?_put_ne s _ h
    | openRead path =>
      simp only [Request.run, FileStore.openRead, after_withFile]
      cases s.at? path.components <;> rfl
    | flush | close | read | list => rfl
  delete_files path s := Or.inl ((at?_erase s path _).trans (if_pos rfl))
  rename_files source goal s := by
    simp only [FileStore.rename, after_withFile]
    cases hat : s.at? source.components with
    | none => exact Or.inl fun _ => rfl
    | some content =>
      refine Or.inr ⟨Option.isSome_iff_exists.2 ⟨content, hat⟩, ?_⟩
      exact withFile_eq hat

namespace Faulty

variable {σ α : Type}

/-- A call by path that succeeds is one that passes. -/
theorem guarded_ok {operation : Operation} {path : Path} {act : Step StoreError σ α} {a : α}
    {s s' : Faulty σ} (h : guarded operation path act s = .ok a s') :
    act s.store = .ok a s'.store := by
  unfold guarded judge at h
  -- The call passes, or fails without being made, or is made and then said to fail.
  rcases hjudge : Fault.judge operation path s.faults with ⟨_ | _ | _, faults⟩
  · simp only [hjudge, pass] at h
    split at h
    next hact => cases h; exact hact
    next => cases h
  · simp only [hjudge] at h
    cases h
  · simp only [hjudge, pass] at h
    cases hact : act s.store <;> simp only [hact] at h <;> cases h

theorem guardedOpen_ok {operation : Operation} {path : Path} {act : Step StreamError σ α} {a : α}
    {s s' : Faulty σ} (h : guardedOpen operation path act s = .ok a s') :
    act s.store = .ok a s'.store := by
  unfold guardedOpen judge at h
  rcases hjudge : Fault.judge operation path s.faults with ⟨_ | _ | _, faults⟩
  · simp only [hjudge] at h
    split at h
    next hact => cases h; exact hact
    next => cases h
  · simp only [hjudge] at h
    cases h
  · simp only [hjudge] at h
    cases h

/-- Whatever is decided, the call beneath is made or it is not. -/
theorem after_guarded (operation : Operation) (path : Path) (act : Step StoreError σ α)
    (s : Faulty σ) : (Step.after (guarded operation path act) s).store = s.store ∨
      (Step.after (guarded operation path act) s).store = Step.after act s.store := by
  unfold Step.after guarded judge
  rcases Fault.judge operation path s.faults with ⟨_ | _ | _, faults⟩
  · right
    simp only [pass]
    cases act s.store <;> rfl
  · exact Or.inl rfl
  · right
    simp only [pass]
    cases act s.store <;> rfl

theorem after_guardedOpen (operation : Operation) (path : Path) (act : Step StreamError σ α)
    (s : Faulty σ) : (Step.after (guardedOpen operation path act) s).store = s.store ∨
      (Step.after (guardedOpen operation path act) s).store = Step.after act s.store := by
  unfold Step.after guardedOpen judge
  rcases Fault.judge operation path s.faults with ⟨_ | _ | _, faults⟩
  · right
    dsimp only
    cases act s.store <;> rfl
  · exact Or.inl rfl
  · exact Or.inl rfl

/-- What is answered with the path of the call is not changed by that. -/
theorem after_pair (path : Path) (act : Step StoreError σ α) (s : σ) :
    Step.after (do return (path, ← act)) s = Step.after act s := by
  unfold Step.after
  simp only [bind, EStateM.bind]
  cases act s <;> rfl

theorem pair_ok {path path' : Path} {act : Step StoreError σ α} {a : α} {s s' : σ}
    (h : (do return (path, ← act) : Step StoreError σ (Path × α)) s = .ok (path', a) s') :
    act s = .ok a s' := by
  obtain ⟨b, s₁, hact, hpure⟩ := Step.bind_eq_ok h
  cases hpure
  exact hact

variable [FileStore σ]

def inner : Request (Faulty σ) → Request σ
  | .create path => .create path
  | .write w bytes => .write w.2 bytes
  | .flush w => .flush w.2
  | .close w => .close w.2
  | .openRead path => .openRead path
  | .read r limit => .read r.2 limit
  | .delete path => .delete path
  | .rename source goal => .rename source goal
  | .copy source goal => .copy source goal
  | .list dir => .list dir

theorem run_store (r : Request (Faulty σ)) (s : Faulty σ) :
    (r.run s).store = s.store ∨ (r.run s).store = (inner r).run s.store := by
  cases r with
  | create path =>
    have h := after_guarded .create path (do return (path, ← FileStore.create path)) s
    rwa [after_pair] at h
  | openRead path =>
    have h := after_guarded .openRead path (do return (path, ← FileStore.openRead path)) s
    rwa [after_pair] at h
  | write w bytes => exact after_guardedOpen .write w.1 (FileStore.write w.2 bytes) s
  | flush w => exact after_guardedOpen .flush w.1 (FileStore.flush (σ := σ) w.2) s
  | close w => exact Or.inr rfl
  | delete path => exact after_guarded .delete path (FileStore.delete path) s
  | rename source goal => exact after_guarded .rename source (FileStore.rename source goal) s
  | copy source goal => exact after_guarded .copy source (FileStore.copy source goal) s
  | list dir => exact after_guarded .list dir (FileStore.list dir) s
  | read r limit =>
    obtain ⟨path, r⟩ := r
    simp only [Request.run, inner, Step.after, FileStore.read, judge]
    rcases Fault.judge .read path s.faults with ⟨_ | _ | _, faults⟩
    · right
      dsimp only
      cases FileStore.read limit (r, s.store) <;> rfl
    · exact Or.inl rfl
    · exact Or.inl rfl

variable [FallibleStore σ]

open FallibleStore in
theorem places_inner (r : Request (Faulty σ)) : (inner r).places target =
    r.places fun w : Path × FileStore.Writer σ => target w.2 := by
  cases r <;> rfl

open FallibleStore in
/-- With faults, a store keeps its base. -/
instance : FallibleStore (Faulty σ) where
  Base := Base σ
  below s := below s.store
  reader r := reader r.2
  writer w := writer w.2
  target w := target w.2
  create_ok h := create_ok (pair_ok (guarded_ok h))
  write_ok h := write_ok (guardedOpen_ok h)
  flush_ok h := flush_ok (guardedOpen_ok h)
  close_eq w s := close_eq w.2 s.store
  openRead_ok h := openRead_ok (pair_ok (guarded_ok h))
  read_ok := by
    rintro limit ⟨path, r⟩ ⟨path', r'⟩ s s' bytes h
    simp only [FileStore.read, judge] at h
    rcases hjudge : Fault.judge .read path s.faults with ⟨_ | _ | _, faults⟩
    · simp only [hjudge] at h
      split at h
      next hread =>
        cases h
        exact read_ok hread
      next => cases h
    · simp only [hjudge] at h
      cases h
    · simp only [hjudge] at h
      cases h
  unread_eq r s := unread_eq r.2 s.store
  delete_ok h := delete_ok (guarded_ok h)
  rename_ok h := rename_ok (guarded_ok h)
  copy_ok h := copy_ok (guarded_ok h)
  list_ok h := list_ok (guarded_ok h)
  isFile_eq path s := isFile_eq path s.store
  looks r s h := by
    rcases run_store r s with hrun | hrun
    · rw [hrun]
    · rw [hrun]
      exact looks _ _ ((places_inner r).trans h)
  elsewhere r s q h := by
    rcases run_store r s with hrun | hrun
    · rw [hrun]
    · rw [hrun]
      exact elsewhere _ _ ((places_inner r).symm ▸ h)
  delete_files path s := by
    rcases after_guarded .delete path (FileStore.delete path) s with hrun | hrun
    · exact Or.inr (congrArg (fun t => fileAt? (below t) path.components) hrun)
    · have h := delete_files path s.store
      rwa [← hrun] at h
  rename_files source goal s := by
    rcases after_guarded .rename source (FileStore.rename source goal) s with hrun | hrun
    · exact Or.inl fun q => congrArg (fun t => fileAt? (below t) q) hrun
    · have h := rename_files source goal s.store
      rwa [← hrun] at h

end Faulty

end LargeObjects
