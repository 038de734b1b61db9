import Mathlib
import LargeObjects.Store.Memory
import LargeObjects.Proofs.Steps

/-! What callers may rely on in a file store, said of the files and not of how a store keeps them.
A steady store changes no file where a call fails. A reliable store has no failures of its own. A
quiet store stays as it is where a call only looks. -/
namespace LargeObjects

/-- A store whose failing calls leave every file as it was and whose deletions take away one file
at most. `Place` is whatever tells the files of the store apart. -/
class SteadyStore (σ : Type) [FileStore σ] where
  Place : Type
  /-- The place that a path leads to, if it leads anywhere. -/
  place? : Path → σ → Option Place
  /-- The content of the file at a place. -/
  content? : σ → Place → Option Bytes
  delete_found {path : Path} {s s' : σ} {found : Bool} :
    FileStore.delete path s = .ok found s' →
      (found = true ↔ ∃ p, place? path s = some p ∧ (content? s p).isSome)
  delete_at {path : Path} {s s' : σ} {found : Bool} {p : Place} :
    FileStore.delete path s = .ok found s' → place? path s = some p → content? s' p = none
  delete_elsewhere {path : Path} {s s' : σ} {found : Bool} {p : Place} :
    FileStore.delete path s = .ok found s' → place? path s ≠ some p →
      content? s' p = content? s p
  delete_error {path : Path} {s s' : σ} {e : StoreError} :
    FileStore.delete path s = .error e s' → content? s' = content? s
  rename_error {source target : Path} {s s' : σ} {e : StoreError} :
    FileStore.rename source target s = .error e s' → content? s' = content? s

/-- A store without failures of its own: a call by path succeeds whenever there is a file for it to
work on. Files are known by the components of their paths. A writer that is open on a file has been
given certain bytes, which the file is sure to hold once the writer is closed; a reader that is open
on a file has certain bytes still to give. The laws are for every path in every state. So a store in
memory is such a store, and a file system is not: it refuses to make a file where a directory is or
under a file, and two paths of different components can lead to one file there. -/
class ReliableStore (σ : Type) [FileStore σ] where
  fileAt? : σ → List Component → Option Bytes
  Writing : FileStore.Writer σ → List Component → Bytes → σ → Prop
  Reading : FileStore.Reader σ → List Component → Bytes → σ → Prop
  create_ok (path : Path) (s : σ) : ∃ w s', FileStore.create path s = .ok w s' ∧
    Writing w path.components [] s' ∧ (∀ q ≠ path.components, fileAt? s' q = fileAt? s q) ∧
    ∀ r q rest, q ≠ path.components → Reading r q rest s → Reading r q rest s'
  write_ok {w : FileStore.Writer σ} {p : List Component} {given : Bytes} {s : σ} (more : Bytes) :
    Writing w p given s → ∃ s', FileStore.write w more s = .ok () s' ∧
      Writing w p (given ++ more) s' ∧ (∀ q ≠ p, fileAt? s' q = fileAt? s q) ∧
      ∀ r q rest, q ≠ p → Reading r q rest s → Reading r q rest s'
  flush_ok {w : FileStore.Writer σ} {p : List Component} {given : Bytes} {s : σ} :
    Writing w p given s → ∃ s', FileStore.flush w s = .ok () s' ∧
      Writing w p given s' ∧ (∀ q ≠ p, fileAt? s' q = fileAt? s q) ∧
      ∀ r q rest, q ≠ p → Reading r q rest s → Reading r q rest s'
  close_ok {w : FileStore.Writer σ} {p : List Component} {given : Bytes} {s : σ} :
    Writing w p given s → fileAt? (FileStore.close w s) p = some given ∧
      ∀ q ≠ p, fileAt? (FileStore.close w s) q = fileAt? s q
  openRead_ok {path : Path} {s : σ} {content : Bytes} : fileAt? s path.components = some content →
    ∃ r, FileStore.openRead path s = .ok r s ∧ Reading r path.components content s
  read_ok {r : FileStore.Reader σ} {p : List Component} {rest : Bytes} {s : σ} {limit : Nat} :
    Reading r p rest s → 0 < limit → ∃ piece more r', FileStore.read limit (r, s) = .ok piece (r', s) ∧
      rest = piece ++ more ∧ piece.length ≤ limit ∧ (piece = [] → rest = []) ∧ Reading r' p more s
  unread_ge {r : FileStore.Reader σ} {p : List Component} {rest : Bytes} {s : σ} :
    Reading r p rest s → rest.length ≤ FileStore.unread r s
  delete_ok (path : Path) (s : σ) :
    ∃ s', FileStore.delete path s = .ok (fileAt? s path.components).isSome s' ∧
      fileAt? s' path.components = none ∧ ∀ q ≠ path.components, fileAt? s' q = fileAt? s q
  rename_ok {source : Path} (target : Path) {s : σ} {content : Bytes} :
    fileAt? s source.components = some content → ∃ s', FileStore.rename source target s = .ok () s' ∧
      fileAt? s' target.components = some content ∧
      (source.components ≠ target.components → fileAt? s' source.components = none) ∧
      ∀ q, q ≠ source.components → q ≠ target.components → fileAt? s' q = fileAt? s q
  copy_ok {source : Path} (target : Path) {s : σ} {content : Bytes} :
    fileAt? s source.components = some content → ∃ n s', FileStore.copy source target s = .ok n s' ∧
      fileAt? s' target.components = some content ∧
      ∀ q ≠ target.components, fileAt? s' q = fileAt? s q
  list_ok (dir : Path) (s : σ) : ∃ entries, FileStore.list dir s = .ok entries s ∧
    ∀ name, (fileAt? s (dir.components ++ [.name name])).isSome →
      ∃ e ∈ entries, e.fileName? = some name
  isFile_eq (path : Path) (s : σ) : FileStore.isFile path s = (fileAt? s path.components).isSome

/-- A store that looking at leaves as it is. -/
class QuietStore (σ : Type) [FileStore σ] : Prop where
  openRead_keeps (path : Path) (s : σ) : Step.after (FileStore.openRead path) s = s
  read_keeps (limit : Nat) (t : FileStore.Reader σ × σ) :
    (Step.after (FileStore.read limit) t).2 = t.2
  list_keeps (dir : Path) (s : σ) : Step.after (FileStore.list dir) s = s

end LargeObjects
