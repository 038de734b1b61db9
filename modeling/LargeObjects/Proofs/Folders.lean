import Mathlib
import LargeObjects.Proofs.LocalStores

/-! The files right below a directory, known by their names. A call that is about some of the names
leaves the files with other names and all directories as they are, in memory as on a file system, even
where the directory itself is made by the call. -/
namespace LargeObjects

open Step LocalStore

def Path.Enters (p dir : Path) (t : Name) : Prop := p.components = dir.components ++ [.name t]

/-- A path to a file right in a directory is none to a file further below. -/
theorem Path.Enters.ne_below {p dir : Path} {t : Name} (hp : p.Enters dir t) (u : Name) (c : Component)
    (rest : List Component) : p.components ≠ dir.components ++ .name u :: c :: rest := by
  rw [show p.components = _ from hp, Ne, List.append_cancel_left_eq]
  rintro ⟨⟩

inductive Request.Within {σ : Type} [FileStore σ] (writes : FileStore.Writer σ → Name → Prop)
    (dir : Path) : Request σ → List Name → Prop
  | create {p : Path} {t : Name} : p.Enters dir t → Within writes dir (.create p) [t]
  | write {w : FileStore.Writer σ} {t : Name} (bytes : Bytes) :
    writes w t → Within writes dir (.write w bytes) [t]
  | flush {w : FileStore.Writer σ} {t : Name} : writes w t → Within writes dir (.flush w) [t]
  | close {w : FileStore.Writer σ} {t : Name} : writes w t → Within writes dir (.close w) [t]
  | delete {p : Path} {t : Name} : p.Enters dir t → Within writes dir (.delete p) [t]
  | rename {p q : Path} {t u : Name} :
    p.Enters dir t → q.Enters dir u → Within writes dir (.rename p q) [t, u]
  | copy (p : Path) {q : Path} {u : Name} : q.Enters dir u → Within writes dir (.copy p q) [u]

/-- A store with directories whose files are known by their names. -/
class FolderStore (σ : Type) [FileStore σ] [LocalStore σ] where
  /-- The directory is there, or there is one from which it would be reached by names alone. -/
  Settled : Path → σ → Prop
  /-- The content of the file that has a name in a directory. -/
  fileIn? : Path → σ → Name → Option Bytes
  /-- There is a directory that has a name in a directory. -/
  FolderIn : Path → σ → Name → Prop
  /-- A writer is open on the file that has a name in a directory. -/
  Writes : FileStore.Writer σ → Path → Name → σ → Prop
  run_keeps {dir : Path} {r : Request σ} {names : List Name} {s : σ} :
    Sane s → Settled dir s → r.Within (fun w t => Writes w dir t s) dir names →
    Sane (r.run s) ∧ Settled dir (r.run s) ∧ (∀ t, FolderIn dir (r.run s) t ↔ FolderIn dir s t) ∧
      ∀ t ∉ names, fileIn? dir (r.run s) t = fileIn? dir s t
  create_writes {dir p : Path} {t : Name} {w : FileStore.Writer σ} {s s' : σ} : Sane s →
    Settled dir s → p.Enters dir t → FileStore.create p s = .ok w s' → Writes w dir t s'
  write_writes {dir : Path} {t : Name} {w : FileStore.Writer σ} {s : σ} (bytes : Bytes) :
    Writes w dir t s → Writes w dir t (after (FileStore.write w bytes) s)
  flush_writes {dir : Path} {t : Name} {w : FileStore.Writer σ} {s : σ} :
    Writes w dir t s → Writes w dir t (after (FileStore.flush w) s)
  /-- Deleting makes no file. -/
  delete_less {dir p : Path} {t : Name} {s : σ} : Sane s → Settled dir s → p.Enters dir t →
    fileIn? dir (after (FileStore.delete p) s) t = none ∨
      fileIn? dir (after (FileStore.delete p) s) t = fileIn? dir s t
  rename_ok {dir p q : Path} {t u : Name} {s s' : σ} : Sane s → Settled dir s → p.Enters dir t →
    q.Enters dir u → t ≠ u → FileStore.rename p q s = .ok () s' → fileIn? dir s' t = none
  rename_error {dir p q : Path} {t u : Name} {s s' : σ} {e : StoreError} : Sane s → Settled dir s →
    p.Enters dir t → q.Enters dir u → FileStore.rename p q s = .error e s' →
    fileIn? dir s' = fileIn? dir s
  isSome_of_isFile {dir p : Path} {t : Name} {s : σ} : p.Enters dir t →
    FileStore.isFile p s = true → (fileIn? dir s t).isSome
  folderIn_of_isDirectory {dir p : Path} {t : Name} {s : σ} : p.Enters dir t →
    FileStore.isDirectory p s = true → FolderIn dir s t
  listed {dir : Path} {s s' : σ} {entries : List Path} {t : Name} : Sane s → dir.spelling ≠ [] →
    FileStore.list dir s = .ok entries s' → (fileIn? dir s t).isSome ∨ FolderIn dir s t →
    ∃ e ∈ entries, e.fileName? = some t

namespace MemoryStore

variable {dir p q : Path} {t u : Name} {names : List Name} {s s' s'' : MemoryStore}

def fileIn? (dir : Path) (s : MemoryStore) (t : Name) : Option Bytes :=
  s.at? (dir.components ++ [.name t])

theorem fileIn?_put (hp : p.Enters dir t) (content : Bytes) (u : Name) :
    (s.put p content).fileIn? dir u = if t = u then some content else s.fileIn? dir u := by
  unfold fileIn?
  simp only [at?_put, show p.components = _ from hp, List.append_cancel_left_eq, List.cons.injEq,
    Component.name.injEq, and_true]

theorem fileIn?_erase (hp : p.Enters dir t) (u : Name) :
    (s.erase p).fileIn? dir u = if t = u then none else s.fileIn? dir u := by
  unfold fileIn?
  simp only [at?_erase, show p.components = _ from hp, List.append_cancel_left_eq, List.cons.injEq,
    Component.name.injEq, and_true]

def FolderIn (dir : Path) (s : MemoryStore) (t : Name) : Prop :=
  ∃ c rest, (s.at? (dir.components ++ .name t :: c :: rest)).isSome

/-- A file that is made right in a directory makes no directory of it. -/
theorem folderIn_put (hp : p.Enters dir t) (content : Bytes) (u : Name) :
    (s.put p content).FolderIn dir u ↔ s.FolderIn dir u := by
  unfold FolderIn
  simp only [at?_put, if_neg (hp.ne_below u _ _)]

theorem folderIn_erase (hp : p.Enters dir t) (u : Name) :
    (s.erase p).FolderIn dir u ↔ s.FolderIn dir u := by
  unfold FolderIn
  simp only [at?_erase, if_neg (hp.ne_below u _ _)]

/-- Renaming moves a file that is there, or fails and changes nothing. -/
theorem rename_cases (p q : Path) (s : MemoryStore) :
    (∃ content, FileStore.rename p q s = .ok () ((s.erase p).put q content)) ∨
      FileStore.rename p q s = .error (.notFound p) s := by
  show (∃ content, withFile p _ s = _) ∨ withFile p _ s = _
  unfold withFile
  cases s.get? p with
  | none => exact Or.inr rfl
  | some content => exact Or.inl ⟨content, rfl⟩

theorem copy_cases (p q : Path) (s : MemoryStore) :
    (∃ content, FileStore.copy p q s = .ok content.length (s.put q content)) ∨
      FileStore.copy p q s = .error (.notFound p) s := by
  show (∃ content : Bytes, withFile p _ s = _) ∨ withFile p _ s = _
  unfold withFile
  cases s.get? p with
  | none => exact Or.inr rfl
  | some content => exact Or.inl ⟨content, rfl⟩

structure Alters (dir : Path) (names : List Name) (s s' : MemoryStore) : Prop where
  folderIn_iff : ∀ t, s'.FolderIn dir t ↔ s.FolderIn dir t
  fileIn?_eq : ∀ t ∉ names, s'.fileIn? dir t = s.fileIn? dir t

theorem Alters.refl (dir : Path) (names : List Name) (s : MemoryStore) : Alters dir names s s :=
  ⟨fun _ => Iff.rfl, fun _ _ => rfl⟩

/-- What two calls may change is what either may. -/
theorem Alters.trans (h : Alters dir names s s') (h' : Alters dir names s' s'') :
    Alters dir names s s'' :=
  ⟨fun t => (h'.folderIn_iff t).trans (h.folderIn_iff t),
    fun t ht => (h'.fileIn?_eq t ht).trans (h.fileIn?_eq t ht)⟩

theorem alters_put (hp : p.Enters dir t) (ht : t ∈ names) (content : Bytes) :
    Alters dir names s (s.put p content) := by
  refine ⟨folderIn_put hp content, fun u hu => (fileIn?_put hp content u).trans (if_neg ?_)⟩
  rintro rfl
  exact hu ht

theorem alters_erase (hp : p.Enters dir t) (ht : t ∈ names) : Alters dir names s (s.erase p) := by
  refine ⟨folderIn_erase hp, fun u hu => (fileIn?_erase hp u).trans (if_neg ?_)⟩
  rintro rfl
  exact hu ht

/-- Every call puts files, erases them or does nothing. -/
theorem alters_run {r : Request MemoryStore} (hr : r.Within (fun (w : Path) t => w.Enters dir t) dir names) :
    Alters dir names s (r.run s) := by
  cases hr with
  | create hp => exact alters_put hp List.mem_cons_self []
  | @write w u bytes hw =>
    show Alters dir _ s (after (FileStore.write w bytes) s)
    simp only [after, FileStore.write]
    cases s.get? w with
    | none => exact .refl _ _ _
    | some content => exact alters_put hw List.mem_cons_self (content ++ bytes)
  | flush | close => exact .refl _ _ _
  | delete hp => exact alters_erase hp List.mem_cons_self
  | @rename p q u v hp hq =>
    show Alters dir _ s (after (FileStore.rename p q) s)
    rcases rename_cases p q s with ⟨content, hrun⟩ | hrun
    · rw [after_ok hrun]
      exact (alters_erase hp List.mem_cons_self).trans
        (alters_put hq (List.mem_cons_of_mem _ List.mem_cons_self) content)
    · rw [after_error hrun]
      exact .refl _ _ _
  | @copy p q u hq =>
    show Alters dir _ s (after (FileStore.copy p q) s)
    rcases copy_cases p q s with ⟨content, hrun⟩ | hrun
    · rw [after_ok hrun]
      exact alters_put hq List.mem_cons_self content
    · rw [after_error hrun]
      exact .refl _ _ _

end MemoryStore

open MemoryStore in
instance : FolderStore MemoryStore where
  Settled _ _ := True
  fileIn? dir s := s.fileIn? dir
  FolderIn dir s := s.FolderIn dir
  Writes w dir t _ := w.Enters dir t
  run_keeps _ _ hr := ⟨trivial, trivial, (alters_run hr).folderIn_iff, (alters_run hr).fileIn?_eq⟩
  create_writes := by
    rintro dir p t _ s _ - - hp ⟨⟩
    exact hp
  write_writes _ h := h
  flush_writes h := h
  delete_less := by
    rintro dir p t s - - hp
    exact Or.inl ((fileIn?_erase hp t).trans (if_pos rfl))
  rename_ok := by
    intro dir p q t u s s' _ _ hp hq hne hrun
    rcases rename_cases p q s with ⟨content, hrun'⟩ | hrun'
    · cases hrun'.symm.trans hrun
      rw [fileIn?_put hq, if_neg hne.symm, fileIn?_erase hp, if_pos rfl]
    · cases hrun'.symm.trans hrun
  rename_error := by
    intro dir p q t u s s' e _ _ _ _ hrun
    rw [withFile_error hrun]
  isSome_of_isFile := by
    intro dir p t s hp hfile
    unfold MemoryStore.fileIn?
    rw [← show p.components = _ from hp, ← isFile_eq_at?]
    exact hfile
  folderIn_of_isDirectory := by
    intro dir p t s hp hdirectory
    obtain ⟨c, rest, hfile⟩ := isDirectory_iff.1 hdirectory
    rw [show p.components = _ from hp, List.append_assoc] at hfile
    exact ⟨c, rest, hfile⟩
  listed := by
    rintro dir s _ _ t - - ⟨⟩ hthere
    have hchild : ∃ rest, (s.at? (dir.components ++ .name t :: rest)).isSome := by
      rcases hthere with hfile | ⟨c, rest, hfile⟩
      · exact ⟨[], hfile⟩
      · exact ⟨c :: rest, hfile⟩
    obtain ⟨rest, hfile⟩ := hchild
    obtain ⟨p, hp⟩ := exists_path (isSome_at?.1 hfile)
    have hname : IsName t := by
      refine Path.isName_of_mem_components (p := p) ?_
      rw [hp]
      exact List.mem_append_right _ List.mem_cons_self
    exact ⟨_, List.mem_map.2 ⟨.name t, mem_children_iff.2 ⟨rest, hfile⟩, rfl⟩,
      Path.fileName?_join dir hname⟩

end LargeObjects
