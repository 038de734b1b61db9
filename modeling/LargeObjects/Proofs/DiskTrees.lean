import Mathlib
import LargeObjects.Proofs.DiskLaws

/-! The directories of a file system are a tree. A directory is entered by one name of one directory
only, and a content has one name at most, so what is found under different names is different. -/
namespace LargeObjects.Disk

open FallibleStore

variable {d d' : Disk} {dir k n m : Nat} {name : Name} {entry : Entry}

section Entries

theorem directory_of_le (h : d.directories.size ≤ k) : d.directory k = .root := by
  unfold directory
  rw [Array.getD_eq_getD_getElem?, Array.getElem?_eq_none h]
  rfl

/-- What has entries is there. -/
theorem lt_of_get? (h : (d.directory k).entries.get? name = some entry) :
    k < d.directories.size := by
  by_contra hk
  rw [directory_of_le (Nat.le_of_not_lt hk)] at h
  cases h

theorem get?_eraseEntry (d : Disk) (dir : Nat) (name : Name) (k : Nat) (other : Name) :
    ((d.eraseEntry dir name).directory k).entries.get? other =
      if (dir = k ∧ k < d.directories.size) ∧ name = other then none
      else (d.directory k).entries.get? other := by
  unfold eraseEntry
  rw [directory_modifyEntries]
  by_cases hdir : dir = k ∧ k < d.directories.size
  · rw [if_pos hdir, SortedMap.get?_erase]
    simp only [hdir, true_and]
  · simp only [hdir, false_and, if_false]

theorem get?_addDirectory (hdir : dir < d.directories.size) (name : Name) (k : Nat) (other : Name) :
    ((d.addDirectory dir name).directory k).entries.get? other =
      if dir = k ∧ name = other then some (.directory d.directories.size)
      else (d.directory k).entries.get? other := by
  unfold addDirectory
  rw [get?_setEntry, directory_push, Array.size_push]
  by_cases hk : k = d.directories.size
  · have hne : dir ≠ k := by omega
    rw [if_pos hk, if_neg fun h => hne h.1.1, if_neg fun h => hne h.1, directory_of_le hk.ge]
    rfl
  · have hiff : (dir = k ∧ k < d.directories.size + 1) ∧ name = other ↔ dir = k ∧ name = other :=
      ⟨fun h => ⟨h.1.1, h.2⟩, fun h => ⟨⟨h.1, by omega⟩, h.2⟩⟩
    simp only [hiff, if_neg hk]

/-- Changing entries moves no directory. -/
theorem place_modifyEntries (d : Disk) (dir : Nat) (f : SortedMap Name Entry → SortedMap Name Entry)
    (k : Nat) : ((d.modifyEntries dir f).directory k).place = (d.directory k).place ∧
      ((d.modifyEntries dir f).directory k).above = (d.directory k).above := by
  rw [directory_modifyEntries]
  split <;> exact ⟨rfl, rfl⟩

theorem directory_addDirectory (d : Disk) (dir : Nat) (name : Name) (k : Nat) :
    ((d.addDirectory dir name).directory k).place =
        (if k = d.directories.size then (d.directory dir).place ++ [name] else (d.directory k).place) ∧
      ((d.addDirectory dir name).directory k).above =
        if k = d.directories.size then dir else (d.directory k).above := by
  unfold addDirectory setEntry
  obtain ⟨hplace, habove⟩ := place_modifyEntries
    { d with directories := d.directories.push ⟨(d.directory dir).place ++ [name], dir, ∅⟩ } dir
    (fun entries => entries.insert name (.directory d.directories.size)) k
  rw [hplace, habove, directory_push]
  split <;> exact ⟨rfl, rfl⟩

end Entries

/-- What holds of every file system that comes about by calls: directories lie where their place
says, entries have names, and the contents that they stand for are there and have one name each. -/
structure Tree (d : Disk) : Prop where
  sound : d.Sound
  directory_eq : ∀ {k name n}, (d.directory k).entries.get? name = some (.directory n) →
    (d.directory n).place = (d.directory k).place ++ [name] ∧ (d.directory n).above = k
  isName : ∀ {k name entry}, (d.directory k).entries.get? name = some entry → IsName name
  content_lt : ∀ {k name m}, (d.directory k).entries.get? name = some (.file m) →
    m < d.contents.length
  content_inj : ∀ {k name k' name' m}, (d.directory k).entries.get? name = some (.file m) →
    (d.directory k').entries.get? name' = some (.file m) → k = k' ∧ name = name'

namespace Tree

theorem default : (default : Disk).Tree := by
  have hnone : ∀ k name, (((Inhabited.default : Disk).directory k).entries.get? name) = none := by
    intro k name
    match k with
    | 0 => rfl
    | 1 => rfl
    | k + 2 => rfl
  have hnot : ∀ {k name entry} {P : Prop},
      ((Inhabited.default : Disk).directory k).entries.get? name = some entry → P := by
    intro k name entry P h
    rw [hnone] at h
    cases h
  exact ⟨sound_default, hnot, hnot, hnot, hnot⟩

theorem contents (h : d.Tree) (hsame : d'.directories = d.directories)
    (hlength : d.contents.length ≤ d'.contents.length) : d'.Tree where
  sound := h.sound.of_eq hsame
  directory_eq {k name n} hget := by
    rw [directory_of_eq hsame] at hget
    rw [directory_of_eq hsame, directory_of_eq hsame]
    exact h.directory_eq hget
  isName hget := by
    rw [directory_of_eq hsame] at hget
    exact h.isName hget
  content_lt hget := by
    rw [directory_of_eq hsame] at hget
    exact Nat.lt_of_lt_of_le (h.content_lt hget) hlength
  content_inj hget hget' := by
    rw [directory_of_eq hsame] at hget hget'
    exact h.content_inj hget hget'

theorem child_lt (h : d.Tree) (hget : (d.directory k).entries.get? name = some (.directory n)) :
    n < d.directories.size :=
  h.sound.entry_lt k _ (SortedMap.mem_of_get? hget) n rfl

theorem addDirectory (h : d.Tree) (hdir : dir < d.directories.size) (hname : IsName name) :
    (d.addDirectory dir name).Tree where
  sound := h.sound.addDirectory hdir name
  directory_eq {k other n} hget := by
    rw [get?_addDirectory hdir] at hget
    obtain ⟨hplace, habove⟩ := directory_addDirectory d dir name n
    obtain ⟨hplace', -⟩ := directory_addDirectory d dir name k
    split at hget
    next hnew =>
      obtain ⟨rfl, rfl⟩ := hnew
      cases hget
      rw [hplace, habove, hplace', if_pos rfl, if_pos rfl, if_neg (Nat.ne_of_lt hdir)]
      exact ⟨rfl, rfl⟩
    next =>
      have hk : k ≠ d.directories.size := Nat.ne_of_lt (lt_of_get? hget)
      rw [hplace, habove, hplace', if_neg (Nat.ne_of_lt (h.child_lt hget)),
        if_neg (Nat.ne_of_lt (h.child_lt hget)), if_neg hk]
      exact h.directory_eq hget
  isName {k other entry} hget := by
    rw [get?_addDirectory hdir] at hget
    split at hget
    next hnew => exact hnew.2 ▸ hname
    next => exact h.isName hget
  content_lt {k other m} hget := by
    rw [get?_addDirectory hdir] at hget
    split at hget
    · cases hget
    · exact h.content_lt hget
  content_inj {k other k' other' m} hget hget' := by
    rw [get?_addDirectory hdir] at hget hget'
    split at hget
    · cases hget
    · split at hget'
      · cases hget'
      · exact h.content_inj hget hget'

theorem eraseEntry (h : d.Tree) (dir : Nat) (name : Name) : (d.eraseEntry dir name).Tree := by
  have hold : ∀ {k other entry}, ((d.eraseEntry dir name).directory k).entries.get? other = some entry →
      (d.directory k).entries.get? other = some entry := by
    intro k other entry hget
    rw [get?_eraseEntry] at hget
    split at hget
    · cases hget
    · exact hget
  have hplace := place_modifyEntries d dir fun entries => entries.erase name
  refine ⟨h.sound.eraseEntry dir name, fun {k other n} hget => ?_, fun hget => h.isName (hold hget),
    fun hget => h.content_lt (hold hget), fun hget hget' => h.content_inj (hold hget) (hold hget')⟩
  show ((d.modifyEntries dir _).directory n).place = ((d.modifyEntries dir _).directory k).place ++ _ ∧
    ((d.modifyEntries dir _).directory n).above = k
  rw [(hplace n).1, (hplace n).2, (hplace k).1]
  exact h.directory_eq (hold hget)

/-- A name may come to stand for a content that no name stands for. -/
theorem setFile (h : d.Tree) (hname : IsName name) (hm : m < d.contents.length)
    (hfree : ∀ k other, (d.directory k).entries.get? other ≠ some (.file m)) :
    (d.setEntry dir name (.file m)).Tree := by
  have hcases : ∀ {k other entry}, ((d.setEntry dir name (.file m)).directory k).entries.get? other =
      some entry → (k = dir ∧ other = name ∧ entry = .file m) ∨
        (d.directory k).entries.get? other = some entry := by
    intro k other entry hget
    rw [get?_setEntry] at hget
    split at hget
    next hnew =>
      cases hget
      exact Or.inl ⟨hnew.1.1.symm, hnew.2.symm, rfl⟩
    next => exact Or.inr hget
  have hplace := place_modifyEntries d dir fun entries => entries.insert name (.file m)
  refine ⟨h.sound.setEntry fun _ h => Entry.noConfusion h, fun {k other n} hget => ?_,
    fun {k other entry} hget => ?_, fun {k other m'} hget => ?_,
    fun {k other k' other' m'} hget hget' => ?_⟩
  · show ((d.modifyEntries dir _).directory n).place = ((d.modifyEntries dir _).directory k).place ++ _ ∧
      ((d.modifyEntries dir _).directory n).above = k
    rw [(hplace n).1, (hplace n).2, (hplace k).1]
    rcases hcases hget with ⟨-, -, heq⟩ | hold
    · cases heq
    · exact h.directory_eq hold
  · rcases hcases hget with ⟨-, rfl, -⟩ | hold
    · exact hname
    · exact h.isName hold
  · rcases hcases hget with ⟨-, -, heq⟩ | hold
    · cases heq
      exact hm
    · exact h.content_lt hold
  · rcases hcases hget with ⟨rfl, rfl, heq⟩ | hold
    · cases heq
      rcases hcases hget' with ⟨rfl, rfl, -⟩ | hold'
      · exact ⟨rfl, rfl⟩
      · exact absurd hold' (hfree _ _)
    · rcases hcases hget' with ⟨rfl, rfl, heq⟩ | hold'
      · cases heq
        exact absurd hold (hfree _ _)
      · exact h.content_inj hold hold'

theorem change (h : d.Tree) (hchange : Change d d') : d'.Tree := by
  cases hchange with
  | contents hsame hlength => exact h.contents hsame hlength.ge
  | directory hdir hname _ => exact h.addDirectory hdir hname
  | @file dir name _ hname _ =>
    -- The content is there first, and then gets its name.
    have hmore : ({ d with contents := d.contents ++ [[]] } : Disk).Tree :=
      h.contents rfl (by rw [List.length_append]; exact Nat.le_add_right _ _)
    refine (hmore.setFile (m := d.contents.length) hname ?_ fun k other hget => ?_).contents
      (d := ({ d with contents := d.contents ++ [[]] } : Disk).setEntry dir name
        (.file d.contents.length)) rfl (Nat.le_refl _)
    · rw [List.length_append]
      exact Nat.lt_succ_self _
    · exact absurd (h.content_lt hget) (Nat.lt_irrefl _)
  | erase _ => exact h.eraseEntry _ _
  | @move source dir name hsource hdir hname _ =>
    obtain ⟨-, hget⟩ := child_eq_ok_iff.1 hsource
    refine (h.eraseEntry _ _).setFile hname (h.content_lt hget) fun k other hother => ?_
    rw [get?_eraseEntry] at hother
    split at hother
    · cases hother
    next hne =>
      -- Another name for the content would have been the source's.
      obtain ⟨hk, hother'⟩ := h.content_inj hother hget
      exact hne ⟨⟨hk.symm, lt_of_get? hother⟩, hother'.symm⟩

theorem changes (h : d.Tree) (hchanges : Changes d d') : d'.Tree := by
  induction hchanges with
  | refl => exact h
  | tail _ hchange ih => exact ih.change hchange

/-- Every file system that calls make of an empty one is a tree. -/
theorem later (h : d.Tree) (hlater : Later d d') : d'.Tree :=
  h.changes (h.sound.later_changes hlater)

theorem run (h : d.Tree) (r : Request Disk) : (r.run d).Tree := h.changes (h.sound.changes_run r)

/-- Names that are followed down from a directory are those behind its place. -/
theorem place_of_follow (h : d.Tree) {names : List Name} (hnames : ∀ t ∈ names, IsName t) {j : Nat}
    (hfollow : (names.map Component.name).foldlM d.follow k = .ok j) :
    (d.directory j).place = (d.directory k).place ++ names := by
  induction names generalizing k with
  | nil =>
    cases hfollow
    exact (List.append_nil _).symm
  | cons t names ih =>
    obtain ⟨m, hstep, hrest⟩ := exists_of_bind hfollow
    have hpiece := (hnames t List.mem_cons_self).ofPiece?
    obtain ⟨-, hget⟩ := child_eq_ok_iff.1 (enter_name_ok hpiece hstep)
    rw [ih (fun t' ht' => hnames t' (List.mem_cons_of_mem _ ht')) hrest, (h.directory_eq hget).1,
      List.append_assoc]
    rfl

end Tree

section Places

variable {p : Path}

def place? (d : Disk) (p : Path) : Option (Nat × Name) :=
  match d.locate p with
  | .ok (.name dir name false) => some (dir, name)
  | _ => none

def contentOf? (d : Disk) (place : Nat × Name) : Option Bytes :=
  match d.child place.1 place.2 with
  | .ok (.file n) => some (d.content n)
  | _ => none

theorem place?_eq_some_iff :
    d.place? p = some (dir, name) ↔ d.locate p = .ok (.name dir name false) := by
  unfold place?
  constructor
  · intro h
    split at h
    next k other hlocate =>
      cases h
      exact hlocate
    next => cases h
  · intro h
    rw [h]

/-- A file loses its name, and every path leads through the same directories. -/
theorem leads_eraseEntry (hfile : d.child dir name = .ok (.file n)) :
    Leads d (d.eraseEntry dir name) ∧ Leads (d.eraseEntry dir name) d := by
  have habove := fun k => (place_modifyEntries d dir (fun entries => entries.erase name) k).2
  refine ⟨⟨fun k _ => habove k, fun {k other m} h => ?_⟩, fun k _ => (habove k).symm,
    fun {k other m} h => ?_⟩
  · rw [child_eq_ok_iff] at h ⊢
    refine ⟨h.1, ?_⟩
    rw [get?_eraseEntry, if_neg, h.2]
    rintro ⟨⟨rfl, -⟩, rfl⟩
    rw [(child_eq_ok_iff.1 hfile).2] at h
    cases h.2
  · rw [child_eq_ok_iff] at h ⊢
    refine ⟨h.1, ?_⟩
    have hget := h.2
    rw [get?_eraseEntry] at hget
    split at hget
    · cases hget
    · exact hget

theorem place?_eraseEntry (hd : d.Sound) (hfile : d.child dir name = .ok (.file n)) (p : Path) :
    (d.eraseEntry dir name).place? p = d.place? p := by
  obtain ⟨hforth, hback⟩ := leads_eraseEntry hfile
  apply Option.ext
  rintro ⟨k, other⟩
  rw [place?_eq_some_iff, place?_eq_some_iff]
  exact ⟨hback.locate (hd.eraseEntry dir name), hforth.locate hd⟩

/-- Other names stand for what they stood for. -/
theorem contentOf?_eraseEntry {place : Nat × Name} (helse : (dir, name) ≠ place) :
    (d.eraseEntry dir name).contentOf? place = d.contentOf? place := by
  have hget : ((d.eraseEntry dir name).directory place.1).entries.get? place.2 =
      (d.directory place.1).entries.get? place.2 := by
    rw [get?_eraseEntry, if_neg]
    rintro ⟨⟨hdir, -⟩, hname⟩
    exact helse (Prod.ext hdir hname)
  unfold contentOf? child
  rw [hget]
  rfl

/-- Deleting takes away the name of one file or does nothing. -/
theorem run_delete_cases (d : Disk) (p : Path) : (Request.delete p).run d = d ∨
    ∃ dir name n, d.place? p = some (dir, name) ∧ d.child dir name = .ok (.file n) ∧
      (Request.delete p).run d = d.eraseEntry dir name := by
  have hrun : (Request.delete p).run d = Step.after (unlink p) d := by
    simp only [Request.run, Step.after, FileStore.delete]
    cases unlink p d with
    | ok _ d' => rfl
    | error e d' => cases e <;> rfl
  rw [hrun]
  rcases unlink_cases p d with ⟨e, hsame⟩ | ⟨dir, name, n, hlocate, hchild, herase⟩
  · exact Or.inl (Step.after_error hsame)
  · exact Or.inr ⟨dir, name, n, place?_eq_some_iff.2 hlocate, hchild, Step.after_ok herase⟩

end Places

end LargeObjects.Disk
