import Mathlib
import LargeObjects.Proofs.Browsing
import LargeObjects.Proofs.Counting
import LargeObjects.Proofs.DiskLaws

/-! Whether flat files are found again: whether the directory in which they are looked for is listed
with an entry for each of them, and whether the name of that entry is read back. -/
namespace LargeObjects

open FallibleStore

structure Lists (σ : Type) [FileStore σ] : Prop where
  spelled {s t : σ} {dir : Path} {entries : List Path} : FileStore.list dir s = .ok entries t →
    ∀ entry ∈ entries, ∃ text, entry = dir.join text
  listed {s : σ} {p dir : Path} {name : Name} : FileStore.isFile p s = true →
    p.components = dir.components ++ [.name name] → dir.spelling ≠ [] →
      dir.spelling <+: p.spelling →
        ∃ entries, FileStore.list dir s = .ok entries s ∧ dir.join name ∈ entries

/-- A store held in memory lists by the components of its paths. -/
theorem MemoryStore.lists : Lists MemoryStore where
  spelled := by
    intro s t dir entries hlist entry hmem
    cases hlist
    obtain ⟨c, -, hc⟩ := List.mem_map.1 hmem
    exact ⟨c.text, hc.symm⟩
  listed := by
    intro s p dir name hfile hsteps _ _
    refine ⟨_, rfl, List.mem_map.2 ⟨.name name, ?_, rfl⟩⟩
    have hat : (s.at? (dir.components ++ .name name :: [])).isSome := by
      rw [← hsteps, ← isFile_eq_at?]
      exact hfile
    exact mem_children_iff.2 ⟨[], hat⟩

namespace Disk

variable {d : Disk} {p dir : Path}

theorem objection?_of_isFile (h : d.isFile p = true) : objection? p = none := by
  obtain ⟨_, _, _, hlocate, -⟩ := exists_of_isFile h
  exact objection?_of_locate hlocate

/-- A file system lists where a path leads. -/
theorem lists : Lists Disk where
  spelled := by
    intro d d' dir entries hlist entry hmem
    have hentries : ∃ names : List Name, entries = names.map dir.join := by
      simp only [FileStore.list] at hlist
      split at hlist
      · cases hlist
        exact ⟨_, rfl⟩
      · cases hlist
      · cases hlist
        exact ⟨[], rfl⟩
      · cases hlist
    obtain ⟨names, rfl⟩ := hentries
    obtain ⟨name, -, hname⟩ := List.mem_map.1 hmem
    exact ⟨name, hname.symm⟩
  listed := by
    intro d p dir name hfile hsteps hne hgoes
    apply mem_list_of_isFile hfile hsteps _ hne
    · unfold reach
      -- The directory starts where the path to the file starts.
      obtain ⟨first, steps, hdir⟩ := List.exists_cons_of_ne_nil (Path.components_ne_nil hne)
      rw [origin_eq, origin_eq, hsteps, hdir]
      rfl
    · exact objection?_of_prefix hgoes (objection?_of_isFile hfile)

/-- The entries behind a single dot are those of the working directory. -/
theorem mem_list_current {name : Name} (hfile : d.isFile p = true)
    (hsteps : p.components = [.name name]) :
    ∃ entries, FileStore.list ⟨['.']⟩ d = .ok entries d ∧ (Path.mk ['.']).join name ∈ entries := by
  have hfront : p.components = [] ++ [.name name] := hsteps
  apply mem_list_of_isFile hfile hfront rfl (List.cons_ne_nil _ _)
  rw [origin_eq p, hsteps]
  rfl

end Disk

namespace Naming

variable {n : Naming} {owner : Owner} {id : ObjectId} {σ : Type} [FileStore σ] {s : σ}

structure Nested (n : Naming) : Prop where
  name : IsName n.base.lastPiece
  lead : n.base.lead ≠ []

/-- Where flat files are looked for, an entry is listed that agrees with the file by `key`, and its
name is read back. -/
def FindsBy {α : Type} (key : Path → α) (n : Naming) (owner : Owner) (id : ObjectId) (s : σ) : Prop :=
  ∃ entries, FileStore.list n.flatDirectory s = .ok entries s ∧ ∃ entry ∈ entries,
    key entry = key (n.flatPath owner id) ∧ entry.fileName?.bind n.parseFlat? = some (owner, id)

theorem isName_flat (n : Naming) (owner : Owner) (id : ObjectId) :
    IsName (n.base.lastPiece ++ flatEnding owner id) := by
  apply Path.isName_of_mem_components (p := n.flatPath owner id)
  rw [components_flatPath]
  exact List.mem_append_right _ List.mem_cons_self

/-- What goes on from a single dot starts with it or at the root. -/
theorem head?_components_join_dot (text t : Name) :
    ((Path.mk ['.']).join text).components.head? ≠ some (.name t) := by
  intro h
  by_cases hroot : text.head? = some '/'
  · have hjoin : (Path.mk ['.']).join text = ⟨text⟩ := if_pos hroot
    have hhead := (Disk.head?_components_iff ⟨text⟩).2 hroot
    rw [hjoin, hhead] at h
    cases h
  · have hjoin : (Path.mk ['.']).join text = ⟨['.'] ++ '/' :: text⟩ := if_neg hroot
    have hpieces : (Path.mk (['.'] ++ '/' :: text)).pieces = ['.'] :: text.splitOn '/' :=
      List.splitOn_append_cons_self ['.'] text
    unfold Path.components Path.anchor? at h
    rw [hjoin, hpieces] at h
    cases h

/-- An entry for the file is found if and only if the database is nested. -/
theorem findsBy_components_iff (hlists : Lists σ)
    (hfile : FileStore.isFile (n.flatPath owner id) s = true) :
    n.FindsBy Path.components owner id s ↔ n.Nested := by
  have hsteps := n.components_flatPath owner id
  constructor
  · rintro ⟨entries, hlist, entry, hmem, hsame, hread⟩
    have hentry := hsame.trans hsteps
    rw [Path.fileName?_of_components hentry] at hread
    have hname := (n.parseFlat?_flat_iff owner id).1 hread
    refine ⟨hname, fun hlead => ?_⟩
    -- Without a directory the listing is one of entries behind a dot, and the file has no dot.
    obtain ⟨text, htext⟩ := hlists.spelled hlist entry hmem
    rw [hlead] at hentry
    rw [htext, flatDirectory_of_bare hname hlead] at hentry
    exact head?_components_join_dot text _ (congrArg List.head? hentry)
  · rintro ⟨hname, hlead⟩
    obtain ⟨hdirectory, hne, hgoes⟩ := flatDirectory_of_lead hname hlead
    rw [← hdirectory] at hsteps
    -- The directory and the path go by the same spelling of what is before the name.
    obtain ⟨entries, hlist, hmem⟩ :=
      hlists.listed hfile hsteps hne (hgoes.trans (List.prefix_append _ _))
    have hentry := Path.components_join n.flatDirectory (n.isName_flat owner id)
    refine ⟨entries, hlist, _, hmem, hentry.trans hsteps.symm, ?_⟩
    rw [Path.fileName?_of_components hentry]
    exact (n.parseFlat?_flat_iff owner id).2 hname

/-- On a file system, a database without a directory finds its files under names that are read back.
-/
theorem findsBy_fileName?_of_isFile {d : Disk} (hname : IsName n.base.lastPiece)
    (hfile : FileStore.isFile (n.flatPath owner id) d = true) :
    n.FindsBy Path.fileName? owner id d := by
  have hsteps := n.components_flatPath owner id
  by_cases hlead : n.base.lead = []
  · rw [hlead] at hsteps
    obtain ⟨entries, hlist, hmem⟩ := Disk.mem_list_current hfile hsteps
    have hentry := Path.components_join ⟨['.']⟩ (n.isName_flat owner id)
    refine ⟨entries, ?_, _, hmem, ?_, ?_⟩
    · rw [flatDirectory_of_bare hname hlead]
      exact hlist
    · rw [Path.fileName?_of_components hentry]
      exact (Path.fileName?_of_components hsteps).symm
    · rw [Path.fileName?_of_components hentry]
      exact (n.parseFlat?_flat_iff owner id).2 hname
  · obtain ⟨entries, hlist, entry, hmem, hsame, hread⟩ :=
      (findsBy_components_iff Disk.lists hfile).2 ⟨hname, hlead⟩
    refine ⟨entries, hlist, entry, hmem, ?_, hread⟩
    unfold Path.fileName?
    rw [hsame]

theorem left_le_max (a b : UInt32) : a ≤ max a b := by
  show a ≤ if a ≤ b then b else a
  split
  next hle => exact hle
  next => exact UInt32.le_refl a

theorem right_le_max (a b : UInt32) : b ≤ max a b := by
  show b ≤ if a ≤ b then b else a
  split
  next => exact UInt32.le_refl b
  next hgt => exact UInt32.le_of_lt (UInt32.not_le.1 hgt)

theorem le_foldl_max (words : List UInt32) (start : UInt32) :
    start ≤ words.foldl max start ∧ ∀ word ∈ words, word ≤ words.foldl max start := by
  induction words generalizing start with
  | nil => exact ⟨UInt32.le_refl start, nofun⟩
  | cons first words ih =>
    obtain ⟨hstart, hwords⟩ := ih (max start first)
    refine ⟨UInt32.le_trans (left_le_max start first) hstart, fun word hword => ?_⟩
    rcases List.mem_cons.1 hword with rfl | hword
    · exact UInt32.le_trans (right_le_max start word) hstart
    · exact hwords word hword

theorem le_highestFlat {entries : List Path} {entry : Path} (hmem : entry ∈ entries)
    (hread : entry.fileName?.bind n.parseFlat? = some (owner, id)) :
    id.word ≤ Allocator.highestFlat n entries := by
  apply (le_foldl_max _ 0).2
  refine List.mem_filterMap.2 ⟨entry, hmem, ?_⟩
  rw [hread]
  rfl

/-- Behind the highest id there are no more ids that were found, but there is nothing behind the last
word. -/
theorem lt_seed {word highest : UInt32} (hle : word ≤ highest) :
    let start := max (if highest = Allocator.lastWord then highest else highest + 1) 1
    word < start ∨ start = Allocator.lastWord := by
  dsimp only
  by_cases hlast : highest = Allocator.lastWord
  · right
    rw [if_pos hlast, hlast]
    decide
  · left
    rw [if_neg hlast]
    have hnext := Allocator.lt_add_one_of_ne_last hlast
    exact UInt32.lt_of_lt_of_le (UInt32.lt_of_le_of_lt hle hnext) (left_le_max _ 1)

/-- An allocator that goes on after the flat files starts behind every file that is found, but never
behind the last word. -/
theorem FindsBy.counted {α : Type} {key : Path → α} {w w' : World σ} {a : Allocator}
    (h : n.FindsBy key owner id w.store) (hseeded : Allocator.afterHighest n w = .ok a w') :
    ∃ place start, a = .counter place ∧ w'.Counter place start ∧
      (id.word < start ∨ start = Allocator.lastWord) := by
  obtain ⟨entries, hlist, entry, hmem, -, hread⟩ := h
  have hle := le_highestFlat hmem hread
  cases (Allocator.afterHighest_run hlist).symm.trans hseeded
  exact ⟨_, _, rfl, List.getElem?_concat_length, lt_seed hle⟩

/-- A flat file that was created is there, and as long as it is there it is found if and only if the
database is nested. On a file system it is found by its name even if nothing stands before the name
of the database. -/
theorem flat_file_found_iff (n : Naming) (owner : Owner) (id : ObjectId) :
    (∀ (s s' : MemoryStore) (w : FileStore.Writer MemoryStore),
      FileStore.create (n.flatPath owner id) s = .ok w s' →
        FileStore.isFile (n.flatPath owner id) s' = true ∧
        ∀ t, Later s' t → FileStore.isFile (n.flatPath owner id) t = true →
          (n.FindsBy Path.components owner id t ↔ n.Nested)) ∧
    (∀ (d d' : Disk) (w : FileStore.Writer Disk), d.Sound →
      FileStore.create (n.flatPath owner id) d = .ok w d' →
        FileStore.isFile (n.flatPath owner id) d' = true ∧
        ∀ t, Later d' t → FileStore.isFile (n.flatPath owner id) t = true →
          (n.FindsBy Path.components owner id t ↔ n.Nested) ∧
          (IsName n.base.lastPiece → n.FindsBy Path.fileName? owner id t)) := by
  refine ⟨fun s s' w hcreate => ⟨?_, fun t _ hfile => ?_⟩,
    fun d d' w hd hcreate => ⟨?_, fun t _ hfile => ⟨?_, fun hname => ?_⟩⟩⟩
  · cases hcreate
    refine (MemoryStore.isFile_eq_at? _ _).trans ?_
    rw [MemoryStore.at?_put, if_pos rfl]
    rfl
  · exact findsBy_components_iff MemoryStore.lists hfile
  · exact Disk.isFile_of_create hd hcreate
  · exact findsBy_components_iff Disk.lists hfile
  · exact findsBy_fileName?_of_isFile hname hfile

def spelled (base : String) : Naming := ⟨.ofString base, 256⟩

/-- The files of a database in a directory are found, also next to files that were made before. -/
theorem flat_file_found_nested : (spelled "d/b").Nested ∧
    (∃ s', FileStore.create ((spelled "d/b").flatPath (.table ⟨6⟩) ⟨1⟩) (default : MemoryStore) =
        .ok ((spelled "d/b").flatPath (.table ⟨6⟩) ⟨1⟩) s' ∧
      (spelled "d/b").FindsBy Path.components (.table ⟨6⟩) ⟨1⟩ s') ∧
    ∃ d w d', Later (default : Disk) d ∧ d.Sound ∧
      FileStore.create ((spelled "d/b").flatPath (.table ⟨6⟩) ⟨1⟩) d = .ok w d' ∧
      (spelled "d/b").FindsBy Path.components (.table ⟨6⟩) ⟨1⟩ d' := by
  have hnested : (spelled "d/b").Nested :=
    ⟨⟨by decide, by decide, by decide, by decide⟩, by decide⟩
  obtain ⟨hmemory, hdisk⟩ := (spelled "d/b").flat_file_found_iff (.table ⟨6⟩) ⟨1⟩
  refine ⟨hnested, ⟨_, rfl, ?_⟩, ?_⟩
  · obtain ⟨hfile, hfound⟩ := hmemory default _ _ rfl
    exact (hfound _ .refl hfile).2 hnested
  · have hlater : Later default
        ((Request.create ((spelled "d/b").flatPath .temp ⟨1⟩)).run (default : Disk)) :=
      .single ⟨_, rfl⟩
    have hsound := Disk.sound_default.later hlater
    obtain ⟨hfile, hfound⟩ := hdisk _ _ _ hsound rfl
    exact ⟨_, _, _, hlater, hsound, rfl, (hfound _ .refl hfile).1.2 hnested⟩

/-- In memory, the files of a database without a directory are not listed. On a file system, those of
a database with a separator at its end are one directory below the one that is listed. -/
theorem flat_file_lost :
    (∃ s', FileStore.create ((spelled "test").flatPath (.table ⟨6⟩) ⟨1⟩) (default : MemoryStore) =
        .ok ((spelled "test").flatPath (.table ⟨6⟩) ⟨1⟩) s' ∧
      FileStore.list (spelled "test").flatDirectory s' = .ok [] s') ∧
    ∃ w d', FileStore.create ((spelled "d/b/").flatPath (.table ⟨6⟩) ⟨1⟩) (default : Disk) =
        .ok w d' ∧
      FileStore.list (spelled "d/b/").flatDirectory d' = .ok [.ofString "d/b"] d' ∧
      (Path.ofString "d/b").fileName?.bind (spelled "d/b/").parseFlat? = none := by
  exact ⟨⟨_, rfl, rfl⟩, _, _, rfl, rfl, rfl⟩

end Naming

end LargeObjects
