import Mathlib
import LargeObjects.Proofs.Accounts
import LargeObjects.Proofs.Listing

/-! The directories of a store in memory. They are nothing but the paths above its files, and still a
search through them ends, comes to every file below where it starts, and to none twice. -/
namespace LargeObjects

open ReliableStore FallibleStore BrowsableStore

namespace MemoryStore

variable {s : MemoryStore}

theorem pairwise_entries (s : MemoryStore) (dir : Path) :
    ((s.entries dir).map (·.components)).Pairwise fun p q => compare p q = .lt := by
  rw [components_entries, List.pairwise_map]
  refine (s.sorted_children dir).imp fun {a b} hlt => ?_
  rw [compare_append_left, List.compare_cons_cons, hlt]
  rfl

theorem lists_entries (s : MemoryStore) (dir : Path) :
    Survey.Lists s dir.components (s.entries dir) :=
  ⟨s.nodup_entries dir, fun _ => mem_entries_iff⟩

/-- An entry is a file or a path above one, and there is nothing else to be listed. -/
theorem mem_entries_iff_file_or_above {dir : Path} {q : List Component} :
    q ∈ (s.entries dir).map (·.components) ↔ (∃ c, q = dir.components ++ [c]) ∧
      ((s.at? q).isSome ∨ ∃ d rest, (s.at? (q ++ d :: rest)).isSome) := by
  rw [mem_entries_iff]
  constructor
  · rintro ⟨c, rest, rfl, hthere⟩
    refine ⟨⟨c, rfl⟩, ?_⟩
    rcases rest with _ | ⟨d, rest⟩
    · rw [List.append_nil] at hthere
      exact Or.inl hthere
    · exact Or.inr ⟨d, rest, hthere⟩
  · rintro ⟨⟨c, rfl⟩, hfile | ⟨d, rest, hbelow⟩⟩
    · exact ⟨c, [], rfl, by rwa [List.append_nil]⟩
    · exact ⟨c, d :: rest, rfl, hbelow⟩

/-- An entry is a directory when it is no file. -/
theorem isDirectory_iff_not_isFile (hunnested : Unnested s) {dir path : Path}
    (hmem : path ∈ s.entries dir) : s.isDirectory path = true ↔ s.isFile path = false := by
  obtain ⟨-, hkind⟩ :=
    mem_entries_iff_file_or_above.1 (List.mem_map_of_mem (f := (·.components)) hmem)
  rw [isFile_eq_at?, Option.isSome_eq_false_iff, Option.isNone_iff_eq_none, isDirectory_iff]
  constructor
  · rintro ⟨d, rest, hbelow⟩
    by_contra hfile
    have hnone := hunnested _ d rest (Option.isSome_iff_ne_none.2 hfile)
    rw [show s.at? (path.components ++ d :: rest) = none from hnone] at hbelow
    cases hbelow
  · intro hnone
    refine hkind.resolve_left fun hfile => ?_
    rw [hnone] at hfile
    cases hfile

end MemoryStore

namespace Survey

section Tours

variable {σ : Type} [FileStore σ] {s : σ}

def collected (s : σ) (depth : Nat) (entries : List Path) : List (Path × Nat) :=
  (entries.filter fun path => !FileStore.isDirectory path s).map fun path => (path, depth)

/-- A search that comes to an end, whatever the files are taken for. Pending directories are listed, the
last one found first. The directories in one are pending then, and its other entries are collected, each
with its depth. The number is that of the directories listed. -/
inductive Tours (s : σ) : Nat → List (Path × Nat) → List (Path × Nat) → Prop
  | done : Tours s 0 [] []
  | list {dir : Path} {depth count : Nat} {entries : List Path} {pending others : List (Path × Nat)} :
    FileStore.list dir s = .ok entries s →
    Tours s count (pushed s depth entries ++ pending) others →
    Tours s (count + 1) ((dir, depth) :: pending) (collected s depth entries ++ others)

/-- The walk is that search, with what it collects taken for files of objects, as soon as its fuel
suffices. -/
theorem Tours.walk_eq {count : Nat} {pending others : List (Path × Nat)}
    (h : Tours s count pending others) (survey : Survey) {fuel : Nat} (hfuel : count ≤ fuel) :
    walk fuel pending survey s =
      .ok { survey with files := survey.files ++ others.filterMap fun e => inTree? e.2 e.1 } s := by
  induction h generalizing survey fuel with
  | done =>
    rw [List.filterMap_nil, List.append_nil]
    cases fuel <;> rfl
  | @list dir depth count entries pending others hlist _ ih =>
    obtain ⟨fuel, rfl⟩ := Nat.exists_eq_add_of_le' (Nat.one_le_of_lt hfuel)
    have htaken : (collected s depth entries).filterMap (fun e => inTree? e.2 e.1) =
        taken s (inTree? depth) entries := List.filterMap_map
    rw [walk_ok fuel depth pending survey hlist, List.filterMap_append, htaken, ← List.append_assoc]
    exact ih _ (Nat.le_of_succ_le_succ hfuel)

variable [FallibleStore σ] [BrowsableStore σ] {dir : List Component} {entries : List Path}

omit [FallibleStore σ] [BrowsableStore σ] in
theorem components_collected (s : σ) (depth : Nat) (entries : List Path) :
    (collected s depth entries).map (·.1.components) =
      (entries.filter fun path => !FileStore.isDirectory path s).map (·.components) := List.map_map

/-- These are the files right in the directory. -/
theorem mem_collected_iff (hs : Settled s) (hunnested : Unnested s) (hlists : Lists s dir entries)
    {depth depth' : Nat} {q : List Component} :
    (∃ path, (path, depth') ∈ collected s depth entries ∧ path.components = q) ↔
      (fileAt? (below s) q).isSome ∧ (∃ c, q = dir ++ [c]) ∧ depth' = depth := by
  rw [← and_assoc, ← mem_files hs hunnested hlists]
  constructor
  · rintro ⟨path, hmem, rfl⟩
    obtain ⟨path', hpath, heq⟩ := List.mem_map.1 hmem
    cases heq
    exact ⟨List.mem_map_of_mem hpath, rfl⟩
  · rintro ⟨hmem, rfl⟩
    obtain ⟨path, hpath, rfl⟩ := List.mem_map.1 hmem
    exact ⟨path, List.mem_map_of_mem hpath, rfl⟩

end Tours

variable {s : MemoryStore} {root : List Component} {visited : List (List Component)}
  {others : List (Path × Nat)}

structure Collects (s : MemoryStore) (root : List Component) (visited : List (List Component))
    (others : List (Path × Nat)) : Prop where
  nodup : (others.map (·.1.components)).Nodup
  mem_others : ∀ q depth, (∃ path, (path, depth) ∈ others ∧ path.components = q) ↔
    (s.at? q).isSome ∧ ∃ dir ∈ visited, (∃ c, q = dir ++ [c]) ∧ dir.length = root.length + depth

namespace Collects

theorem start (s : MemoryStore) (root : List Component) : Collects s root [] [] where
  nodup := List.nodup_nil
  mem_others q depth := by
    constructor
    · rintro ⟨path, hmem, -⟩
      cases hmem
    · rintro ⟨-, dir, hmem, -⟩
      cases hmem

/-- One more directory is listed. -/
theorem list (h : Collects s root visited others) (hunnested : Unnested s) {dir : Path} {depth : Nat}
    (hnew : dir.components ∉ visited) (hdepth : dir.components.length = root.length + depth) :
    Collects s root (dir.components :: visited)
      (others ++ collected s depth (s.entries dir)) where
  nodup := by
    have hlists := s.lists_entries dir
    rw [List.map_append, components_collected]
    refine List.nodup_append.2 ⟨h.nodup, hlists.1.sublist (List.filter_sublist.map _), ?_⟩
    rintro q hold q' hfresh rfl
    obtain ⟨⟨path, depth'⟩, hmem, hq⟩ := List.mem_map.1 hold
    obtain ⟨-, dir', hvisited, ⟨c, hplace⟩, -⟩ := (h.mem_others q depth').1 ⟨path, hmem, hq⟩
    obtain ⟨-, c', hplace'⟩ := (mem_files trivial hunnested hlists q).1 hfresh
    -- A file is in one directory, which would have been visited before.
    obtain ⟨rfl, -⟩ := List.append_inj' (hplace.symm.trans hplace') rfl
    exact hnew hvisited
  mem_others q depth' := by
    have hfresh : (∃ path, (path, depth') ∈ collected s depth (s.entries dir) ∧
        path.components = q) ↔
          (s.at? q).isSome ∧ (∃ c, q = dir.components ++ [c]) ∧ depth' = depth :=
      mem_collected_iff trivial hunnested (s.lists_entries dir)
    -- How deep the files of this directory lie is told by its own place.
    have hsame : depth' = depth ↔ dir.components.length = root.length + depth' := by omega
    simp only [List.mem_append, or_and_right, exists_or]
    rw [h.mem_others, hfresh, hsame, ← and_or_left]
    simp only [List.exists_mem_cons_iff]
    exact and_congr_right fun _ => or_comm

/-- When all directories were visited, what was collected is every file below the root. -/
theorem mem_of_all (h : Collects s root visited others)
    (hall : ∀ dir, Reached s root dir ↔ dir ∈ visited) (q : List Component) (depth : Nat) :
    (∃ path, (path, depth) ∈ others ∧ path.components = q) ↔
      (s.at? q).isSome ∧ ∃ steps, q = root ++ steps ∧ steps.length = depth + 1 := by
  rw [h.mem_others]
  refine and_congr_right fun hthere => ⟨?_, ?_⟩
  · rintro ⟨dir, hvisited, ⟨c, rfl⟩, hlength⟩
    obtain ⟨front, rfl⟩ := ((hall dir).2 hvisited).leads
    rw [List.length_append] at hlength
    refine ⟨front ++ [c], List.append_assoc _ _ _, ?_⟩
    rw [List.length_append, List.length_singleton]
    omega
  · rintro ⟨steps, rfl, hlength⟩
    -- The last step is the file's own, and the others lead to its directory.
    rcases List.eq_nil_or_concat steps with rfl | ⟨front, c, hsteps⟩
    · cases hlength
    rw [List.concat_eq_append] at hsteps
    subst hsteps
    rw [← List.append_assoc] at hthere ⊢
    have hreached : Reached s root (root ++ front) := reached_of_isSome (fun _ h => h) hthere
    refine ⟨_, (hall _).1 hreached, ⟨c, rfl⟩, ?_⟩
    rw [List.length_append, List.length_singleton] at hlength
    rw [List.length_append]
    omega

end Collects

/-- A search comes to its end before the directories that there can be are used up. -/
theorem exists_tours (hunnested : Unnested s) {left : Nat} {pending : List (Path × Nat)}
    (hvisits : Visits s root (pending.map (·.1.components)) visited)
    (hcollects : Collects s root visited others)
    (hdepth : ∀ p ∈ pending, p.1.components.length = root.length + p.2)
    (hleft : FileStore.directoryBound s ≤ visited.length + left) :
    ∃ count more visited', Tours s count pending more ∧ count ≤ left ∧ Visits s root [] visited' ∧
      Collects s root visited' (others ++ more) := by
  -- The stack grows and shrinks, but with each step there is one directory less to be visited.
  induction left generalizing pending visited others with
  | zero =>
    have hnil := List.map_eq_nil_iff.1 (hvisits.pending_eq_nil trivial hleft)
    subst hnil
    exact ⟨0, [], visited, .done, Nat.le_refl 0, hvisits, by rwa [List.append_nil]⟩
  | succ left ih =>
    cases pending with
    | nil => exact ⟨0, [], visited, .done, Nat.zero_le _, hvisits, by rwa [List.append_nil]⟩
    | cons first pending =>
      obtain ⟨dir, depth⟩ := first
      have hlists := s.lists_entries dir
      have hlength : dir.components.length = root.length + depth := hdepth _ List.mem_cons_self
      have hdeeper : ∀ p ∈ pushed s depth (s.entries dir) ++ pending,
          p.1.components.length = root.length + p.2 := by
        intro p hp
        rcases List.mem_append.1 hp with hchild | hold
        · obtain ⟨hnext, c, hstep⟩ := of_mem_pushed trivial hlists hchild
          rw [hnext, hstep, List.length_append, List.length_singleton, hlength, Nat.add_assoc]
        · exact hdepth p (List.mem_cons_of_mem _ hold)
      have hleft' : FileStore.directoryBound s ≤ (dir.components :: visited).length + left := by
        rw [List.length_cons]
        omega
      obtain ⟨count, more, visited', htours, hcount, hvisits', hcollects'⟩ :=
        ih (hvisits.list trivial (fun h => h) hlists) (hcollects.list hunnested hvisits.notMem hlength)
          hdeeper hleft'
      refine ⟨count + 1, _, visited', .list rfl htours, Nat.succ_le_succ hcount, hvisits', ?_⟩
      rwa [← List.append_assoc]

end Survey

namespace MemoryStore

variable {s : MemoryStore}

/-- In a store in memory in which no file is below another, a directory's entries come in strictly
increasing order. They are the paths one step below it that are files or have files below them, and
those that are no files count as directories. A search from the directory ends. It collects the files
below it, each once and with the number of directories between as its depth, and the walk through a tree
finds those of them that are named like files of objects. -/
theorem tree_enumerated (hunnested : Unnested s) (dir : Path) :
    (∃ entries, FileStore.list dir s = .ok entries s ∧
      (entries.map (·.components)).Pairwise (fun p q => compare p q = .lt) ∧
      (∀ q, q ∈ entries.map (·.components) ↔ (∃ c, q = dir.components ++ [c]) ∧
        ((s.at? q).isSome ∨ ∃ d rest, (s.at? (q ++ d :: rest)).isSome)) ∧
      ∀ path ∈ entries,
        FileStore.isDirectory path s = true ↔ FileStore.isFile path s = false) ∧
    ∃ count others, Survey.Tours s count [(dir, 0)] others ∧
      count ≤ FileStore.directoryBound s ∧
      (others.map (·.1.components)).Nodup ∧
      (∀ q depth, (∃ path, (path, depth) ∈ others ∧ path.components = q) ↔
        (s.at? q).isSome ∧ ∃ steps, q = dir.components ++ steps ∧ steps.length = depth + 1) ∧
      ∀ fuel ≥ count, Survey.walk fuel [(dir, 0)] {} s =
        .ok { files := others.filterMap fun e => Survey.inTree? e.2 e.1 } s := by
  refine ⟨⟨s.entries dir, rfl, s.pairwise_entries dir, fun _ => mem_entries_iff_file_or_above,
    fun path hmem => isDirectory_iff_not_isFile hunnested hmem⟩, ?_⟩
  have hvisits : Survey.Visits s dir.components ([(dir, 0)].map (·.1.components)) [] := .start s _
  obtain ⟨count, others, visited, htours, hcount, hvisits, hcollects⟩ :=
    Survey.exists_tours hunnested hvisits (.start s _)
      (fun p hp => by rw [List.mem_singleton.1 hp]; rfl) (Nat.le_of_eq (Nat.zero_add _).symm)
  have hall : ∀ dir', Reached s dir.components dir' ↔ dir' ∈ visited := fun dir' =>
    ⟨hvisits.mem_visited, fun hmem => hvisits.reached dir' (List.mem_append_left _ hmem)⟩
  refine ⟨count, others, htours, hcount, hcollects.nodup, hcollects.mem_of_all hall,
    fun fuel hfuel => ?_⟩
  exact htours.walk_eq {} hfuel

def scattered : MemoryStore :=
  (((default : MemoryStore).put (.ofString "/1.temp.lob.db") [1]).put
    (.ofString "./x/2.t6.lob.db") [2]).put (.ofString "t//notes") [3]

/-- From the empty path all files are come to. -/
theorem tree_enumerated_scattered :
    ∃ count others, Survey.Tours scattered count [(⟨[]⟩, 0)] others ∧
      count ≤ FileStore.directoryBound scattered ∧
      (∃ path, (path, 1) ∈ others ∧ path.components = [.name ['t'], .name "notes".toList]) ∧
      (others.filterMap fun e => Survey.inTree? e.2 e.1).map (fun f => (f.owner, f.depth)) =
        [(.table ⟨6⟩, 2), (.temp, 1)] := by
  have hunnested : Unnested scattered := by
    apply MemoryStore.unnested
    decide +kernel
  obtain ⟨-, count, others, htours, hcount, -, hfiles, hwalk⟩ := tree_enumerated hunnested ⟨[]⟩
  have hnotes : (scattered.at? [.name ['t'], .name "notes".toList]).isSome := by decide +kernel
  obtain ⟨survey, hrun, hfound⟩ : ∃ survey : Survey,
      Survey.walk (FileStore.directoryBound scattered) [(⟨[]⟩, 0)] {} scattered =
        .ok survey scattered ∧
      survey.files.map (fun f => (f.owner, f.depth)) = [(.table ⟨6⟩, 2), (.temp, 1)] := ⟨_, rfl, rfl⟩
  obtain ⟨rfl, -⟩ := EStateM.Result.ok.inj ((hwalk _ hcount).symm.trans hrun)
  exact ⟨count, others, htours, hcount, (hfiles _ 1).2 ⟨hnotes, _, rfl, rfl⟩, hfound⟩

end MemoryStore

end LargeObjects
