import Mathlib
import LargeObjects.Proofs.Browsing
import LargeObjects.Proofs.Deeds

/-! The walk through a tree. Directories wait on a stack, and none gets there twice, so every directory
that can be reached is listed once, and what is found is what these hold. -/
namespace LargeObjects

open ReliableStore FallibleStore BrowsableStore Step

section Counting

variable {α : Type} {P : α → Prop} {a : α} {l : List α}

theorem ncard_mem_cons_of_pos (ha : a ∉ l) (hP : P a) :
    { x | x ∈ a :: l ∧ P x }.ncard = { x | x ∈ l ∧ P x }.ncard + 1 := by
  have hset : { x | x ∈ a :: l ∧ P x } = insert a { x | x ∈ l ∧ P x } := by
    ext x
    constructor
    · rintro ⟨hmem, hx⟩
      rcases List.mem_cons.1 hmem with rfl | hmem
      · exact Or.inl rfl
      · exact Or.inr ⟨hmem, hx⟩
    · rintro (rfl | ⟨hmem, hx⟩)
      · exact ⟨List.mem_cons_self, hP⟩
      · exact ⟨List.mem_cons_of_mem _ hmem, hx⟩
  rw [hset]
  refine Set.ncard_insert_of_notMem (fun h => ha h.1) ?_
  exact (List.finite_toSet l).subset fun x hx => hx.1

theorem ncard_mem_cons_of_neg (hP : ¬P a) :
    { x | x ∈ a :: l ∧ P x }.ncard = { x | x ∈ l ∧ P x }.ncard := by
  congr 1
  ext x
  constructor
  · rintro ⟨hmem, hx⟩
    rcases List.mem_cons.1 hmem with rfl | hmem
    · exact absurd hx hP
    · exact ⟨hmem, hx⟩
  · rintro ⟨hmem, hx⟩
    exact ⟨List.mem_cons_of_mem _ hmem, hx⟩

end Counting

variable {σ : Type} [FileStore σ] [FallibleStore σ]

def Unnested (s : σ) : Prop :=
  ∀ q c rest, (fileAt? (below s) q).isSome → fileAt? (below s) (q ++ c :: rest) = none

theorem MemoryStore.unnested {s : MemoryStore}
    (h : ∀ place ∈ s.files.keys, ∀ place' ∈ s.files.keys, place <+: place' → place = place') :
    Unnested s := by
  intro q c rest hfile
  by_contra hbelow
  have hbelow' := Option.isSome_iff_ne_none.2 hbelow
  have heq := h q (isSome_at?.1 hfile) _ (isSome_at?.1 hbelow') (List.prefix_append q (c :: rest))
  exact absurd (List.self_eq_append_right.1 heq) (List.cons_ne_nil c rest)

variable [BrowsableStore σ] {s : σ} {root dir q : List Component} {owner : Owner}

inductive Reached (s : σ) (root : List Component) : List Component → Prop
  | root : Reached s root root
  | step {dir : List Component} {c d : Component} {rest : List Component} : Reached s root dir →
    ¬Unlistable s dir → (fileAt? (below s) (dir ++ c :: d :: rest)).isSome →
    Reached s root (dir ++ [c])

theorem Reached.leads (h : Reached s root dir) : root <+: dir := by
  induction h with
  | root => exact List.prefix_refl _
  | step _ _ _ ih => exact ih.trans (List.prefix_append _ _)

/-- There are no more such directories than the store has. -/
theorem Reached.mem_directories (hs : Settled s) (root : List Component) :
    ∃ dirs : List (List Component), dirs.length < FileStore.directoryBound s ∧
      ∀ dir, Reached s root dir → dir ∈ root :: dirs := by
  obtain ⟨dirs, hlength, hdirs⟩ := exists_directories hs
  refine ⟨dirs, hlength, fun dir hreached => ?_⟩
  cases hreached with
  | root => exact List.mem_cons_self
  | @step above c d rest _ _ hfile =>
    refine List.mem_cons_of_mem _ (hdirs _ d rest ?_)
    rwa [List.append_assoc]

def Holds (s : σ) (parse : Name → Option (Owner × ObjectId)) (dir q : List Component)
    (owner : Owner) : Prop :=
  (fileAt? (below s) q).isSome ∧ ∃ name id, q = dir ++ [.name name] ∧ parse name = some (owner, id)

namespace Survey

/-- Directories that were come to: those visited, and those that are pending. What is in a visited one
that can be listed was come to, and what is pending comes from a visited one. -/
structure Visits (s : σ) (root : List Component) (pending visited : List (List Component)) : Prop where
  nodup : (visited ++ pending).Nodup
  reached : ∀ dir ∈ visited ++ pending, Reached s root dir
  root_mem : root ∈ visited ++ pending
  closed : ∀ {dir c d rest}, dir ∈ visited → ¬Unlistable s dir →
    (fileAt? (below s) (dir ++ c :: d :: rest)).isSome → dir ++ [c] ∈ visited ++ pending
  origin : ∀ dir ∈ visited ++ pending, dir = root ∨ ∃ above ∈ visited, ∃ c, dir = above ++ [c]

namespace Visits

variable {pending visited : List (List Component)}

theorem start (s : σ) (root : List Component) : Visits s root [root] [] where
  nodup := List.nodup_singleton root
  reached dir hmem := by
    rw [List.mem_singleton.1 hmem]
    exact .root
  root_mem := List.mem_singleton_self root
  closed h := absurd h List.not_mem_nil
  origin dir hmem := Or.inl (List.mem_singleton.1 hmem)

theorem notMem (h : Visits s root (dir :: pending) visited) : dir ∉ visited := fun hmem =>
  (List.nodup_append.1 h.nodup).2.2 dir hmem dir List.mem_cons_self rfl

theorem mem_step (children : List (List Component)) {dir' : List Component}
    (h : dir' ∈ visited ++ dir :: pending) :
    dir' ∈ (dir :: visited) ++ (children ++ pending) := by
  rcases List.mem_append.1 h with hvisited | hpending
  · exact List.mem_append_left _ (List.mem_cons_of_mem _ hvisited)
  · rcases List.mem_cons.1 hpending with rfl | hpending
    · exact List.mem_append_left _ List.mem_cons_self
    · exact List.mem_append_right _ (List.mem_append_right _ hpending)

/-- The next directory is visited, and what is found in it is pending. -/
theorem visit (h : Visits s root (dir :: pending) visited) {children : List (List Component)}
    (hnodup : children.Nodup)
    (hchildren : ∀ q ∈ children, ∃ c, q = dir ++ [c] ∧ Reached s root q)
    (hclosed : ∀ {c d rest}, ¬Unlistable s dir →
      (fileAt? (below s) (dir ++ c :: d :: rest)).isSome → dir ++ [c] ∈ children) :
    Visits s root (children ++ pending) (dir :: visited) := by
  have hmem : ∀ dir' ∈ (dir :: visited) ++ (children ++ pending),
      dir' ∈ visited ++ dir :: pending ∨ dir' ∈ children := by
    intro dir' hmem
    rcases List.mem_append.1 hmem with hmem | hmem
    · rcases List.mem_cons.1 hmem with rfl | hmem
      · exact Or.inl (List.mem_append_right _ List.mem_cons_self)
      · exact Or.inl (List.mem_append_left _ hmem)
    · rcases List.mem_append.1 hmem with hmem | hmem
      · exact Or.inr hmem
      · exact Or.inl (List.mem_append_right _ (List.mem_cons_of_mem _ hmem))
  -- A child that was come to before would have come from its directory, which was not visited.
  have hfresh : ∀ q ∈ children, q ∉ visited ++ dir :: pending := by
    intro q hq hold
    obtain ⟨c, rfl, -⟩ := hchildren q hq
    rcases h.origin _ hold with hroot | ⟨above, habove, c', heq⟩
    · have hlength := (h.reached dir (List.mem_append_right _ List.mem_cons_self)).leads.length_le
      rw [← hroot, List.length_append, List.length_singleton] at hlength
      omega
    · obtain ⟨rfl, -⟩ := List.append_inj' heq rfl
      exact h.notMem habove
  refine ⟨?_, fun dir' h' => ?_, mem_step _ h.root_mem, fun {dir' c d rest} hdir' hlistable hfile => ?_,
    fun dir' h' => ?_⟩
  · have hperm : ((dir :: visited) ++ (children ++ pending)).Perm
        (children ++ (visited ++ dir :: pending)) := by
      rw [← List.append_assoc]
      refine (List.perm_append_comm.append_right pending).trans ?_
      rw [List.append_assoc]
      exact (List.perm_middle.symm).append_left children
    refine hperm.nodup_iff.2 (List.nodup_append.2 ⟨hnodup, h.nodup, ?_⟩)
    rintro q hq q' hq' rfl
    exact hfresh q hq hq'
  · rcases hmem dir' h' with hold | hchild
    · exact h.reached dir' hold
    · obtain ⟨c, -, hreached⟩ := hchildren dir' hchild
      exact hreached
  · rcases List.mem_cons.1 hdir' with rfl | hvisited
    · exact List.mem_append_right _ (List.mem_append_left _ (hclosed hlistable hfile))
    · exact mem_step _ (h.closed hvisited hlistable hfile)
  · rcases hmem dir' h' with hold | hchild
    · rcases h.origin dir' hold with hroot | ⟨above, habove, hc⟩
      · exact Or.inl hroot
      · exact Or.inr ⟨above, List.mem_cons_of_mem _ habove, hc⟩
    · obtain ⟨c, heq, -⟩ := hchildren dir' hchild
      exact Or.inr ⟨dir, List.mem_cons_self, c, heq⟩

/-- When nothing is pending, everything that can be reached was visited. -/
theorem mem_visited (h : Visits s root [] visited) (hdir : Reached s root dir) : dir ∈ visited := by
  have hvisits := List.append_nil visited
  induction hdir with
  | root =>
    have hmem := h.root_mem
    rwa [hvisits] at hmem
  | step _ hlistable hfile ih =>
    have hmem := h.closed ih hlistable hfile
    rwa [hvisits] at hmem

/-- There are enough steps for all directories. -/
theorem length_le (h : Visits s root pending visited) (hs : Settled s) :
    (visited ++ pending).length ≤ FileStore.directoryBound s := by
  obtain ⟨dirs, hlength, hdirs⟩ := Reached.mem_directories hs root
  have hsub : visited ++ pending ⊆ root :: dirs := fun dir hmem => hdirs dir (h.reached dir hmem)
  have hle := (List.subperm_of_subset h.nodup hsub).length_le
  rw [List.length_cons] at hle
  omega

/-- When as many were visited as there can be, none is pending. -/
theorem pending_eq_nil (h : Visits s root pending visited) (hs : Settled s)
    (hfull : FileStore.directoryBound s ≤ visited.length) : pending = [] := by
  have hlength := h.length_le hs
  rw [List.length_append] at hlength
  exact List.length_eq_zero_iff.1 (by omega)

end Visits

structure Reads (found : Path → Option Found) (parse : Name → Option (Owner × ObjectId)) : Prop where
  path_eq {path : Path} {f : Found} : found path = some f → f.path = path ∧
    ∃ name id, path.fileName? = some name ∧ parse name = some (f.owner, id)
  exists_found {path : Path} {name : Name} {owner : Owner} {id : ObjectId} :
    path.fileName? = some name → parse name = some (owner, id) →
      ∃ f, found path = some f ∧ f.owner = owner

theorem reads_inTree (depth : Nat) : Reads (inTree? depth) Naming.parseSharded? where
  path_eq h := by
    obtain ⟨name, hname, h⟩ := Option.bind_eq_some_iff.1 h
    obtain ⟨⟨owner, id⟩, hparse, h⟩ := Option.bind_eq_some_iff.1 h
    cases h
    exact ⟨rfl, name, id, hname, hparse⟩
  exists_found hname hparse := by
    unfold inTree?
    rw [hname, Option.bind_eq_bind, Option.bind_some, hparse]
    exact ⟨_, rfl, rfl⟩

theorem reads_inFlat (n : Naming) : Reads (inFlat? n) n.parseFlat? where
  path_eq h := by
    obtain ⟨name, hname, h⟩ := Option.bind_eq_some_iff.1 h
    obtain ⟨⟨owner, id⟩, hparse, h⟩ := Option.bind_eq_some_iff.1 h
    cases h
    exact ⟨rfl, name, id, hname, hparse⟩
  exists_found hname hparse := by
    unfold inFlat?
    rw [hname, Option.bind_eq_bind, Option.bind_some, hparse]
    exact ⟨_, rfl, rfl⟩

/-- Whether entries or what is found among them are sifted makes no difference. -/
theorem Reads.filter_found {found : Path → Option Found} {parse : Name → Option (Owner × ObjectId)}
    (h : Reads found parse) (entries : List Path) (p : Path → Bool) :
    (entries.filterMap found).filter (fun f => p f.path) = (entries.filter p).filterMap found := by
  rw [List.filter_filterMap, List.filterMap_filter]
  apply List.filterMap_congr
  intro path _
  cases hfound : found path with
  | none =>
    rw [Option.filter_none]
    exact (ite_self _).symm
  | some f => rw [Option.filter_some, (h.path_eq hfound).1]

section Listing

variable {entries : List Path} {found : Path → Option Found}
  {parse : Name → Option (Owner × ObjectId)}

def Lists (s : σ) (dir : List Component) (entries : List Path) : Prop :=
  (entries.map (·.components)).Nodup ∧ ∀ q, q ∈ entries.map (·.components) ↔
    ∃ c rest, q = dir ++ [c] ∧ (fileAt? (below s) (q ++ rest)).isSome

def taken (s : σ) (found : Path → Option Found) (entries : List Path) : List Found :=
  (entries.filter fun path => !FileStore.isDirectory path s).filterMap found

omit [FallibleStore σ] [BrowsableStore σ] in
theorem map_taken_sublist (hreads : Reads found parse) (entries : List Path) :
    ((taken s found entries).map (·.path.components)).Sublist (entries.map (·.components)) := by
  have hsub : ∀ l : List Path, ((l.filterMap found).map (·.path.components)).Sublist
      (l.map (·.components)) := by
    intro l
    induction l with
    | nil => exact List.Sublist.refl _
    | cons path rest ih =>
      cases hfound : found path with
      | none =>
        rw [List.filterMap_cons_none hfound]
        exact ih.cons _
      | some f =>
        rw [List.filterMap_cons_some hfound, List.map_cons, (hreads.path_eq hfound).1]
        exact ih.cons_cons _
  exact (hsub _).trans (List.filter_sublist.map _)

/-- The entries that are no directories are the files right in it. -/
theorem mem_files (hs : Settled s) (hunnested : Unnested s) (hlists : Lists s dir entries)
    (q : List Component) :
    q ∈ (entries.filter fun path => !FileStore.isDirectory path s).map (·.components) ↔
      (fileAt? (below s) q).isSome ∧ ∃ c, q = dir ++ [c] := by
  obtain ⟨-, hentries⟩ := hlists
  constructor
  · intro hmem
    obtain ⟨path, hpath, rfl⟩ := List.mem_map.1 hmem
    obtain ⟨hentry, hfile⟩ := List.mem_filter.1 hpath
    obtain ⟨c, rest, hstep, hthere⟩ := (hentries _).1 (List.mem_map_of_mem hentry)
    -- An entry that is no directory is the file that it leads to.
    have hrest : rest = [] := by
      rcases rest with _ | ⟨d, rest⟩
      · rfl
      · rw [(isDirectory_iff hs).2 ⟨d, rest, hthere⟩] at hfile
        cases hfile
    rw [hrest, List.append_nil] at hthere
    exact ⟨hthere, c, hstep⟩
  · rintro ⟨hthere, c, rfl⟩
    obtain ⟨path, hentry, hpath⟩ := List.mem_map.1
      ((hentries (dir ++ [c])).2 ⟨c, [], rfl, by rwa [List.append_nil]⟩)
    refine List.mem_map.2 ⟨path, List.mem_filter.2 ⟨hentry, ?_⟩, hpath⟩
    cases hdirectory : FileStore.isDirectory path s with
    | false => rfl
    | true =>
      obtain ⟨c, rest, hbelow⟩ := (isDirectory_iff hs).1 hdirectory
      rw [hpath, hunnested _ c rest hthere] at hbelow
      cases hbelow

/-- They are the files that the directory holds. -/
theorem mem_taken (hreads : Reads found parse) (hs : Settled s) (hunnested : Unnested s)
    (hlists : Lists s dir entries) (q : List Component) (owner : Owner) :
    (∃ f ∈ taken s found entries, f.path.components = q ∧ f.owner = owner) ↔
      Holds s parse dir q owner := by
  constructor
  · rintro ⟨f, hmem, rfl, rfl⟩
    obtain ⟨path, hpath, hfound⟩ := List.mem_filterMap.1 hmem
    obtain ⟨hsame, name, id, hname, hparse⟩ := hreads.path_eq hfound
    obtain ⟨hthere, c, hstep⟩ :=
      (mem_files hs hunnested hlists _).1 (List.mem_map_of_mem (f := (·.components)) hpath)
    have hc : c = .name name := by
      unfold Path.fileName? at hname
      rw [hstep, List.getLast?_concat] at hname
      split at hname
      next hlast =>
        cases hname
        exact Option.some.inj hlast
      next => cases hname
    rw [hsame]
    exact ⟨hthere, name, id, by rw [hstep, hc], hparse⟩
  · rintro ⟨hthere, name, id, rfl, hparse⟩
    obtain ⟨path, hfile, hpath⟩ := List.mem_map.1
      ((mem_files hs hunnested hlists (dir ++ [.name name])).2 ⟨hthere, _, rfl⟩)
    have hname : path.fileName? = some name := Path.fileName?_of_components hpath
    obtain ⟨f, hfound, howner⟩ := hreads.exists_found hname hparse
    refine ⟨f, List.mem_filterMap.2 ⟨path, hfile, hfound⟩, ?_, howner⟩
    rw [(hreads.path_eq hfound).1, hpath]

/-- Its other entries are the directories in it. -/
theorem mem_directories (hs : Settled s) (hlists : Lists s dir entries) (q : List Component) :
    q ∈ (entries.filter (FileStore.isDirectory · s)).map (·.components) ↔
      ∃ c d rest, q = dir ++ [c] ∧ (fileAt? (below s) (dir ++ c :: d :: rest)).isSome := by
  obtain ⟨-, hentries⟩ := hlists
  constructor
  · intro hmem
    obtain ⟨path, hpath, rfl⟩ := List.mem_map.1 hmem
    obtain ⟨hentry, hdirectory⟩ := List.mem_filter.1 hpath
    obtain ⟨c, -, hstep, -⟩ := (hentries _).1 (List.mem_map_of_mem hentry)
    obtain ⟨d, rest, hthere⟩ := (isDirectory_iff hs).1 hdirectory
    rw [hstep, List.append_assoc] at hthere
    exact ⟨c, d, rest, hstep, hthere⟩
  · rintro ⟨c, d, rest, rfl, hthere⟩
    have hsplit : dir ++ c :: d :: rest = dir ++ [c] ++ d :: rest := by
      rw [List.append_assoc]
      rfl
    rw [hsplit] at hthere
    obtain ⟨path, hentry, hpath⟩ := List.mem_map.1 ((hentries _).2 ⟨c, d :: rest, rfl, hthere⟩)
    rw [← hpath] at hthere
    have hdirectory := (isDirectory_iff hs).2 ⟨d, rest, hthere⟩
    exact List.mem_map.2 ⟨path, List.mem_filter.2 ⟨hentry, hdirectory⟩, hpath⟩

def pushed (s : σ) (depth : Nat) (entries : List Path) : List (Path × Nat) :=
  ((entries.filter (FileStore.isDirectory · s)).map fun path => (path, depth + 1)).reverse

theorem of_mem_pushed (hs : Settled s) (hlists : Lists s dir entries) {depth : Nat}
    {p : Path × Nat} (h : p ∈ pushed s depth entries) :
    p.2 = depth + 1 ∧ ∃ c, p.1.components = dir ++ [c] := by
  obtain ⟨path, hpath, rfl⟩ := List.mem_map.1 (List.mem_reverse.1 h)
  obtain ⟨c, d, rest, hstep, -⟩ := (mem_directories hs hlists _).1 (List.mem_map_of_mem hpath)
  exact ⟨rfl, c, hstep⟩

/-- A directory that can be listed is visited. -/
theorem Visits.list {first : Path} {depth : Nat} {pending : List (Path × Nat)}
    {visited : List (List Component)}
    (h : Visits s root (((first, depth) :: pending).map (·.1.components)) visited) (hs : Settled s)
    (hlistable : ¬Unlistable s first.components) (hlists : Lists s first.components entries) :
    Visits s root ((pushed s depth entries ++ pending).map (·.1.components))
      (first.components :: visited) := by
  have hreached := h.reached first.components (List.mem_append_right _ List.mem_cons_self)
  -- On the stack, what the directory holds takes its place.
  have hmap : (pushed s depth entries ++ pending).map (·.1.components) =
      ((entries.filter (FileStore.isDirectory · s)).map (·.components)).reverse ++
        pending.map (·.1.components) := by
    unfold pushed
    rw [List.map_append, List.map_reverse, List.map_map]
    rfl
  rw [hmap]
  refine h.visit ?_ (fun q hq => ?_) fun _ hfile => ?_
  · exact List.nodup_reverse.2 (hlists.1.sublist (List.filter_sublist.map _))
  · obtain ⟨c, d, rest, rfl, hfile⟩ := (mem_directories hs hlists q).1 (List.mem_reverse.1 hq)
    exact ⟨c, rfl, hreached.step hlistable hfile⟩
  · exact List.mem_reverse.2 ((mem_directories hs hlists _).2 ⟨_, _, _, rfl, hfile⟩)

end Listing

structure Records (s : σ) (root : List Component) (visited : List (List Component))
    (survey : Survey) : Prop where
  nodup : (survey.files.map (·.path.components)).Nodup
  mem_files : ∀ q owner, (∃ f ∈ survey.files, f.path.components = q ∧ f.owner = owner) ↔
    ∃ dir ∈ visited, ¬Unlistable s dir ∧ Holds s Naming.parseSharded? dir q owner
  unreadable_eq : survey.unreadable =
    { dir | dir ∈ visited ∧ (dir ≠ root ∧ Unlistable s dir) }.ncard

namespace Records

variable {visited : List (List Component)} {survey : Survey}

theorem start (s : σ) (root : List Component) : Records s root [] {} where
  nodup := List.nodup_nil
  mem_files q owner := by
    constructor
    · rintro ⟨f, hmem, -⟩
      cases hmem
    · rintro ⟨dir, hmem, -⟩
      cases hmem
  unreadable_eq := by
    rw [show { dir | dir ∈ ([] : List (List Component)) ∧ (dir ≠ root ∧ Unlistable s dir) } = ∅ from
      Set.eq_empty_of_forall_notMem fun _ h => List.not_mem_nil h.1]
    exact Set.ncard_empty _ |>.symm

theorem list (h : Records s root visited survey) (hs : Settled s) (hunnested : Unnested s)
    (hnew : dir ∉ visited) (hlistable : ¬Unlistable s dir) {entries : List Path}
    (hlists : Lists s dir entries) (depth : Nat) :
    Records s root (dir :: visited)
      { survey with files := survey.files ++ taken s (inTree? depth) entries } where
  nodup := by
    rw [List.map_append]
    refine List.nodup_append.2
      ⟨h.nodup, hlists.1.sublist (map_taken_sublist (reads_inTree depth) entries), ?_⟩
    rintro q hold q' hfresh rfl
    obtain ⟨f, hf, hq⟩ := List.mem_map.1 hold
    obtain ⟨f', hf', hq'⟩ := List.mem_map.1 hfresh
    obtain ⟨dir', hvisited, -, -, name, id, hplace, -⟩ := (h.mem_files q f.owner).1 ⟨f, hf, hq, rfl⟩
    obtain ⟨-, name', id', hplace', -⟩ :=
      (mem_taken (reads_inTree depth) hs hunnested hlists q f'.owner).1 ⟨f', hf', hq', rfl⟩
    -- A file is in one directory, which would have been visited before.
    obtain ⟨rfl, -⟩ := List.append_inj' (hplace.symm.trans hplace') rfl
    exact hnew hvisited
  mem_files q owner := by
    constructor
    · rintro ⟨f, hmem, hf⟩
      rcases List.mem_append.1 hmem with hold | hfresh
      · obtain ⟨dir', hvisited, hdir'⟩ := (h.mem_files q owner).1 ⟨f, hold, hf⟩
        exact ⟨dir', List.mem_cons_of_mem _ hvisited, hdir'⟩
      · have hholds := (mem_taken (reads_inTree depth) hs hunnested hlists q owner).1 ⟨f, hfresh, hf⟩
        exact ⟨dir, List.mem_cons_self, hlistable, hholds⟩
    · rintro ⟨dir', hmem, hdir'⟩
      rcases List.mem_cons.1 hmem with rfl | hvisited
      · obtain ⟨f, hfresh, hf⟩ :=
          (mem_taken (reads_inTree depth) hs hunnested hlists q owner).2 hdir'.2
        exact ⟨f, List.mem_append_right _ hfresh, hf⟩
      · obtain ⟨f, hold, hf⟩ := (h.mem_files q owner).2 ⟨dir', hvisited, hdir'⟩
        exact ⟨f, List.mem_append_left _ hold, hf⟩
  unreadable_eq := by
    rw [ncard_mem_cons_of_neg fun hdir => hlistable hdir.2]
    exact h.unreadable_eq

theorem skip (h : Records s root visited survey) (hnew : dir ∉ visited) (hroot : dir ≠ root)
    (hrefused : Unlistable s dir) :
    Records s root (dir :: visited) { survey with unreadable := survey.unreadable + 1 } where
  nodup := h.nodup
  mem_files q owner := by
    rw [h.mem_files]
    constructor
    · rintro ⟨dir', hvisited, hdir'⟩
      exact ⟨dir', List.mem_cons_of_mem _ hvisited, hdir'⟩
    · rintro ⟨dir', hmem, hdir'⟩
      rcases List.mem_cons.1 hmem with rfl | hvisited
      · exact absurd hrefused hdir'.1
      · exact ⟨dir', hvisited, hdir'⟩
  unreadable_eq := by
    rw [ncard_mem_cons_of_pos hnew ⟨hroot, hrefused⟩, ← h.unreadable_eq]

end Records

/-- When the root can be listed, the walk comes to every directory and to each once. -/
theorem walk_spec (hs : Settled s) (hunnested : Unnested s) (hroot : root ≠ [])
    (hlistable : ¬Unlistable s root) {fuel : Nat} {pending : List (Path × Nat)}
    {visited : List (List Component)} {survey : Survey}
    (hvisits : Visits s root (pending.map (·.1.components)) visited)
    (hrecords : Records s root visited survey)
    (hdepth : ∀ p ∈ pending, p.2 = 0 → p.1.components = root)
    (hfuel : FileStore.directoryBound s ≤ visited.length + fuel) :
    ∃ survey' visited', walk fuel pending survey s = .ok survey' s ∧ Visits s root [] visited' ∧
      Records s root visited' survey' := by
  induction fuel generalizing pending visited survey with
  | zero =>
    have hnil := List.map_eq_nil_iff.1 (hvisits.pending_eq_nil hs hfuel)
    rw [hnil] at hvisits ⊢
    exact ⟨survey, visited, rfl, hvisits, hrecords⟩
  | succ fuel ih =>
    cases pending with
    | nil => exact ⟨survey, visited, rfl, hvisits, hrecords⟩
    | cons first pending =>
      obtain ⟨dir, depth⟩ := first
      have hreached := hvisits.reached dir.components (List.mem_append_right _ List.mem_cons_self)
      have hnew : dir.components ∉ visited := hvisits.notMem
      have hfuel' : FileStore.directoryBound s ≤ (dir.components :: visited).length + fuel := by
        rw [List.length_cons]
        omega
      by_cases hrefused : Unlistable s dir.components
      · obtain ⟨e, hlist⟩ := list_refused hs hrefused
        have hne : dir.components ≠ root := fun heq => hlistable (heq ▸ hrefused)
        have hpositive : depth ≠ 0 := fun hzero => hne (hdepth _ List.mem_cons_self hzero)
        rw [walk_error fuel hpositive pending survey hlist]
        have hnext : Visits s root (pending.map (·.1.components)) (dir.components :: visited) :=
          hvisits.visit List.nodup_nil (fun _ h => nomatch h) fun hgranted => absurd hrefused hgranted
        exact ih hnext (hrecords.skip hnew hne hrefused)
          (fun p hp => hdepth p (List.mem_cons_of_mem _ hp)) hfuel'
      · have hsome : dir.components ≠ [] := fun hnil =>
          hroot (List.prefix_nil.1 (hnil ▸ hreached.leads))
        obtain ⟨entries, hlist, hlists⟩ := list_granted hs hrefused hsome
        rw [walk_ok fuel depth pending survey hlist]
        refine ih (hvisits.list hs hrefused hlists)
          (hrecords.list hs hunnested hnew hrefused hlists depth) (fun p hp hzero => ?_) hfuel'
        rcases List.mem_append.1 hp with hchild | hold
        · rw [(of_mem_pushed hs hlists hchild).1] at hzero
          cases hzero
        · exact hdepth p (List.mem_cons_of_mem _ hold) hzero

end Survey

end LargeObjects
