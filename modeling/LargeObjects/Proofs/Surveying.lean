import Mathlib
import LargeObjects.Proofs.Listing
import LargeObjects.Proofs.Walking

/-! Searches for files in two stores with the same files. A file system also walks through directories
that have lost all their files, and finds nothing there; otherwise both searches find the same files in
the same order. -/
namespace LargeObjects

open Step Disk
open scoped Classical

namespace Ground

variable {g : Ground} {d : Disk} {s : MemoryStore} {dir p : Path} {names rest : List Name} {t : Name}

def Holds (g : Ground) (p : Path) : Prop := ∃ names, g.Seat names ∧ g.Spells p names

/-- What has a file at it or below bears a file itself, or goes on to what does. -/
theorem Bears.before (h : g.Bears d (names ++ rest)) : g.Bears d names := by
  obtain ⟨more, n, hseat, hn⟩ := h
  rw [List.append_assoc] at hseat hn
  exact ⟨rest ++ more, n, hseat, hn⟩

section Entries

variable (h : Twins g s d) (hnames : ∀ u ∈ names, IsName u)
  (hjoin : ∀ t ∈ d.namesIn g.start names, g.Spells (dir.join t) (names ++ [t]))
include h hnames hjoin

/-- What is no directory is a file. -/
theorem seat_of_not_isDirectory (ht : t ∈ d.namesIn g.start names)
    (hdirectory : FileStore.isDirectory (dir.join t) d = false) :
    g.Seat (names ++ [t]) ∧ g.Bears d (names ++ [t]) := by
  rcases h.houses.entry_cases hnames ht with ⟨hseat, n, hn⟩ | ⟨-, m, hm⟩
  · refine ⟨hseat, [], n, ?_, ?_⟩
    · rwa [List.append_nil]
    · rwa [List.append_nil]
  · have hyes : FileStore.isDirectory (dir.join t) d = true := isDirectory_of_descend (hjoin t ht) hm
    rw [hyes] at hdirectory
    cases hdirectory

theorem way_of_isDirectory (ht : t ∈ d.namesIn g.start names)
    (hdirectory : FileStore.isDirectory (dir.join t) d = true) :
    g.Way (names ++ [t]) ∧ ∃ m, d.descend g.start (names ++ [t]) = .ok m := by
  rcases h.houses.entry_cases hnames ht with ⟨hseat, -⟩ | hway
  · cases hdirectory.symm.trans (h.houses.isDirectory_of_seat hseat (hjoin t ht))
  · exact hway

/-- The files in a directory are the same for both. -/
theorem files_twins : ((d.namesIn g.start names).filter fun t => g.Bears d (names ++ [t])).filter
      (fun t => !FileStore.isDirectory (dir.join t) s) =
    (d.namesIn g.start names).filter fun t => !FileStore.isDirectory (dir.join t) d := by
  rw [List.filter_filter]
  refine List.filter_congr fun t ht => ?_
  by_cases hbears : g.Bears d (names ++ [t])
  · rw [isDirectory_eq h hnames ht hbears (hjoin t ht), decide_eq_true hbears, Bool.and_true]
  · rw [decide_eq_false hbears, Bool.and_false]
    cases hdirectory : FileStore.isDirectory (dir.join t) d with
    | true => rfl
    | false => exact absurd (seat_of_not_isDirectory h hnames hjoin ht hdirectory).2 hbears

/-- The directories in it are the same but for those without files. -/
theorem directories_twins :
    ((d.namesIn g.start names).filter fun t => g.Bears d (names ++ [t])).filter
      (fun t => FileStore.isDirectory (dir.join t) s) =
    ((d.namesIn g.start names).filter fun t => FileStore.isDirectory (dir.join t) d).filter
      fun t => g.Bears d (names ++ [t]) := by
  rw [List.filter_filter, List.filter_filter]
  refine List.filter_congr fun t ht => ?_
  by_cases hbears : g.Bears d (names ++ [t])
  · rw [isDirectory_eq h hnames ht hbears (hjoin t ht), decide_eq_true hbears, Bool.and_true,
      Bool.true_and]
  · rw [decide_eq_false hbears, Bool.and_false, Bool.false_and]

end Entries

/-- Directories that a walk has come to, by the names that lead to them: those seen, and those that
are still to be listed. All but the first were found in one that has been seen. -/
structure Toured (g : Ground) (d : Disk) (first : List Name) (seen queue : List (List Name)) : Prop where
  nodup : (seen ++ queue).Nodup
  below : ∀ rest ∈ seen ++ queue, first <+: rest
  way : ∀ rest ∈ seen ++ queue, g.Way (g.names ++ rest)
  there : ∀ rest ∈ seen ++ queue, ∃ k, d.descend g.start (g.names ++ rest) = .ok k
  origin : ∀ rest ∈ seen ++ queue, rest = first ∨ rest.dropLast ∈ seen

namespace Toured

variable {first : List Name} {seen queue : List (List Name)}

/-- The next directory is seen, and the directories in it are added. -/
theorem visit (h : Toured g d first seen (rest :: queue)) {children : List Name} (hnodup : children.Nodup)
    (hway : ∀ t ∈ children, g.Way (g.names ++ rest ++ [t]) ∧
      ∃ m, d.descend g.start (g.names ++ rest ++ [t]) = .ok m) :
    Toured g d first (rest :: seen) (children.map (fun t => rest ++ [t]) ++ queue) := by
  have hold : ∀ x, x ∈ seen ++ rest :: queue ↔ x ∈ rest :: seen ++ queue := by
    intro x
    simp only [List.mem_append, List.mem_cons]
    tauto
  have hcases : ∀ x ∈ rest :: seen ++ (children.map (fun t => rest ++ [t]) ++ queue),
      x ∈ seen ++ rest :: queue ∨ ∃ t ∈ children, x = rest ++ [t] := by
    intro x hx
    rw [hold]
    simp only [List.mem_append, List.mem_cons, List.mem_map] at hx ⊢
    rcases hx with hx | ⟨t, ht, rfl⟩ | hx
    · exact Or.inl (Or.inl hx)
    · exact Or.inr ⟨t, ht, rfl⟩
    · exact Or.inl (Or.inr hx)
  have hrest := (hold rest).2 (List.mem_append_left _ List.mem_cons_self)
  -- A directory that is found now was not found before: it is not the first one, and the one that it
  -- is in was not seen.
  have hnew : ∀ t, rest ++ [t] ∉ rest :: seen ++ queue := by
    intro t hmem
    rcases h.origin _ ((hold _).2 hmem) with hfirst | hseen
    · have hlength := (h.below rest hrest).length_le
      rw [← hfirst, List.length_append, List.length_singleton] at hlength
      omega
    · rw [List.dropLast_concat] at hseen
      exact (List.nodup_append.1 h.nodup).2.2 rest hseen rest List.mem_cons_self rfl
  have hinj : Function.Injective fun t : Name => rest ++ [t] := fun t u htu => by
    simpa using htu
  have hperm : (rest :: seen ++ (children.map (fun t => rest ++ [t]) ++ queue)).Perm
      (children.map (fun t => rest ++ [t]) ++ (seen ++ rest :: queue)) := by
    refine ((List.perm_append_comm_assoc _ _ _).trans (List.Perm.append_left _ ?_))
    exact List.perm_middle.symm
  refine ⟨hperm.nodup_iff.2 ?_, fun x hx => ?_, fun x hx => ?_, fun x hx => ?_, fun x hx => ?_⟩
  · refine List.nodup_append.2 ⟨hnodup.map hinj, h.nodup, fun x hx y hy hxy => ?_⟩
    obtain ⟨t, -, rfl⟩ := List.mem_map.1 hx
    rw [← hxy] at hy
    exact hnew t ((hold _).1 hy)
  · rcases hcases x hx with hx | ⟨t, -, rfl⟩
    · exact h.below x hx
    · exact (h.below rest hrest).trans (List.prefix_append _ _)
  · rcases hcases x hx with hx | ⟨t, ht, rfl⟩
    · exact h.way x hx
    · rw [← List.append_assoc]
      exact (hway t ht).1
  · rcases hcases x hx with hx | ⟨t, ht, rfl⟩
    · exact h.there x hx
    · rw [← List.append_assoc]
      exact (hway t ht).2
  · rcases hcases x hx with hx | ⟨t, ht, rfl⟩
    · exact (h.origin x hx).imp_right (List.mem_cons_of_mem _)
    · right
      rw [List.dropLast_concat]
      exact List.mem_cons_self

theorem isName (h : Toured g d first seen queue) (hrest : rest ∈ seen ++ queue) :
    ∀ u ∈ g.names ++ rest, IsName u := (h.way rest hrest).isName

/-- There are no more of them than directories. -/
theorem length_le (h : Toured g d first seen queue) (hd : g.Houses d) :
    (seen ++ queue).length ≤ d.directories.size := by
  choose! number hnumber using h.there
  have hnodup : ((seen ++ queue).map number).Nodup := by
    refine h.nodup.map_on fun x hx y hy hxy => ?_
    have hx' := hnumber x hx
    rw [hxy] at hx'
    exact List.append_cancel_left (hd.names_unique (h.isName hx) (h.isName hy) hx' (hnumber y hy))
  have hsub : (seen ++ queue).map number ⊆ List.range d.directories.size := by
    intro k hk
    obtain ⟨x, hx, rfl⟩ := List.mem_map.1 hk
    exact List.mem_range.2 (hd.tree.sound.foldlM_follow_lt (g.start_lt hd.tree.sound) (hnumber x hx))
  have hle := (List.subperm_of_subset hnodup hsub).length_le
  rwa [List.length_map, List.length_range] at hle

/-- Those with files below are directories in memory as well. -/
theorem length_bearing_lt (h : Toured g d first seen queue) (htwins : Twins g s d) :
    ((seen ++ queue).filter fun rest => g.Bears d (g.names ++ rest)).length <
      FileStore.directoryBound s := by
  refine Nat.lt_of_le_of_lt ?_ s.length_above
  have hnodup : (((seen ++ queue).filter fun rest => g.Bears d (g.names ++ rest)).map
      fun rest => g.place (g.names ++ rest)).Nodup := by
    refine (h.nodup.filter _).map fun x y hxy => ?_
    exact List.append_cancel_left (place_injective hxy)
  have hsub : (((seen ++ queue).filter fun rest => g.Bears d (g.names ++ rest)).map
      fun rest => g.place (g.names ++ rest)) ⊆ s.above := by
    intro place hplace
    obtain ⟨rest, hrest, rfl⟩ := List.mem_map.1 hplace
    obtain ⟨hmem, hbears⟩ := List.mem_filter.1 hrest
    obtain ⟨more, n, hseat, hn⟩ := of_decide_eq_true hbears
    cases more with
    | nil =>
      rw [List.append_nil] at hseat
      exact absurd (h.way rest hmem) hseat.not_way
    | cons t more =>
      have hat := htwins.same hseat
      rw [hn, place_append] at hat
      have hfile : (s.at? (g.place (g.names ++ rest) ++ Component.name t :: more.map .name)).isSome :=
        Option.isSome_of_eq_some hat
      exact MemoryStore.mem_above hfile
  have hle := (List.subperm_of_subset hnodup hsub).length_le
  rwa [List.length_map] at hle

end Toured

def stop (g : Ground) (x : List Name × Nat) : Path × Nat := (g.path x.1, x.2)

variable {first : List Name} {seen : List (List Name)} {queue : List (List Name × Nat)} {survey : Survey}

def ahead (children : List Name) (rest : List Name) (depth : Nat) : List (List Name × Nat) :=
  children.reverse.map fun t => (rest ++ [t], depth + 1)

theorem stop_ahead (children : List Name) (rest : List Name) (depth : Nat) :
    ((children.map (g.path rest).join).map fun path => (path, depth + 1)).reverse =
      (ahead children rest depth).map g.stop := by
  unfold ahead
  rw [← List.map_reverse, ← List.map_reverse, List.map_map, List.map_map]
  refine List.map_congr_left fun t _ => ?_
  simp only [Function.comp_apply, stop, path_concat]

theorem filter_ahead (d : Disk) (children : List Name) (rest : List Name) (depth : Nat) :
    (ahead children rest depth).filter (fun x => g.Bears d (g.names ++ x.1)) =
      ahead (children.filter fun t => g.Bears d (g.names ++ rest ++ [t])) rest depth := by
  unfold ahead
  rw [List.filter_map, ← List.filter_reverse]
  refine congrArg (List.map _) (List.filter_congr fun t _ => ?_)
  simp only [Function.comp_apply, List.append_assoc]

theorem map_fst_ahead (children : List Name) (rest : List Name) (depth : Nat) :
    (ahead children rest depth).map Prod.fst = children.reverse.map fun t => rest ++ [t] := by
  unfold ahead
  rw [List.map_map]
  rfl

theorem walk_names {σ : Type} [FileStore σ] {store : σ} {listed : List Name}
    (hlist : FileStore.list (g.path rest) store = .ok (listed.map (g.path rest).join) store)
    (fuel depth : Nat) (pending : List (Path × Nat)) (survey : Survey) :
    Survey.walk (fuel + 1) ((g.path rest, depth) :: pending) survey store =
      Survey.walk fuel
        ((ahead (listed.filter fun t => FileStore.isDirectory ((g.path rest).join t) store) rest depth).map
          g.stop ++ pending)
        ⟨survey.files ++
          (listed.filter fun t => !FileStore.isDirectory ((g.path rest).join t) store).filterMap
            (Survey.inTree? depth ∘ (g.path rest).join), survey.unreadable⟩ store := by
  rw [Survey.walk_ok fuel depth pending survey hlist, List.filter_map, List.filter_map, stop_ahead,
    List.filterMap_map]
  rfl

structure Stage (g : Ground) (s : MemoryStore) (d : Disk) (rest listed dirs files : List Name) :
    Prop where
  disk : FileStore.list (g.path rest) d = .ok (listed.map (g.path rest).join) d
  memory : FileStore.list (g.path rest) s = .ok
    ((listed.filter fun t => g.Bears d (g.names ++ rest ++ [t])).map (g.path rest).join) s
  nodup : dirs.Nodup
  way : ∀ t ∈ dirs, g.Way (g.names ++ rest ++ [t]) ∧
    ∃ m, d.descend g.start (g.names ++ rest ++ [t]) = .ok m
  seat : ∀ t ∈ files, g.Seat (g.names ++ rest ++ [t]) ∧ g.Bears d (g.names ++ rest ++ [t])
  dirs_eq : listed.filter (fun t => FileStore.isDirectory ((g.path rest).join t) d) = dirs
  files_eq : listed.filter (fun t => !FileStore.isDirectory ((g.path rest).join t) d) = files
  dirs_memory : (listed.filter fun t => g.Bears d (g.names ++ rest ++ [t])).filter
    (fun t => FileStore.isDirectory ((g.path rest).join t) s) =
      dirs.filter fun t => g.Bears d (g.names ++ rest ++ [t])
  files_memory : (listed.filter fun t => g.Bears d (g.names ++ rest ++ [t])).filter
    (fun t => !FileStore.isDirectory ((g.path rest).join t) s) = files

theorem exists_stage (h : Twins g s d) (hway : g.Way (g.names ++ rest)) :
    ∃ listed dirs files, Stage g s d rest listed dirs files := by
  have hnames : ∀ u ∈ g.names ++ rest, IsName u := hway.isName
  have hrest : ∀ u ∈ rest, IsName u := fun u hu => hnames u (List.mem_append_right _ hu)
  have hsteps : (g.path rest).components = g.place (g.names ++ rest) := components_path hrest
  have hjoin : ∀ t ∈ d.namesIn g.start (g.names ++ rest),
      g.Spells ((g.path rest).join t) (g.names ++ rest ++ [t]) := by
    intro t ht
    rw [← path_concat]
    rcases h.houses.entry_cases hnames ht with ⟨hseat, -⟩ | ⟨hway', -⟩
    · rw [List.append_assoc] at hseat ⊢
      exact hseat.spells
    · rw [List.append_assoc] at hway' ⊢
      exact hway'.spells
  have hnodup : (d.namesIn g.start (g.names ++ rest)).Nodup :=
    (sorted_namesIn d g.start _).imp fun {a b} hlt hab => by
      rw [hab, Std.ReflOrd.compare_self] at hlt
      cases hlt
  refine ⟨_, _, _, h.houses.list_eq hsteps hway.objection (spelling_path_ne hrest) hway,
    list_twins h hsteps, hnodup.filter _, fun t ht => ?_, fun t ht => ?_, rfl, rfl,
    directories_twins h hnames hjoin, files_twins h hnames hjoin⟩
  · obtain ⟨hlisted, hdirectory⟩ := List.mem_filter.1 ht
    exact way_of_isDirectory h hnames hjoin hlisted hdirectory
  · obtain ⟨hlisted, hfile⟩ := List.mem_filter.1 ht
    rw [Bool.not_eq_true'] at hfile
    exact seat_of_not_isDirectory h hnames hjoin hlisted hfile

theorem Stage.holds {listed dirs files : List Name} (h : Stage g s d rest listed dirs files)
    {depth : Nat} {f : Found}
    (hf : f ∈ files.filterMap (Survey.inTree? depth ∘ (g.path rest).join)) : g.Holds f.path := by
  obtain ⟨t, ht, hfound⟩ := List.mem_filterMap.1 hf
  have hseat := (h.seat t ht).1
  rw [List.append_assoc] at hseat
  rw [((Survey.reads_inTree depth).path_eq hfound).1, ← path_concat]
  exact ⟨_, hseat, hseat.spells⟩

theorem walk_nil {σ : Type} [FileStore σ] (fuel : Nat) (survey : Survey) (store : σ) :
    Survey.walk fuel [] survey store = .ok survey store := by
  cases fuel <;> rfl

/-- Both walks find the same files, each at a seat. -/
theorem walk_twins (h : Twins g s d) (htoured : Toured g d first seen (queue.map Prod.fst))
    {fuel fuel' : Nat}
    (hfuel : FileStore.directoryBound s ≤ fuel + (seen.filter fun x => g.Bears d (g.names ++ x)).length)
    (hfuel' : d.directories.size ≤ fuel' + seen.length) (hfiles : ∀ f ∈ survey.files, g.Holds f.path) :
    ∃ result, Survey.walk fuel ((queue.filter fun x => g.Bears d (g.names ++ x.1)).map g.stop) survey s =
        .ok result s ∧
      Survey.walk fuel' (queue.map g.stop) survey d = .ok result d ∧
      ∀ f ∈ result.files, g.Holds f.path := by
  induction fuel' generalizing seen queue fuel survey with
  | zero =>
    cases queue with
    | nil => exact ⟨survey, walk_nil fuel survey s, rfl, hfiles⟩
    | cons x queue =>
      have hle := htoured.length_le h.houses
      rw [List.map_cons, List.length_append, List.length_cons] at hle
      omega
  | succ fuel' ih =>
    cases queue with
    | nil => exact ⟨survey, walk_nil fuel survey s, rfl, hfiles⟩
    | cons x queue =>
      obtain ⟨rest, depth⟩ := x
      have hrest : rest ∈ seen ++ rest :: queue.map Prod.fst :=
        List.mem_append_right _ List.mem_cons_self
      obtain ⟨listed, dirs, files, hstage⟩ := exists_stage h (htoured.way rest hrest)
      have hvisit := htoured.visit (List.nodup_reverse.2 hstage.nodup)
        fun t ht => hstage.way t (List.mem_reverse.1 ht)
      rw [← map_fst_ahead dirs rest depth, ← List.map_append] at hvisit
      have hdisk := walk_names hstage.disk fuel' depth (queue.map g.stop) survey
      rw [hstage.dirs_eq, hstage.files_eq, ← List.map_append] at hdisk
      have hleft' : d.directories.size ≤ fuel' + (rest :: seen).length := by
        rw [List.length_cons]
        omega
      have hfound : ∀ f ∈ (Survey.mk (survey.files ++
          files.filterMap (Survey.inTree? depth ∘ (g.path rest).join)) survey.unreadable).files,
          g.Holds f.path := by
        intro f hf
        rcases List.mem_append.1 hf with hf | hf
        · exact hfiles f hf
        · exact hstage.holds hf
      by_cases hbears : g.Bears d (g.names ++ rest)
      · -- Both list the directory. In memory a walk has steps left for it.
        have hyes := decide_eq_true hbears
        have hlt := htoured.length_bearing_lt h
        rw [List.filter_append, List.length_append, List.map_cons, List.filter_cons, if_pos hyes,
          List.length_cons] at hlt
        obtain ⟨fuel, rfl⟩ : ∃ fuel₀, fuel = fuel₀ + 1 := ⟨fuel - 1, by omega⟩
        have hmemory := walk_names hstage.memory fuel depth
          ((queue.filter fun x => g.Bears d (g.names ++ x.1)).map g.stop) survey
        rw [hstage.dirs_memory, hstage.files_memory, ← filter_ahead, ← List.map_append,
          ← List.filter_append] at hmemory
        have hleft : FileStore.directoryBound s ≤
            fuel + ((rest :: seen).filter fun x => g.Bears d (g.names ++ x)).length := by
          rw [List.filter_cons, if_pos hyes, List.length_cons]
          omega
        rw [List.filter_cons, if_pos hyes, List.map_cons, List.map_cons]
        obtain ⟨result, hrun, hrun', hresult⟩ := ih hvisit hleft hleft' hfound
        exact ⟨result, hmemory.trans hrun, hdisk.trans hrun', hresult⟩
      · -- Only the file system has the directory, and there is no file below.
        have hno : ¬(decide (g.Bears d (g.names ++ rest)) = true) := fun h => hbears (of_decide_eq_true h)
        have hbelow : ∀ t, ¬g.Bears d (g.names ++ rest ++ [t]) := fun t h => hbears h.before
        have hnone : files = [] := List.eq_nil_iff_forall_not_mem.2 fun t ht =>
          hbelow t (hstage.seat t ht).2
        have hgone : (ahead dirs rest depth).filter (fun x => g.Bears d (g.names ++ x.1)) = [] := by
          rw [filter_ahead, List.filter_eq_nil_iff.2 fun t _ h => hbelow t (of_decide_eq_true h)]
          rfl
        have hleft : FileStore.directoryBound s ≤
            fuel + ((rest :: seen).filter fun x => g.Bears d (g.names ++ x)).length := by
          rwa [List.filter_cons, if_neg hno]
        obtain ⟨result, hrun, hrun', hresult⟩ := ih hvisit hleft hleft' hfound
        rw [List.filter_append, hgone, List.nil_append, hnone] at hrun
        rw [List.filterMap_nil, List.append_nil] at hrun
        rw [List.filter_cons, if_neg hno, List.map_cons]
        exact ⟨result, hrun, hdisk.trans hrun', hresult⟩

end Ground

end LargeObjects
