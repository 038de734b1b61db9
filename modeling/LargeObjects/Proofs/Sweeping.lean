import Mathlib
import LargeObjects.Proofs.Walking

/-! What sweeps and purges delete. Whatever cannot be listed or deleted, the files that go are those of
the owner that are found and can be deleted, and the counts are exact. -/
namespace LargeObjects

open ReliableStore FallibleStore BrowsableStore Step

variable {σ : Type} [FileStore σ] [FallibleStore σ] [BrowsableStore σ] {s : σ}
  {q : List Component} {owner : Owner}

namespace Naming

/-- The flat files of a database in a directory are there, and its tree has a name there. -/
theorem components_of_join {n : Naming} {directory : Path} {name : Name}
    (hbase : n.base = directory.join name) (hname : IsName name) (hdirectory : directory.spelling ≠ []) :
    n.flatDirectory.components = directory.components ∧ ∃ rootName,
      n.shardRoot.components = directory.components ++ [.name rootName] := by
  refine ⟨?_, ?_⟩
  · obtain ⟨above, hparent, hne, hcomponents⟩ := Path.exists_parent_join hname hdirectory
    unfold flatDirectory
    rw [hbase, hparent]
    dsimp only
    rw [if_neg hne, hcomponents]
  · have hrootName : IsName (name ++ directorySuffix.toList) := by
      apply IsName.of_length
      · rw [List.length_append]
        exact Nat.lt_of_lt_of_le (by decide : 2 < directorySuffix.toList.length) (Nat.le_add_left _ _)
      · intro hmem
        rcases List.mem_append.1 hmem with hmem | hmem
        · exact hname.no_separator hmem
        · exact absurd hmem (by decide)
    unfold shardRoot
    rw [hbase, append_join hname.ne_nil hname.no_separator]
    exact ⟨_, Path.components_join directory hrootName⟩

end Naming

namespace Database

variable {db : Database}

def Targets (db : Database) (s : σ) (owner : Owner) (q : List Component) : Prop :=
  (db.layout = .sharded ∧ ∃ dir, Reached s db.naming.shardRoot.components dir ∧ ¬Unlistable s dir ∧
      Holds s Naming.parseSharded? dir q owner) ∨
    Holds s db.naming.parseFlat? db.naming.flatDirectory.components q owner

theorem Targets.isSome {db : Database} (h : db.Targets s owner q) :
    (fileAt? (below s) q).isSome := by
  rcases h with ⟨-, dir, -, -, hthere, -⟩ | ⟨hthere, -⟩
  · exact hthere
  · exact hthere

def Skips (db : Database) (s : σ) (dir : List Component) : Prop :=
  db.layout = .sharded ∧ Reached s db.naming.shardRoot.components dir ∧
    dir ≠ db.naming.shardRoot.components ∧ Unlistable s dir

def Refuses (db : Database) (s : σ) : Prop :=
  (db.layout = .sharded ∧ Unlistable s db.naming.shardRoot.components) ∨
    Unlistable s db.naming.flatDirectory.components

structure Surveys (db : Database) (s : σ) (survey : Survey) : Prop where
  nodup : (survey.files.map (·.path.components)).Nodup
  mem_files : ∀ q owner, (∃ f ∈ survey.files, f.path.components = q ∧ f.owner = owner) ↔
    db.Targets s owner q
  unreadable_eq : survey.unreadable = { dir | db.Skips s dir }.ncard

section Survey

variable {directory : Path} {name : Name}

/-- The search beside the tree finds the flat files of all owners, each once. -/
theorem ofFlat_ok (hs : Settled s) (hunnested : Unnested s) {n : Naming}
    (hne : n.flatDirectory.components ≠ [])
    (hlistable : ¬Unlistable s n.flatDirectory.components) :
    ∃ flat, Survey.ofFlat n s = .ok flat s ∧ (flat.map (·.path.components)).Nodup ∧
      ∀ q owner, (∃ f ∈ flat, f.path.components = q ∧ f.owner = owner) ↔
        Holds s n.parseFlat? n.flatDirectory.components q owner := by
  obtain ⟨entries, hlist, hlists⟩ := list_granted hs hlistable hne
  have hreads := Survey.reads_inFlat n
  -- Directories are left out after names were read, which makes no difference.
  have htaken : (entries.filterMap (Survey.inFlat? n)).filter (fun f =>
      !FileStore.isDirectory f.path s) = Survey.taken s (Survey.inFlat? n) entries :=
    hreads.filter_found entries fun path => !FileStore.isDirectory path s
  have hrun : Survey.ofFlat n s = .ok (Survey.taken s (Survey.inFlat? n) entries) s := by
    rw [← htaken]
    exact bind_ok hlist
  exact ⟨_, hrun, hlists.1.sublist (Survey.map_taken_sublist hreads entries),
    Survey.mem_taken hreads hs hunnested hlists⟩

/-- The search in the tree finds all files of directories that it comes to, each once. -/
theorem ofTree_ok (hs : Settled s) (hunnested : Unnested s) {n : Naming}
    (hne : n.shardRoot.components ≠ []) (hlistable : ¬Unlistable s n.shardRoot.components) :
    ∃ tree, Survey.ofTree n s = .ok tree s ∧ (tree.files.map (·.path.components)).Nodup ∧
      (∀ q owner, (∃ f ∈ tree.files, f.path.components = q ∧ f.owner = owner) ↔
        ∃ dir, Reached s n.shardRoot.components dir ∧ ¬Unlistable s dir ∧
          Holds s Naming.parseSharded? dir q owner) ∧
      tree.unreadable = { dir | Reached s n.shardRoot.components dir ∧
        dir ≠ n.shardRoot.components ∧ Unlistable s dir }.ncard := by
  -- At first the root alone is pending, and nothing has been visited.
  have hstart : Survey.Visits s n.shardRoot.components
      ([(n.shardRoot, 0)].map (·.1.components)) [] := .start s _
  obtain ⟨tree, visited, hrun, hvisits, hrecords⟩ := Survey.walk_spec hs hunnested hne hlistable
    hstart (Survey.Records.start s _) (fun p hp _ => by rw [List.mem_singleton.1 hp])
    (Nat.le_of_eq (Nat.zero_add _).symm)
  have hvisited : ∀ dir, dir ∈ visited ↔ Reached s n.shardRoot.components dir := fun dir =>
    ⟨fun hmem => hvisits.reached dir (List.mem_append_left _ hmem), hvisits.mem_visited⟩
  refine ⟨tree, hrun, hrecords.nodup, fun q owner => ?_, ?_⟩
  · simp only [hrecords.mem_files, hvisited]
  · simp only [hrecords.unreadable_eq, hvisited]

/-- Where the roots can be listed, a search goes through and finds what there is to find. -/
theorem survey_ok (hs : Settled s) (hunnested : Unnested s)
    (hbase : db.naming.base = directory.join name) (hname : IsName name)
    (hdirectory : directory.spelling ≠ []) (hgranted : ¬db.Refuses s) :
    ∃ survey, db.survey s = .ok survey s ∧ db.Surveys s survey := by
  obtain ⟨hflat, rootName, hroot⟩ := Naming.components_of_join hbase hname hdirectory
  have hflatNe : db.naming.flatDirectory.components ≠ [] := by
    rw [hflat]
    exact Path.components_ne_nil hdirectory
  have hrootNe : db.naming.shardRoot.components ≠ [] := by
    rw [hroot]
    exact List.append_ne_nil_of_right_ne_nil _ (List.cons_ne_nil _ _)
  obtain ⟨htreeGranted, hflatGranted⟩ := not_or.1 hgranted
  obtain ⟨flat, hflatRun, hflatNodup, hflatMem⟩ := ofFlat_ok hs hunnested hflatNe hflatGranted
  cases hlayout : db.layout with
  | flat =>
    refine ⟨{ files := flat }, ?_, hflatNodup, fun q owner => ?_, ?_⟩
    · unfold survey
      rw [hlayout]
      exact bind_ok hflatRun
    · rw [hflatMem]
      unfold Targets
      rw [hlayout]
      simp
    · unfold Skips
      rw [hlayout]
      simp
  | sharded =>
    obtain ⟨tree, htreeRun, htreeNodup, htreeMem, hunreadable⟩ := ofTree_ok hs hunnested hrootNe
      fun hrefused => htreeGranted ⟨hlayout, hrefused⟩
    refine ⟨{ tree with files := tree.files ++ flat }, ?_, ?_, fun q owner => ?_, ?_⟩
    · unfold survey
      rw [hlayout]
      exact (bind_ok htreeRun).trans (bind_ok hflatRun)
    · rw [List.map_append]
      refine List.nodup_append.2 ⟨htreeNodup, hflatNodup, ?_⟩
      rintro q hq q' hq' rfl
      obtain ⟨f, hf, hplace⟩ := List.mem_map.1 hq
      obtain ⟨f', hf', hplace'⟩ := List.mem_map.1 hq'
      obtain ⟨dir, hreached, -, -, t, -, heq, -⟩ := (htreeMem q f.owner).1 ⟨f, hf, hplace, rfl⟩
      obtain ⟨-, t', -, heq', -⟩ := (hflatMem q f'.owner).1 ⟨f', hf', hplace', rfl⟩
      -- A file in the tree is deeper than the flat ones.
      obtain ⟨rfl, -⟩ := List.append_inj' (heq.symm.trans heq') rfl
      have hlength := hreached.leads.length_le
      rw [hflat, hroot, List.length_append, List.length_singleton] at hlength
      omega
    · constructor
      · rintro ⟨f, hmem, hf⟩
        rcases List.mem_append.1 hmem with htree | hflat'
        · exact Or.inl ⟨hlayout, (htreeMem q owner).1 ⟨f, htree, hf⟩⟩
        · exact Or.inr ((hflatMem q owner).1 ⟨f, hflat', hf⟩)
      · rintro (⟨-, htree⟩ | hflat')
        · obtain ⟨f, hmem, hf⟩ := (htreeMem q owner).2 htree
          exact ⟨f, List.mem_append_left _ hmem, hf⟩
        · obtain ⟨f, hmem, hf⟩ := (hflatMem q owner).2 hflat'
          exact ⟨f, List.mem_append_right _ hmem, hf⟩
    · simp only [Skips, hlayout, true_and, hunreadable]

/-- Nothing is found when a directory that is needed cannot be listed. -/
theorem survey_error (hs : Settled s) (hunnested : Unnested s)
    (hbase : db.naming.base = directory.join name) (hname : IsName name)
    (hdirectory : directory.spelling ≠ []) (hrefused : db.Refuses s) :
    ∃ e, db.survey s = .error e s := by
  obtain ⟨-, rootName, hroot⟩ := Naming.components_of_join hbase hname hdirectory
  have hrootNe : db.naming.shardRoot.components ≠ [] := by
    rw [hroot]
    exact List.append_ne_nil_of_right_ne_nil _ (List.cons_ne_nil _ _)
  have hflatError : Unlistable s db.naming.flatDirectory.components →
      ∃ e, Survey.ofFlat db.naming s = .error e s := by
    intro hflat
    obtain ⟨e, hlist⟩ := list_refused hs hflat
    exact ⟨e, bind_error hlist⟩
  cases hlayout : db.layout with
  | flat =>
    obtain ⟨e, hrun⟩ := hflatError (hrefused.resolve_left fun h => by
      rw [hlayout] at h
      cases h.1)
    refine ⟨e, ?_⟩
    unfold survey
    rw [hlayout]
    exact bind_error (x := Survey.ofFlat db.naming) hrun
  -- The tree is searched first, so that its root decides before the other directory is listed.
  | sharded =>
    by_cases htree : Unlistable s db.naming.shardRoot.components
    · obtain ⟨e, hlist⟩ := list_refused hs htree
      obtain ⟨dirs, hlength, -⟩ := exists_directories hs
      obtain ⟨fuel, hfuel⟩ := Nat.exists_eq_succ_of_ne_zero (Nat.ne_of_gt (Nat.zero_lt_of_lt hlength))
      have hrun : Survey.ofTree db.naming s = .error e s := by
        unfold Survey.ofTree
        rw [hfuel]
        exact Survey.walk_error_root fuel rfl [] {} hlist
      refine ⟨e, ?_⟩
      unfold survey
      rw [hlayout]
      exact bind_error hrun
    · obtain ⟨tree, htreeRun, -⟩ := ofTree_ok hs hunnested hrootNe htree
      obtain ⟨e, hrun⟩ := hflatError (hrefused.resolve_left fun h => htree h.2)
      refine ⟨e, ?_⟩
      unfold survey
      rw [hlayout]
      exact (bind_ok htreeRun).trans (bind_error hrun)

end Survey

structure Clears (s : σ) (doomed : List Component → Prop) (start : RemovalReport)
    (report : RemovalReport) (t : σ) : Prop where
  removed_eq : report.removed = start.removed + { q | doomed q ∧ ¬Undeletable s q }.ncard
  failed_eq : report.failed = start.failed + { q | doomed q ∧ Undeletable s q }.ncard
  gone : ∀ q, doomed q → ¬Undeletable s q → fileAt? (below t) q = none
  kept : ∀ q, (doomed q → Undeletable s q) → fileAt? (below t) q = fileAt? (below s) q

namespace Clears

variable {s₁ t : σ} {place : List Component} {places : List (List Component)}
  {start report : RemovalReport}

theorem nothing (s : σ) (start : RemovalReport) : Clears s (· ∈ []) start start s := by
  have hempty : ∀ P : List Component → Prop,
      { q | q ∈ ([] : List (List Component)) ∧ P q }.ncard = 0 := fun P => by
    rw [show { q | q ∈ ([] : List (List Component)) ∧ P q } = ∅ from
      Set.eq_empty_of_forall_notMem fun _ h => List.not_mem_nil h.1, Set.ncard_empty]
  refine ⟨?_, ?_, fun q h => absurd h List.not_mem_nil, fun _ _ => rfl⟩
  · rw [hempty]
    rfl
  · rw [hempty]
    rfl

theorem refuse (h : Clears s (· ∈ places) { start with failed := start.failed + 1 } report t)
    (hnew : place ∉ places) (hrefused : Undeletable s place) :
    Clears s (· ∈ place :: places) start report t where
  removed_eq := by
    rw [ncard_mem_cons_of_neg (P := fun q => ¬Undeletable s q) (not_not.2 hrefused)]
    exact h.removed_eq
  failed_eq := by
    rw [ncard_mem_cons_of_pos hnew hrefused, h.failed_eq]
    dsimp only
    omega
  gone q hmem hq := by
    rcases List.mem_cons.1 hmem with rfl | hmem
    · exact absurd hrefused hq
    · exact h.gone q hmem hq
  kept q hq := h.kept q fun hmem => hq (List.mem_cons_of_mem _ hmem)

theorem grant (h : Clears s₁ (· ∈ places) { start with removed := start.removed + 1 } report t)
    (hnew : place ∉ places) (hgranted : ¬Undeletable s place)
    (hsame : Undeletable s₁ = Undeletable s) (hgone : fileAt? (below s₁) place = none)
    (helse : ∀ q ≠ place, fileAt? (below s₁) q = fileAt? (below s) q) :
    Clears s (· ∈ place :: places) start report t where
  removed_eq := by
    rw [ncard_mem_cons_of_pos (P := fun q => ¬Undeletable s q) hnew hgranted, h.removed_eq, hsame]
    dsimp only
    omega
  failed_eq := by
    rw [ncard_mem_cons_of_neg hgranted, h.failed_eq, hsame]
  gone q hmem hq := by
    rcases List.mem_cons.1 hmem with rfl | hmem
    · rw [h.kept q fun hmem => absurd hmem hnew]
      exact hgone
    · exact h.gone q hmem (by rwa [hsame])
  kept q hq := by
    have hne : q ≠ place := by
      rintro rfl
      exact hgranted (hq List.mem_cons_self)
    rw [h.kept q fun hmem => hsame ▸ hq (List.mem_cons_of_mem _ hmem)]
    exact helse q hne

end Clears

/-- Different files are deleted one by one. -/
theorem clears_deleteAll (hs : Settled s) {paths : List Path}
    (hnodup : (paths.map (·.components)).Nodup)
    (hfiles : ∀ q ∈ paths.map (·.components), (fileAt? (below s) q).isSome) (start : RemovalReport) :
    Clears s (· ∈ paths.map (·.components)) start (deleteAll paths start s).1
      (deleteAll paths start s).2 := by
  induction paths generalizing s start with
  | nil => exact .nothing s start
  | cons path rest ih =>
    obtain ⟨hnew, hrest⟩ := List.nodup_cons.1 hnodup
    have hfilesRest := fun q hq => hfiles q (List.mem_cons_of_mem _ hq)
    by_cases hrefused : Undeletable s path.components
    · obtain ⟨e, hdelete⟩ := delete_refused hs hrefused
      have hrun : deleteAll (path :: rest) start s =
          deleteAll rest { start with failed := start.failed + 1 } s := by
        rw [deleteAll, hdelete]
      rw [hrun]
      exact (ih hs hrest hfilesRest _).refuse hnew hrefused
    · obtain ⟨found, t, hdelete, hsettled, hsame⟩ := delete_granted hs hrefused
      obtain ⟨t', hbase, hgone, helse⟩ := ReliableStore.delete_ok path (below s)
      rw [FallibleStore.delete_ok hdelete, hfiles path.components List.mem_cons_self] at hbase
      cases hbase
      have hrun : deleteAll (path :: rest) start s =
          deleteAll rest { start with removed := start.removed + 1 } t := by
        rw [deleteAll, hdelete]
      -- The other files are still there, since no two paths are the same.
      have hfilesLeft : ∀ q ∈ rest.map (·.components), (fileAt? (below t) q).isSome := by
        intro q hq
        have hne : q ≠ path.components := by
          rintro rfl
          exact hnew hq
        rw [helse q hne]
        exact hfilesRest q hq
      rw [hrun]
      exact (ih hsettled hrest hfilesLeft _).grant hnew hrefused hsame hgone helse

def removal (db : Database) : Owner → Action σ RemovalReport
  | .temp => db.purgeTemp
  | .table table => db.removeTable table

omit [FallibleStore σ] [BrowsableStore σ] in
/-- Removing by a survey is what a sweep and a purge do. -/
theorem removal_eq (db : Database) (owner : Owner) (w : World σ) :
    db.removal owner w = db.removeOwned owner w := by
  cases owner <;> rfl

namespace Surveys

variable {survey : Survey}

theorem nodup_owned (h : db.Surveys s survey) (owner : Owner) :
    ((survey.files.filter (·.owner = owner)).map (·.path.components)).Nodup :=
  h.nodup.sublist (List.filter_sublist.map _)

/-- What is found for an owner are the files that removal is after. -/
theorem mem_owned (h : db.Surveys s survey) : q ∈ (survey.files.filter (·.owner = owner)).map
    (·.path.components) ↔ db.Targets s owner q := by
  rw [← h.mem_files, List.mem_map]
  constructor
  · rintro ⟨f, hmem, hf⟩
    obtain ⟨hmem, howner⟩ := List.mem_filter.1 hmem
    exact ⟨f, hmem, hf, of_decide_eq_true howner⟩
  · rintro ⟨f, hmem, hf, howner⟩
    exact ⟨f, List.mem_filter.2 ⟨hmem, decide_eq_true howner⟩, hf⟩

/-- The files of an owner that a search finds, as they are deleted. -/
theorem clears (h : db.Surveys s survey) (hs : Settled s) (owner : Owner) :
    let paths := (survey.files.filter (·.owner = owner)).map (·.path)
    Clears s (db.Targets s owner) { failed := survey.unreadable }
      (deleteAll paths { failed := survey.unreadable } s).1
      (deleteAll paths { failed := survey.unreadable } s).2 ∧
    { q | db.Targets s owner q }.Finite := by
  intro paths
  have hpaths : paths.map (·.components) =
      (survey.files.filter (·.owner = owner)).map (·.path.components) := List.map_map
  have hfiles : ∀ q ∈ paths.map (·.components), (fileAt? (below s) q).isSome := by
    intro q hmem
    rw [hpaths] at hmem
    exact (h.mem_owned.1 hmem).isSome
  have hclears := clears_deleteAll hs (hpaths ▸ h.nodup_owned owner) hfiles
    { failed := survey.unreadable }
  have htargets : (fun q => q ∈ paths.map (·.components)) = db.Targets s owner := by
    funext q
    rw [hpaths]
    exact propext h.mem_owned
  have hall := List.finite_toSet (paths.map (·.components))
  rw [htargets] at hclears
  exact ⟨hclears, hall.subset fun q hq => (congrFun htargets q).mpr hq⟩

end Surveys

/-- There are only so many directories to pass over. -/
theorem finite_skips (hs : Settled s) (db : Database) : { dir | db.Skips s dir }.Finite := by
  obtain ⟨dirs, -, hdirs⟩ := Reached.mem_directories hs db.naming.shardRoot.components
  exact (List.finite_toSet _).subset fun dir hdir => hdirs dir hdir.2.1

/-- Deleting the files of a table, or all temporary ones, of a database in a directory fails exactly
when the root of its tree or that directory cannot be listed, and then changes no file. Else the files
that are gone are those of the owner that can be deleted: the ones in directories of the tree that are
come to and can be listed, and the flat ones. They are counted, and so are the directories come to that
cannot be listed with the files of the owner that cannot be deleted. All other files stay. -/
theorem removal_exact {directory : Path} {name : Name} (hbase : db.naming.base = directory.join name)
    (hname : IsName name) (hdirectory : directory.spelling ≠ []) {w : World σ}
    (hs : Settled w.store) (hunnested : Unnested w.store) (owner : Owner) :
    ((∃ e w', db.removal owner w = .error e w') ↔ db.Refuses w.store) ∧
    (∀ e w', db.removal owner w = .error e w' →
      ∀ q, fileAt? w'.below.store q = fileAt? w.below.store q) ∧
    ∀ report w', db.removal owner w = .ok report w' →
      (∀ q, (fileAt? w.below.store q).isSome ∧ fileAt? w'.below.store q = none ↔
        db.Targets w.store owner q ∧ ¬Undeletable w.store q) ∧
      (∀ q, ¬(db.Targets w.store owner q ∧ ¬Undeletable w.store q) →
        fileAt? w'.below.store q = fileAt? w.below.store q) ∧
      (report.removed : ℕ∞) = { q | db.Targets w.store owner q ∧ ¬Undeletable w.store q }.encard ∧
      (report.failed : ℕ∞) = { dir | db.Skips w.store dir }.encard +
        { q | db.Targets w.store owner q ∧ Undeletable w.store q }.encard := by
  simp only [removal_eq]
  by_cases hrefused : db.Refuses w.store
  · obtain ⟨e, hsurvey⟩ := survey_error hs hunnested hbase hname hdirectory hrefused
    have hrun : db.removeOwned owner w = _ := removeOwned_error hsurvey
    rw [hrun]
    refine ⟨⟨fun _ => hrefused, fun _ => ⟨_, _, rfl⟩⟩, ?_, nofun⟩
    rintro e w' ⟨⟩ q
    rfl
  · obtain ⟨survey, hsurvey, hfound⟩ := survey_ok hs hunnested hbase hname hdirectory hrefused
    have hrun := removeOwned_ok owner hsurvey
    obtain ⟨hclears, hfinite⟩ := hfound.clears hs owner
    dsimp only at hrun hclears
    rw [hrun]
    refine ⟨⟨nofun, fun h => absurd h hrefused⟩, nofun, ?_⟩
    rintro report w' ⟨⟩
    have hkept : ∀ q, ¬(db.Targets w.store owner q ∧ ¬Undeletable w.store q) → _ := fun q hq =>
      hclears.kept q fun htarget => not_not.1 fun hdeletable => hq ⟨htarget, hdeletable⟩
    refine ⟨fun q => ⟨?_, ?_⟩, hkept, ?_, ?_⟩
    -- A file that is gone is not one of those that stay.
    · rintro ⟨hthere, hgone⟩
      by_contra hq
      have hnone : fileAt? w.below.store q = none := (hkept q hq).symm.trans hgone
      rw [hnone] at hthere
      cases hthere
    · rintro ⟨htarget, hdeletable⟩
      exact ⟨htarget.isSome, hclears.gone q htarget hdeletable⟩
    · rw [hclears.removed_eq, Nat.zero_add, Set.Finite.cast_ncard_eq]
      exact hfinite.subset fun q hq => hq.1
    · rw [hclears.failed_eq, hfound.unreadable_eq, Nat.cast_add, Set.Finite.cast_ncard_eq,
        Set.Finite.cast_ncard_eq]
      · exact hfinite.subset fun q hq => hq.1
      · exact finite_skips hs db

open Session (smallDatabase)

/-- Files of a table in the root of a tree, in two directories below and beside the tree, with a file of
another table. One of the directories cannot be listed, and one of the files cannot be deleted. -/
def strickenWorld : World (Faulty MemoryStore) where
  store := {
    store := ((((((default : MemoryStore).put (smallDatabase.naming.path .sharded (.table ⟨6⟩) ⟨1⟩) [1]).put
      (smallDatabase.naming.path .sharded (.table ⟨6⟩) ⟨2⟩) [2]).put
      (smallDatabase.naming.path .sharded (.table ⟨7⟩) ⟨3⟩) [3]).put
      (smallDatabase.naming.path .sharded (.table ⟨6⟩) ⟨5⟩) [5]).put
      (smallDatabase.naming.path .sharded (.table ⟨6⟩) ⟨9⟩) [9]).put
      (smallDatabase.naming.path .flat (.table ⟨6⟩) ⟨1⟩) [6]
    faults := [
      { operation := .list, path := smallDatabase.naming.shardDirectory ⟨9⟩ },
      { operation := .delete, path := smallDatabase.naming.path .sharded (.table ⟨6⟩) ⟨2⟩ }] }

/-- Three files go; a directory that cannot be listed and a file that cannot be deleted are counted,
and the file of the other table stays. -/
theorem removal_exact_stricken :
    ∃ report w', smallDatabase.removal (.table ⟨6⟩) strickenWorld = .ok report w' ∧
      report = { removed := 3, failed := 2 } ∧
      { q | smallDatabase.Targets strickenWorld.store (.table ⟨6⟩) q ∧
        ¬Undeletable strickenWorld.store q }.encard = (3 : ℕ) ∧
      { dir | smallDatabase.Skips strickenWorld.store dir }.encard +
        { q | smallDatabase.Targets strickenWorld.store (.table ⟨6⟩) q ∧
          Undeletable strickenWorld.store q }.encard = (2 : ℕ) := by
  have hsettled : Settled strickenWorld.store := by
    refine ⟨trivial, fun f hmem _ => ?_⟩
    rcases List.mem_cons.1 hmem with rfl | hmem
    · exact ⟨rfl, rfl⟩
    · rw [List.mem_singleton.1 hmem]
      exact ⟨rfl, rfl⟩
  have hunnested : Unnested strickenWorld.store := by
    refine MemoryStore.unnested (s := strickenWorld.store.store) ?_
    decide +kernel
  have hname : IsName ['b'] := ⟨by decide, by decide, by decide, by decide⟩
  have hbase : smallDatabase.naming.base = (⟨['d']⟩ : Path).join ['b'] := rfl
  obtain ⟨-, -, hremoval⟩ := removal_exact hbase hname (by decide) hsettled hunnested (.table ⟨6⟩)
  obtain ⟨w', hrun⟩ : ∃ w', smallDatabase.removal (.table ⟨6⟩) strickenWorld =
      .ok { removed := 3, failed := 2 } w' := ⟨_, rfl⟩
  obtain ⟨-, -, hremoved, hfailed⟩ := hremoval _ _ hrun
  exact ⟨_, w', hrun, rfl, hremoved.symm, hfailed.symm⟩

end Database

end LargeObjects
