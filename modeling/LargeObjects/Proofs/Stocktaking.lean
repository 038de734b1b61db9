import Mathlib
import LargeObjects.Inventory
import LargeObjects.Removal
import LargeObjects.Proofs.Companions

/-! What two processes with the same files find when they look for them: the same files, also where the
file system has directories that hold none any more. So they remove the same ones, arrive at the same
inventory and count on from the same id. -/
namespace LargeObjects

open Step Disk Ground
open scoped Classical

/-- A directory of a tree comes next after the ground. -/
theorem Ground.Way.marked_of_next {g : Ground} {t : Name} (h : g.Way (g.names ++ [t])) :
    Naming.directorySuffix.toList <:+ t := by
  rcases h with habove | ⟨inner, hsplit, hlane⟩
  · have hlength := habove.length_le
    rw [List.length_append, List.length_singleton] at hlength
    omega
  · rw [← List.append_cancel_left hsplit] at hlane
    exact (hlane.marked t List.mem_cons_self).2

namespace Naming.On

variable {g : Ground} {n : Naming} {title t : Name} {s : MemoryStore} {d : Disk}

theorem way_shardRoot (h : n.On g title) : g.Way (g.names ++ [title ++ directorySuffix.toList]) := by
  have hway := h.way ⟨0⟩
  unfold lane at hway
  rw [List.append_cons] at hway
  exact hway.before

/-- The directory of flat files can be listed, and what is in it has a path there. -/
theorem flatDirectory_listed (h : n.On g title) : Disk.objection? n.flatDirectory = none := by
  obtain ⟨-, -, hgoes⟩ := h.flatDirectory_eq
  exact objection?_of_prefix hgoes g.objection

theorem spells_flat (h : n.On g title) (hd : g.Houses d) (ht : t ∈ d.namesIn g.start g.names) :
    g.Spells (n.flatDirectory.join t) (g.names ++ [t]) := by
  obtain ⟨hsteps, hne, hgoes⟩ := h.flatDirectory_eq
  have hgood : IsName t ∧ Disk.objection? (g.path [t]) = none := by
    rcases hd.entry_cases g.way_names.isName ht with ⟨hseat, -⟩ | ⟨hway, -⟩
    · exact ⟨(hseat.usable t (List.mem_append_right _ List.mem_cons_self)).isName, hseat.objection⟩
    · exact ⟨(hway.usable t (List.mem_append_right _ List.mem_cons_self)).isName, hway.objection⟩
  obtain ⟨hname, hobjection⟩ := hgood
  refine ⟨?_, Path.objection?_join_of_prefix hne hgoes hname hobjection, ?_⟩
  · rw [Path.components_join _ hname, hsteps, place_concat]
  · have hlast := Path.getLast?_pieces_join n.flatDirectory hname.no_separator
    obtain ⟨front, hfront⟩ := List.getLast?_eq_some_iff.1 hlast
    exact ⟨front, t, hfront, hname⟩

end Naming.On

namespace Survey

section Search

variable {σ : Type} [FileStore σ] {s : σ} {dir : Path}

/-- There is nothing to be found in a directory without entries. -/
theorem walk_of_list_nil (hlist : FileStore.list dir s = .ok [] s) (fuel depth : Nat) :
    walk fuel [(dir, depth)] {} s = .ok {} s := by
  cases fuel with
  | zero => rfl
  | succ fuel =>
    rw [walk_ok fuel depth [] {} hlist]
    exact walk_nil fuel _ s

end Search

variable {g : Ground} {n : Naming} {title : Name} {s : MemoryStore} {d : Disk}

/-- Both find the same files in the tree. -/
theorem ofTree_twins (h : Twins g s d) (hon : n.On g title) : ∃ survey, ofTree n s = .ok survey s ∧
    ofTree n d = .ok survey d ∧ ∀ f ∈ survey.files, g.Holds f.path := by
  let root : List Name := [title ++ Naming.directorySuffix.toList]
  have hway : g.Way (g.names ++ root) := hon.way_shardRoot
  have hnames : ∀ u ∈ root, IsName u := fun u hu => hway.isName u (List.mem_append_right _ hu)
  have hsteps : (g.path root).components = g.place (g.names ++ root) := components_path hnames
  unfold ofTree
  rw [hon.shardRoot_eq]
  -- In memory a tree without files cannot be told from one that is missing.
  have hbare : ¬g.Bears d (g.names ++ root) → ∀ fuel,
      walk fuel [(g.path root, 0)] {} s = .ok {} s := by
    intro hbears fuel
    refine walk_of_list_nil ?_ fuel 0
    rw [list_twins h hsteps, List.filter_eq_nil_iff.2 fun t _ hyes =>
      hbears (Bears.before (of_decide_eq_true hyes))]
    rfl
  cases hroot : d.descend g.start (g.names ++ root) with
  | error e =>
    have hnone : d.namesIn g.start (g.names ++ root) = [] := by
      unfold namesIn
      rw [hroot]
    have hlist := h.houses.list_eq hsteps hway.objection (spelling_path_ne hnames) hway
    rw [hnone, List.map_nil] at hlist
    refine ⟨{}, walk_of_list_nil ?_ _ 0, walk_of_list_nil hlist _ 0, nofun⟩
    rw [list_twins h hsteps, hnone]
    rfl
  | ok k =>
    have htoured : Toured g d root [] [root] := by
      refine ⟨List.nodup_singleton root, ?_, ?_, ?_, ?_⟩
      · intro rest hrest
        rw [List.mem_singleton.1 hrest]
      · intro rest hrest
        rwa [List.mem_singleton.1 hrest]
      · intro rest hrest
        rw [List.mem_singleton.1 hrest]
        exact ⟨k, hroot⟩
      · intro rest hrest
        exact Or.inl (List.mem_singleton.1 hrest)
    have hbound : FileStore.directoryBound s ≤ FileStore.directoryBound s +
        (([] : List (List Name)).filter fun x => g.Bears d (g.names ++ x)).length := Nat.le_add_right _ _
    have hstart : Toured g d root [] ([(root, 0)].map Prod.fst) := htoured
    have hnone : ∀ f ∈ ({} : Survey).files, g.Holds f.path := nofun
    obtain ⟨survey, hmemory, hdisk, hfiles⟩ := walk_twins h hstart hbound (Nat.le_add_right _ 0) hnone
    refine ⟨survey, ?_, hdisk, hfiles⟩
    by_cases hbears : g.Bears d (g.names ++ root)
    · rw [List.filter_cons, if_pos (decide_eq_true hbears)] at hmemory
      exact hmemory
    · have hno : ¬(decide (g.Bears d (g.names ++ root)) = true) :=
        fun hyes => hbears (of_decide_eq_true hyes)
      rw [List.filter_cons, if_neg hno] at hmemory
      rw [hbare hbears]
      exact (walk_nil _ _ s).symm.trans hmemory

/-- Both find the same flat files. -/
theorem ofFlat_twins (h : Twins g s d) (hon : n.On g title) : ∃ files, ofFlat n s = .ok files s ∧
    ofFlat n d = .ok files d ∧ ∀ f ∈ files, g.Holds f.path := by
  obtain ⟨hsteps, hne, -⟩ := hon.flatDirectory_eq
  have hnames : ∀ u ∈ g.names, IsName u := g.way_names.isName
  have hdisk := h.houses.list_eq hsteps hon.flatDirectory_listed hne g.way_names
  have hmemory := list_twins h hsteps
  have hjoin := fun t ht => hon.spells_flat h.houses (t := t) ht
  have hrun : ∀ {σ : Type} [FileStore σ] {store : σ} {names : List Name},
      FileStore.list n.flatDirectory store = .ok (names.map n.flatDirectory.join) store →
      ofFlat n store = .ok ((names.filter fun t =>
        !FileStore.isDirectory (n.flatDirectory.join t) store).filterMap
          (inFlat? n ∘ n.flatDirectory.join)) store := by
    intro σ _ store names hlist
    have hsifted := (reads_inFlat n).filter_found (names.map n.flatDirectory.join)
      fun p => !FileStore.isDirectory p store
    have hfound := hsifted.trans (congrArg _ (List.filter_map ..))
    rw [List.filterMap_map (l := names.filter _)] at hfound
    exact (bind_ok hlist).trans (congrArg (EStateM.Result.ok · store) hfound)
  refine ⟨_, (hrun hmemory).trans ?_, hrun hdisk, fun f hf => ?_⟩
  · rw [files_twins h hnames hjoin]
  · obtain ⟨t, ht, hfound⟩ := List.mem_filterMap.1 hf
    obtain ⟨hlisted, hfile⟩ := List.mem_filter.1 ht
    rw [Bool.not_eq_true'] at hfile
    rw [((reads_inFlat n).path_eq hfound).1]
    exact ⟨_, (seat_of_not_isDirectory h hnames hjoin hlisted hfile).1, hjoin t hlisted⟩

end Survey

namespace Database

variable {g : Ground} {db : Database} {title : Name} {s : MemoryStore} {d : Disk}

/-- Both find the same files. -/
theorem survey_twins (h : Twins g s d) (hon : db.naming.On g title) : ∃ survey,
    db.survey s = .ok survey s ∧ db.survey d = .ok survey d ∧ ∀ f ∈ survey.files, g.Holds f.path := by
  obtain ⟨flat, hflat, hflat', hholds⟩ := Survey.ofFlat_twins h hon
  unfold survey
  cases hlayout : db.layout with
  | flat =>
    have hnone : ∀ {σ : Type} (store : σ), (pure {} : Step StoreError σ Survey) store = .ok {} store :=
      fun _ => rfl
    refine ⟨{ files := flat }, ?_, ?_, hholds⟩
    · exact (bind_ok (hnone s)).trans (bind_ok hflat)
    · exact (bind_ok (hnone d)).trans (bind_ok hflat')
  | sharded =>
    obtain ⟨tree, htree, htree', hholds'⟩ := Survey.ofTree_twins h hon
    refine ⟨{ tree with files := tree.files ++ flat }, ?_, ?_, fun f hf => ?_⟩
    · exact (bind_ok htree).trans (bind_ok hflat)
    · exact (bind_ok htree').trans (bind_ok hflat')
    · rcases List.mem_append.1 hf with hf | hf
      · exact hholds' f hf
      · exact hholds f hf

/-- Both delete the same files. -/
theorem deleteAll_twins (h : Twins g s d) (paths : List Path) (hpaths : ∀ p ∈ paths, g.Holds p)
    (report : RemovalReport) : (deleteAll paths report s).1 = (deleteAll paths report d).1 ∧
      Twins g (deleteAll paths report s).2 (deleteAll paths report d).2 := by
  induction paths generalizing s d report with
  | nil => exact ⟨rfl, h⟩
  | cons path rest ih =>
    obtain ⟨names, hseat, hspells⟩ := hpaths path List.mem_cons_self
    have hdelete := h.delete hseat hspells
    have hrest := fun p hp => hpaths p (List.mem_cons_of_mem path hp)
    unfold deleteAll
    generalize FileStore.delete path s = r at hdelete ⊢
    generalize FileStore.delete path d = r' at hdelete ⊢
    cases hdelete with
    | ok hfound htwins =>
      subst hfound
      rename_i found _ _
      cases found with
      | true => exact ih htwins hrest _
      | false => exact ih htwins hrest _
    | error htwins => exact ih htwins hrest _

end Database

namespace Peers

variable {g : Ground} {db : Database} {title : Name} {w : World MemoryStore} {w' : World Disk}

/-- Both remove the same files of an owner and report the same. -/
theorem removeOwned (h : Peers g w w') (hon : db.naming.On g title) (owner : Owner) :
    Agree (Peers g) Eq (db.removeOwned owner w) (db.removeOwned owner w') := by
  obtain ⟨survey, hmemory, hdisk, hholds⟩ := Database.survey_twins h.twins hon
  obtain ⟨hreport, htwins⟩ := Database.deleteAll_twins h.twins
    ((survey.files.filter (·.owner = owner)).map (·.path)) (fun p hp => by
      obtain ⟨f, hf, rfl⟩ := List.mem_map.1 hp
      exact hholds f (List.mem_filter.1 hf).1) { failed := survey.unreadable }
  have hrun := Database.removeOwned_ok owner hmemory
  have hrun' := Database.removeOwned_ok owner hdisk
  dsimp only at hrun hrun'
  rw [hrun, hrun']
  exact .ok hreport (h.withStore htwins)

/-- Both arrive at the same inventory. -/
theorem inventory (h : Peers g w w') (hon : db.naming.On g title) :
    Agree (Peers g) Eq (db.inventory w) (db.inventory w') := by
  obtain ⟨survey, hmemory, hdisk, hholds⟩ := Database.survey_twins h.twins hon
  have hsizes : ∀ (files : List Found) {s : MemoryStore} {d : Disk}, Twins g s d →
      (∀ f ∈ files, g.Holds f.path) → Agree (Twins g) Eq
        (files.mapM (fun f => return (f, ← FileStore.size f.path) : Found →
          Step StoreError MemoryStore (Found × Nat)) s)
        (files.mapM (fun f => return (f, ← FileStore.size f.path) : Found →
          Step StoreError Disk (Found × Nat)) d) := by
    intro files
    induction files with
    | nil => exact fun htwins _ => .ok rfl htwins
    | cons f files ih =>
      intro s d htwins hfiles
      obtain ⟨names, hseat, hspells⟩ := hfiles f List.mem_cons_self
      rw [List.mapM_cons, List.mapM_cons]
      refine Agree.bind (A := Eq) ((htwins.size hseat hspells).bind ?_) ?_
      · rintro size _ s' d' rfl hsized
        exact .ok rfl hsized
      · rintro pair _ s' d' rfl hsized
        refine (ih hsized fun f' hf' => hfiles f' (List.mem_cons_of_mem f hf')).bind ?_
        rintro pairs _ s'' d'' rfl hall
        exact .ok rfl hall
  unfold Database.inventory
  refine h.onStore ?_
  rw [bind_ok hmemory, bind_ok hdisk]
  refine (hsizes survey.files h.twins hholds).bind ?_
  rintro sized _ s' d' rfl hsized
  exact .ok rfl hsized

end Peers

/-- A name that is read as that of a flat file is not that of a directory of a tree. -/
theorem Naming.not_directory_of_parseFlat? {n : Naming} {t : Name} {owner : Owner} {id : ObjectId}
    (h : n.parseFlat? t = some (owner, id)) : ¬directorySuffix.toList <:+ t := by
  obtain ⟨lead, rest, -, rfl, hreads⟩ := parseFlat?_eq_some.1 h
  cases hreads with
  | @temp number =>
    have hnot := not_directory_of_flatTemp (lead ++ '.' :: number)
    rwa [List.append_assoc, List.cons_append] at hnot
  | @table owner number =>
    have hnot := not_directory_of_object (lead ++ '.' :: (owner ++ '.' :: number))
    rwa [List.append_assoc, List.cons_append] at hnot

namespace Allocator

variable {g : Ground} {n : Naming} {title : Name} {w : World MemoryStore} {w' : World Disk}

/-- Directories that hold no file any more have no names that would count. -/
theorem afterHighest_agree (h : Peers g w w') (hon : n.On g title) :
    Agree (Peers g) (fun a a' => a = a' ∧ ∃ place, a = .counter place) (afterHighest n w)
      (afterHighest n w') := by
  obtain ⟨hsteps, hne, -⟩ := hon.flatDirectory_eq
  have hnames : ∀ u ∈ g.names, IsName u := g.way_names.isName
  have hdisk := h.twins.houses.list_eq hsteps hon.flatDirectory_listed hne g.way_names
  have hmemory := list_twins h.twins hsteps
  have hhighest : highestFlat n (((w'.store.namesIn g.start g.names).filter fun t =>
      g.Bears w'.store (g.names ++ [t])).map n.flatDirectory.join) =
      highestFlat n ((w'.store.namesIn g.start g.names).map n.flatDirectory.join) := by
    unfold highestFlat
    rw [List.filterMap_map, List.filterMap_map, List.filterMap_filter]
    congr 1
    apply List.filterMap_congr
    intro t ht
    by_cases hbears : g.Bears w'.store (g.names ++ [t])
    · rw [if_pos (decide_eq_true hbears)]
    · rw [if_neg fun hyes => hbears (of_decide_eq_true hyes)]
      rcases h.twins.houses.entry_cases hnames ht with ⟨hseat, m, hm⟩ | ⟨hway, -⟩
      · refine absurd ⟨[], m, ?_, ?_⟩ hbears
        · rwa [List.append_nil]
        · rwa [List.append_nil]
      · have hname := (hway.usable t (List.mem_append_right _ List.mem_cons_self)).isName
        have hmarked := hway.marked_of_next
        have hnone : n.parseFlat? t = none := by
          cases hparse : n.parseFlat? t with
          | none => rfl
          | some read => exact absurd hmarked (Naming.not_directory_of_parseFlat? hparse)
        rw [Function.comp_apply, Path.fileName?_join _ hname, Option.bind_some, hnone]
        rfl
  rw [afterHighest_run hmemory, afterHighest_run hdisk, hhighest, ← h.counters_eq]
  exact .ok ⟨rfl, _, rfl⟩ ⟨h.twins, h.handles_eq, rfl, h.entropy_eq, h.seated⟩

end Allocator

/-- Both open a database on the ground alike, and it looks for ids as it should. -/
theorem Peers.openAt {g : Ground} {title : Name} {w : World MemoryStore} {w' : World Disk}
    (h : Peers g w w') {base : Path} {settings : Settings}
    (hon : (Naming.mk base settings.fanout).On g title) :
    Agree (Peers g) (fun db db' => db = db' ∧ db.Suits g title) (Database.openAt base settings w)
      (Database.openAt base settings w') := by
  unfold Database.openAt
  cases hobjection : settings.objection? with
  | some objection => exact .error h
  | none =>
    have hradix : 2 ≤ settings.fanout := by
      unfold Settings.objection? at hobjection
      split at hobjection
      · cases hobjection
      next hsmall => exact UInt32.not_lt.1 hsmall
    cases hlayout : settings.layout with
    | sharded =>
      exact .ok ⟨rfl, hon, Or.inl ⟨⟨_, rfl⟩, hlayout⟩, hradix⟩ h
    | flat =>
      refine (Allocator.afterHighest_agree h hon).bind ?_
      rintro allocator _ v v' ⟨rfl, place, rfl⟩ hv
      exact .ok ⟨rfl, hon, Or.inr ⟨⟨place, rfl⟩, hlayout⟩, hradix⟩ hv

end LargeObjects
