import Mathlib
import LargeObjects.Inventory
import LargeObjects.Removal
import LargeObjects.Proofs.Sweeping

/-! What an inventory says and what a removal does. Both go by one search, so the account of an owner
is the number and the size of the files that go when the files of the owner are removed, and
a removal changes no other account. -/
namespace LargeObjects

open ReliableStore FallibleStore BrowsableStore Step

namespace SortedMap

variable {κ β : Type} [Ord κ] [Std.LawfulEqOrd κ]

theorem nodup_keys (m : SortedMap κ β) : m.keys.Nodup := by
  refine (List.pairwise_map.2 m.sorted).imp fun {k k'} (hlt : compare k k' = .lt) => ?_
  rintro rfl
  rw [Std.ReflOrd.compare_self] at hlt
  cases hlt

theorem get?_of_mem [DecidableEq κ] {m : SortedMap κ β} {e : κ × β} (h : e ∈ m.entries) :
    m.get? e.1 = some e.2 := by
  obtain ⟨v, hget⟩ := Option.isSome_iff_exists.1 (mem_keys_iff.1 (List.mem_map_of_mem h))
  have heq : e = (e.1, v) := List.inj_on_of_nodup_map m.nodup_keys h (mem_of_get? hget) rfl
  rw [hget, heq]

end SortedMap

namespace Inventory

variable {files : List (Found × Nat)} {t : TableId}

def owners (files : List (Found × Nat)) : List TableId := files.filterMap (·.1.owner.table?)

theorem table?_eq_some_iff {owner : Owner} : owner.table? = some t ↔ owner = .table t := by
  cases owner <;> simp [Owner.table?]

theorem count_owners (t : TableId) (files : List (Found × Nat)) :
    (owners files).count t = (ownedBy (.table t) files).length := by
  rw [owners, List.count_filterMap, ownedBy, ← List.countP_eq_length_filter]
  congr 1
  funext f
  rw [beq_eq_decide, decide_eq_decide]
  exact table?_eq_some_iff

theorem mem_owners_iff : t ∈ owners files ↔ ownedBy (.table t) files ≠ [] := by
  rw [← List.count_pos_iff, count_owners, List.length_pos_iff]

/-- What insertions leave in a map when the value depends on the key alone. -/
theorem get?_foldl_insert (value : TableId → Usage) (keys : List TableId)
    (tables : SortedMap TableId Usage) (t : TableId) :
    (keys.foldl (fun tables k => tables.insert k (value k)) tables).get? t =
      if t ∈ keys then some (value t) else tables.get? t := by
  induction keys generalizing tables with
  | nil => rfl
  | cons k keys ih =>
    rw [List.foldl_cons, ih, SortedMap.get?_insert]
    by_cases hmem : t ∈ keys
    · rw [if_pos hmem, if_pos (List.mem_cons_of_mem _ hmem)]
    · rw [if_neg hmem]
      by_cases hk : k = t
      · rw [if_pos hk, if_pos (hk ▸ List.mem_cons_self), hk]
      · rw [if_neg hk, if_neg]
        rw [List.mem_cons, not_or]
        exact ⟨Ne.symm hk, hmem⟩

/-- A table has an account when it owns a file. -/
theorem get?_tablesOf (files : List (Found × Nat)) (t : TableId) :
    (tablesOf files).get? t =
      if t ∈ owners files then some (usage (ownedBy (.table t) files)) else none :=
  get?_foldl_insert _ _ ∅ t

theorem mem_keys_tablesOf : t ∈ (tablesOf files).keys ↔ t ∈ owners files := by
  rw [SortedMap.mem_keys_iff, get?_tablesOf]
  split <;> simp_all

theorem values_tablesOf (files : List (Found × Nat)) :
    (tablesOf files).values =
      (tablesOf files).keys.map fun t => usage (ownedBy (.table t) files) := by
  unfold SortedMap.values SortedMap.keys
  rw [List.map_map]
  refine List.map_congr_left fun e he => ?_
  have hget := SortedMap.get?_of_mem he
  rw [get?_tablesOf] at hget
  split at hget
  · exact (Option.some.inj hget).symm
  · cases hget

/-- No file is in two accounts, and none is in no account. -/
theorem totalFiles_ofFiles (files : List (Found × Nat)) (unreadable : Nat) :
    (ofFiles files unreadable).totalFiles = files.length := by
  have hkeys : (tablesOf files).keys.Perm (owners files).dedup := by
    rw [List.perm_ext_iff_of_nodup (tablesOf files).nodup_keys (List.nodup_dedup _)]
    intro t
    rw [mem_keys_tablesOf, List.mem_dedup]
  have htables : total ((tablesOf files).values.map (·.files)) = (owners files).length := by
    calc total ((tablesOf files).values.map (·.files))
        = ((tablesOf files).keys.map fun t => (owners files).count t).sum := by
          rw [values_tablesOf, List.map_map]
          simp only [count_owners]
          rfl
      _ = ((owners files).dedup.map fun t => (owners files).count t).sum :=
          (hkeys.map _).sum_eq
      _ = (owners files).length := List.sum_map_count_dedup_eq_length _
  have hsplit := List.length_eq_countP_add_countP (fun f : Found × Nat => f.1.owner = .temp)
    (l := files)
  have htemp : (ownedBy .temp files).length =
      files.countP fun f : Found × Nat => f.1.owner = .temp := List.countP_eq_length_filter.symm
  have hrest : (owners files).length =
      files.countP fun f : Found × Nat => ¬decide (f.1.owner = .temp) = true := by
    rw [owners, List.length_filterMap_eq_countP]
    congr 1
    funext f
    cases f.1.owner <;> simp [Owner.table?]
  unfold totalFiles ofFiles
  dsimp only [usage]
  rw [htables, htemp, hrest, ← hsplit]

end Inventory

/-- A store with states in which no file fails to be listed, measured or deleted. Like the laws that it
adds to, it is for stores in memory, with or without faults in front, and not for file systems. -/
class UnfailingStore (σ : Type) [FileStore σ] [FallibleStore σ] [BrowsableStore σ] where
  Unfailing : σ → Prop
  settled {s : σ} : Unfailing s → Settled s
  listable {s : σ} {dir : List Component} : Unfailing s → ¬Unlistable s dir
  deletable {s : σ} {q : List Component} : Unfailing s → ¬Undeletable s q
  size_ok {path : Path} {s : σ} {content : Bytes} : Unfailing s →
    fileAt? (below s) path.components = some content →
    FileStore.size path s = .ok content.length s
  delete_unfailing {path : Path} {s t : σ} {found : Bool} : Unfailing s →
    FileStore.delete path s = .ok found t → Unfailing t

open MemoryStore in
instance : UnfailingStore MemoryStore where
  Unfailing _ := True
  settled _ := trivial
  listable _ h := h
  deletable _ h := h
  size_ok _ h := withFile_eq h
  delete_unfailing _ _ := trivial

open Faulty UnfailingStore in
/-- Faults of other calls do not matter. -/
instance {σ : Type} [FileStore σ] [FallibleStore σ] [BrowsableStore σ] [UnfailingStore σ] :
    UnfailingStore (Faulty σ) where
  Unfailing s := Unfailing s.store ∧ ∀ f ∈ s.faults,
    f.operation ≠ .list ∧ f.operation ≠ .delete ∧ f.operation ≠ .size
  settled := by
    rintro s ⟨hinner, hfaults⟩
    refine ⟨settled hinner, fun f hf hstrikes => ?_⟩
    obtain ⟨hlist, hdelete, -⟩ := hfaults f hf
    exact (hstrikes.elim hlist hdelete).elim
  listable := by
    rintro s dir ⟨hinner, hfaults⟩ (⟨f, hf, hlist, -⟩ | hrefused)
    · exact (hfaults f hf).1 hlist
    · exact listable hinner hrefused
  deletable := by
    rintro s q ⟨hinner, hfaults⟩ (⟨f, hf, hdelete, -⟩ | hrefused)
    · exact (hfaults f hf).2.1 hdelete
    · exact deletable hinner hrefused
  size_ok := by
    rintro path s content ⟨hinner, hfaults⟩ hcontent
    have hfails : ¬Fails .size s.faults path.components := by
      rintro ⟨f, hf, hsize, -⟩
      exact (hfaults f hf).2.2 hsize
    exact (guarded_of_not_fails hfails).trans (pass_ok (size_ok hinner hcontent))
  delete_unfailing := by
    rintro path s t found ⟨hinner, hfaults⟩ hdelete
    have hfails : ¬Fails .delete s.faults path.components := by
      rintro ⟨f, hf, hoperation, -⟩
      exact (hfaults f hf).2.1 hoperation
    have hpass : Faulty.pass (FileStore.delete path) s = .ok found t :=
      (guarded_of_not_fails hfails).symm.trans hdelete
    unfold Faulty.pass at hpass
    split at hpass
    next hrun =>
      cases hpass
      exact ⟨delete_unfailing hinner hrun, hfaults⟩
    next => cases hpass

open UnfailingStore

variable {σ : Type} [FileStore σ] [FallibleStore σ] [BrowsableStore σ] {s t : σ} {owner : Owner}
  {q root : List Component}

/-- Where every directory can be listed, a search comes to each that a file is below. -/
theorem reached_of_isSome (hlistable : ∀ dir, ¬Unlistable s dir) {steps rest : List Component}
    {c : Component} (h : (fileAt? (below s) (root ++ steps ++ c :: rest)).isSome) :
    Reached s root (root ++ steps) := by
  -- By induction on the way down from the root, its last step last.
  induction steps using List.reverseRecOn generalizing c rest with
  | nil =>
    rw [List.append_nil]
    exact .root
  | append_singleton steps d ih =>
    rw [← List.append_assoc] at h ⊢
    rw [List.append_assoc (root ++ steps), List.singleton_append] at h
    exact .step (ih h) (hlistable _) h

def sizeAt (s : σ) (q : List Component) : Nat := ((fileAt? (below s) q).getD []).length

def Survey.sized (survey : Survey) (s : σ) : List (Found × Nat) :=
  survey.files.map fun f => (f, sizeAt s f.path.components)

namespace Database

variable {db : Database}

def Names (db : Database) (owner : Owner) (q : List Component) : Prop :=
  (db.layout = .sharded ∧ ∃ steps name id, q = db.naming.shardRoot.components ++ steps ++ [.name name] ∧
      Naming.parseSharded? name = some (owner, id)) ∨
    ∃ name id, q = db.naming.flatDirectory.components ++ [.name name] ∧
      db.naming.parseFlat? name = some (owner, id)

noncomputable def holdings (db : Database) (s : σ) (owner : Owner) : Usage where
  files := { q | db.Targets s owner q }.ncard
  bytes := ∑ᶠ q ∈ { q | db.Targets s owner q }, sizeAt s q

theorem targets_iff [UnfailingStore σ] (hs : Unfailing s) :
    db.Targets s owner q ↔ (fileAt? (below s) q).isSome ∧ db.Names owner q := by
  constructor
  · rintro (⟨hlayout, dir, hreached, -, hthere, name, id, rfl, hname⟩ | ⟨hthere, hname⟩)
    · obtain ⟨steps, rfl⟩ := hreached.leads
      exact ⟨hthere, Or.inl ⟨hlayout, steps, name, id, rfl, hname⟩⟩
    · exact ⟨hthere, Or.inr hname⟩
  · rintro ⟨hthere, ⟨hlayout, steps, name, id, rfl, hname⟩ | hname⟩
    · have hreached := reached_of_isSome (fun _ => listable hs) hthere
      exact Or.inl ⟨hlayout, _, hreached, listable hs, hthere, name, id, rfl, hname⟩
    · exact Or.inr ⟨hthere, hname⟩

namespace Surveys

variable {survey : Survey}

/-- No place is that of files of two owners. -/
theorem owner_unique (h : db.Surveys s survey) {owner' : Owner} (howner : db.Targets s owner q)
    (howner' : db.Targets s owner' q) : owner = owner' := by
  obtain ⟨f, hf, hplace, rfl⟩ := (h.mem_files q owner).2 howner
  obtain ⟨f', hf', hplace', rfl⟩ := (h.mem_files q owner').2 howner'
  rw [List.inj_on_of_nodup_map h.nodup hf hf' (hplace.trans hplace'.symm)]

theorem usage_eq (h : db.Surveys s survey) (owner : Owner) :
    Inventory.usage (Inventory.ownedBy owner (survey.sized s)) = db.holdings s owner := by
  classical
  have howned : Inventory.ownedBy owner (survey.sized s) =
      (survey.files.filter (·.owner = owner)).map fun f => (f, sizeAt s f.path.components) :=
    List.filter_map
  have hset : { q | db.Targets s owner q } =
      (((survey.files.filter (·.owner = owner)).map (·.path.components)).toFinset : Set _) := by
    ext q
    rw [List.coe_toFinset]
    exact h.mem_owned.symm
  unfold holdings Inventory.usage
  rw [howned, hset, Set.ncard_coe_finset, List.toFinset_card_of_nodup (h.nodup_owned owner),
    finsum_mem_coe_finset, List.sum_toFinset _ (h.nodup_owned owner), List.length_map,
    List.length_map, List.map_map, List.map_map]
  rfl

end Surveys

section Unfailing

variable [UnfailingStore σ] {directory : Path} {name : Name} {w : World σ}

theorem mapM_size_ok (hs : Unfailing s) {files : List Found}
    (hfiles : ∀ f ∈ files, (fileAt? (below s) f.path.components).isSome) :
    files.mapM (fun f => return (f, ← FileStore.size f.path) : Found →
      Step StoreError σ (Found × Nat)) s =
      .ok (files.map fun f => (f, sizeAt s f.path.components)) s := by
  induction files with
  | nil => rfl
  | cons f files ih =>
    obtain ⟨content, hcontent⟩ := Option.isSome_iff_exists.1 (hfiles f List.mem_cons_self)
    have hsize : FileStore.size f.path s = .ok (sizeAt s f.path.components) s := by
      rw [size_ok hs hcontent, sizeAt, hcontent]
      rfl
    have hfirst : (return (f, ← FileStore.size f.path) : Step StoreError σ (Found × Nat)) s =
        .ok (f, sizeAt s f.path.components) s := bind_ok hsize
    rw [List.mapM_cons, bind_ok hfirst,
      bind_ok (ih fun f' hf' => hfiles f' (List.mem_cons_of_mem _ hf'))]
    rfl

theorem not_refuses (hs : Unfailing s) : ¬db.Refuses s := by
  rintro (⟨-, hroot⟩ | hflat)
  · exact listable hs hroot
  · exact listable hs hflat

/-- An inventory is made of what a search finds. -/
theorem inventory_ok (hw : Unfailing w.store) {survey : Survey}
    (hsurvey : db.survey w.store = .ok survey w.store) (h : db.Surveys w.store survey) :
    db.inventory w = .ok (Inventory.ofFiles (survey.sized w.store) survey.unreadable) w := by
  have hfiles : ∀ f ∈ survey.files, (fileAt? (below w.store) f.path.components).isSome :=
    fun f hf => ((h.mem_files _ f.owner).1 ⟨f, hf, rfl, rfl⟩).isSome
  unfold inventory
  apply World.onStore_ok
  rw [bind_ok hsurvey, bind_ok (mapM_size_ok hw hfiles)]
  rfl

structure Rid (db : Database) (owner : Owner) (s t : σ) : Prop where
  unfailing : Unfailing t
  gone : ∀ q, db.Targets s owner q → fileAt? (below t) q = none
  kept : ∀ q, ¬db.Targets s owner q → fileAt? (below t) q = fileAt? (below s) q

theorem unfailing_deleteAll (hs : Unfailing s) (paths : List Path) (report : RemovalReport) :
    Unfailing (deleteAll paths report s).2 := by
  induction paths generalizing s report with
  | nil => exact hs
  | cons path paths ih =>
    obtain ⟨found, t, hdelete, -⟩ := delete_granted (settled hs) (deletable (q := path.components) hs)
    have ht := delete_unfailing hs hdelete
    unfold deleteAll
    rw [hdelete]
    cases found with
    | true => exact ih ht _
    | false => exact ih ht _

theorem removeOwned_unfailing (hw : Unfailing w.store) {survey : Survey}
    (hsurvey : db.survey w.store = .ok survey w.store) (h : db.Surveys w.store survey)
    (owner : Owner) : ∃ t, db.removeOwned owner w =
      .ok { removed := (db.holdings w.store owner).files } { w with store := t } ∧
      db.Rid owner w.store t := by
  obtain ⟨hclears, -⟩ := h.clears (settled hw) owner
  have hskips : survey.unreadable = 0 := by
    have hnone : { dir | db.Skips w.store dir } = ∅ :=
      Set.eq_empty_of_forall_notMem fun dir hdir => listable hw hdir.2.2.2
    rw [h.unreadable_eq, hnone, Set.ncard_empty]
  have hall : ∀ q, db.Targets w.store owner q ∧ ¬Undeletable w.store q ↔
      db.Targets w.store owner q := fun q => and_iff_left (deletable hw)
  have hnone : ∀ q, ¬(db.Targets w.store owner q ∧ Undeletable w.store q) :=
    fun q hq => deletable hw hq.2
  have hrun : db.removeOwned owner w = _ := removeOwned_ok owner hsurvey
  have hunfailing := unfailing_deleteAll hw
    ((survey.files.filter (·.owner = owner)).map (·.path)) { failed := survey.unreadable }
  rw [hskips] at hclears hrun hunfailing
  generalize deleteAll _ _ w.store = outcome at hclears hrun hunfailing
  obtain ⟨⟨removed, failed⟩, t⟩ := outcome
  -- The report counts what the owner has, and nothing that failed.
  have hremoved : removed = (db.holdings w.store owner).files := by
    have heq := hclears.removed_eq
    simp only [hall, Nat.zero_add] at heq
    exact heq
  have hfailed : failed = 0 := by
    have heq := hclears.failed_eq
    simp only [hnone, Set.ofPred_false, Set.ncard_empty] at heq
    exact heq
  refine ⟨t, ?_, hunfailing, fun q hq => hclears.gone q hq (deletable hw),
    fun q hq => hclears.kept q fun htarget => absurd htarget hq⟩
  rw [hrun, hremoved, hfailed]

namespace Rid

theorem isSome_of_later (h : db.Rid owner s t) (hthere : (fileAt? (below t) q).isSome) :
    fileAt? (below t) q = fileAt? (below s) q := by
  apply h.kept
  intro htarget
  rw [h.gone q htarget] at hthere
  cases hthere

theorem unnested (h : db.Rid owner s t) (hunnested : Unnested s) : Unnested t := by
  intro q c rest hthere
  by_contra hbelow
  have hsome := Option.isSome_iff_ne_none.2 hbelow
  rw [h.isSome_of_later hthere] at hthere
  rw [h.isSome_of_later hsome, hunnested q c rest hthere] at hsome
  cases hsome

/-- Of the files of other owners none goes, and of those of the owner none stays. -/
theorem targets_iff_of_ne (h : db.Rid owner s t) (hs : Unfailing s) {survey : Survey}
    (hfound : db.Surveys s survey) {owner' : Owner} (hne : owner' ≠ owner) :
    db.Targets t owner' q ↔ db.Targets s owner' q := by
  rw [targets_iff h.unfailing, targets_iff hs]
  constructor
  · rintro ⟨hthere, hname⟩
    rw [h.isSome_of_later hthere] at hthere
    exact ⟨hthere, hname⟩
  · rintro ⟨hthere, hname⟩
    have hkept := h.kept q fun htarget =>
      hne (hfound.owner_unique ((targets_iff hs).2 ⟨hthere, hname⟩) htarget)
    rw [hkept]
    exact ⟨hthere, hname⟩

theorem not_targets (h : db.Rid owner s t) (hs : Unfailing s) : ¬db.Targets t owner q := by
  rw [targets_iff h.unfailing]
  rintro ⟨hthere, hname⟩
  have hbefore := hthere
  rw [h.isSome_of_later hthere] at hbefore
  rw [h.gone q ((targets_iff hs).2 ⟨hbefore, hname⟩)] at hthere
  cases hthere

theorem holdings_of_ne (h : db.Rid owner s t) (hs : Unfailing s) {survey : Survey}
    (hfound : db.Surveys s survey) {owner' : Owner} (hne : owner' ≠ owner) :
    db.holdings t owner' = db.holdings s owner' := by
  have hset : { q | db.Targets t owner' q } = { q | db.Targets s owner' q } :=
    Set.ext fun q => h.targets_iff_of_ne hs hfound hne
  unfold holdings
  rw [hset]
  congr 1
  refine finsum_mem_congr rfl fun q hq => ?_
  have hthere : (fileAt? (below t) q).isSome :=
    Targets.isSome ((h.targets_iff_of_ne hs hfound hne).2 hq)
  rw [sizeAt, sizeAt, h.isSome_of_later hthere]

theorem holdings_files (h : db.Rid owner s t) (hs : Unfailing s) :
    (db.holdings t owner).files = 0 := by
  have hnone : { q | db.Targets t owner q } = ∅ :=
    Set.eq_empty_of_forall_notMem fun q hq => h.not_targets hs hq
  unfold holdings
  rw [hnone, Set.ncard_empty]

/-- The octets that are gone are those of the owner. -/
theorem lost_eq (h : db.Rid owner s t) :
    ∑ᶠ q ∈ { q | (fileAt? (below s) q).isSome ∧ fileAt? (below t) q = none }, sizeAt s q =
      (db.holdings s owner).bytes := by
  refine finsum_mem_congr (Set.ext fun q => ?_) fun _ _ => rfl
  constructor
  · rintro ⟨hthere, hgone⟩
    by_contra hq
    rw [← h.kept q hq, hgone] at hthere
    cases hthere
  · intro hq
    exact ⟨Targets.isSome hq, h.gone q hq⟩

end Rid

structure Accounted (db : Database) (s : σ) (i : Inventory) : Prop where
  get?_tables (t : TableId) : i.tables.get? t =
    if (db.holdings s (.table t)).files = 0 then none else some (db.holdings s (.table t))
  temp_eq : ⟨i.tempFiles, i.tempBytes⟩ = db.holdings s .temp
  totalFiles_eq : (i.totalFiles : ℕ∞) =
    { q | (fileAt? (below s) q).isSome ∧ ∃ owner, db.Names owner q }.encard

theorem Surveys.accounted (hs : Unfailing s) {survey : Survey} (h : db.Surveys s survey) :
    db.Accounted s (Inventory.ofFiles (survey.sized s) survey.unreadable) where
  get?_tables table := by
    have hfiles : table ∈ Inventory.owners (survey.sized s) ↔
        (db.holdings s (.table table)).files ≠ 0 := by
      rw [Inventory.mem_owners_iff, ← h.usage_eq, ne_eq, ne_eq, ← List.length_eq_zero_iff]
      rfl
    change (Inventory.tablesOf (survey.sized s)).get? table = _
    rw [Inventory.get?_tablesOf, h.usage_eq]
    simp only [hfiles, ne_eq, ite_not]
  temp_eq := by
    rw [← h.usage_eq]
    rfl
  totalFiles_eq := by
    classical
    have hset : { q | (fileAt? (below s) q).isSome ∧ ∃ owner, db.Names owner q } =
        ((survey.files.map (·.path.components)).toFinset : Set _) := by
      ext q
      rw [List.coe_toFinset]
      constructor
      · rintro ⟨hthere, owner, hname⟩
        obtain ⟨f, hf, hplace, -⟩ := (h.mem_files q owner).2 ((targets_iff hs).2 ⟨hthere, hname⟩)
        exact List.mem_map.2 ⟨f, hf, hplace⟩
      · intro hmem
        obtain ⟨f, hf, hplace⟩ := List.mem_map.1 hmem
        obtain ⟨hthere, hname⟩ := (targets_iff hs).1 ((h.mem_files q f.owner).1 ⟨f, hf, hplace, rfl⟩)
        exact ⟨hthere, f.owner, hname⟩
    rw [Inventory.totalFiles_ofFiles, hset, Set.encard_coe_eq_coe_finsetCard,
      List.toFinset_card_of_nodup h.nodup, List.length_map, Survey.sized, List.length_map]

/-- The inventory of a store without failures is right, and so are the counts of a removal. -/
theorem accounts_ok (hbase : db.naming.base = directory.join name) (hname : IsName name)
    (hdirectory : directory.spelling ≠ []) (hw : Unfailing w.store) (hunnested : Unnested w.store) :
    ∃ i, db.inventory w = .ok i w ∧ db.Accounted w.store i ∧ ∀ owner, ∃ t,
      db.removal owner w =
        .ok { removed := (db.holdings w.store owner).files } { w with store := t } ∧
      db.Rid owner w.store t ∧ (db.holdings t owner).files = 0 ∧
      ∀ owner' ≠ owner, db.holdings t owner' = db.holdings w.store owner' := by
  obtain ⟨survey, hsurvey, hfound⟩ := survey_ok (settled hw) hunnested hbase hname hdirectory
    (not_refuses hw)
  refine ⟨_, inventory_ok hw hsurvey hfound, hfound.accounted hw, fun owner => ?_⟩
  obtain ⟨t, hrun, hrid⟩ := removeOwned_unfailing hw hsurvey hfound owner
  rw [removal_eq]
  exact ⟨t, hrun, hrid, hrid.holdings_files hw, fun _ => hrid.holdings_of_ne hw hfound⟩

/-- Inventory and removals agree. In a state without failures, in which no file is below another, an
inventory counts each file that is named like one of the database once. A table has an account when
removing it would remove files, and the account has their number and size; what is told of temporary
files is the number and the size of those that a purge removes. After a table is removed, the inventory
lacks its account and has the others as before. -/
theorem inventory_agrees (hbase : db.naming.base = directory.join name) (hname : IsName name)
    (hdirectory : directory.spelling ≠ []) (hw : Unfailing w.store) (hunnested : Unnested w.store) :
    let lost (w' : World σ) := { q | (fileAt? w.below.store q).isSome ∧
      fileAt? w'.below.store q = none }
    ∃ i, db.inventory w = .ok i w ∧
      (i.totalFiles : ℕ∞) =
        { q | (fileAt? w.below.store q).isSome ∧ ∃ owner, db.Names owner q }.encard ∧
      (∀ table, ∃ report w' i', db.removeTable table w = .ok report w' ∧
        db.inventory w' = .ok i' w' ∧
        ((i.tables.get? table).isSome ↔ 0 < report.removed) ∧
        (∀ usage, i.tables.get? table = some usage →
          usage = ⟨report.removed, ∑ᶠ q ∈ lost w', sizeAt w.store q⟩) ∧
        i'.tables.get? table = none ∧
        (∀ other ≠ table, i'.tables.get? other = i.tables.get? other) ∧
        i'.tempFiles = i.tempFiles ∧ i'.tempBytes = i.tempBytes) ∧
      ∃ report w', db.purgeTemp w = .ok report w' ∧ i.tempFiles = report.removed ∧
        i.tempBytes = ∑ᶠ q ∈ lost w', sizeAt w.store q := by
  intro lost
  obtain ⟨i, hinventory, haccounts, hremovals⟩ := accounts_ok hbase hname hdirectory hw hunnested
  refine ⟨i, hinventory, haccounts.totalFiles_eq, fun table => ?_, ?_⟩
  · obtain ⟨t, hrun, hrid, hnone, hothers⟩ := hremovals (.table table)
    -- The store that is left has no failures either, so the inventory of it is right.
    obtain ⟨i', hinventory', haccounts', -⟩ :=
      accounts_ok (w := { w with store := t }) hbase hname hdirectory hrid.unfailing
        (hrid.unnested hunnested)
    have htable := haccounts.get?_tables table
    have hlost : ∑ᶠ q ∈ lost { w with store := t }, sizeAt w.store q =
        (db.holdings w.store (.table table)).bytes := hrid.lost_eq
    refine ⟨_, _, i', hrun, hinventory', ?_, fun usage husage => ?_, ?_, fun other hother => ?_, ?_⟩
    · rw [htable, Nat.pos_iff_ne_zero]
      by_cases hzero : (db.holdings w.store (.table table)).files = 0
      · simp [hzero]
      · simp [hzero]
    · rw [htable] at husage
      split at husage
      · cases husage
      · rw [hlost]
        exact (Option.some.inj husage).symm
    · rw [haccounts'.get?_tables, hnone, if_pos rfl]
    · have hne : Owner.table other ≠ .table table := fun h => hother (Owner.table.inj h)
      rw [haccounts'.get?_tables, haccounts.get?_tables, hothers _ hne]
    · have htemp := haccounts'.temp_eq
      rw [hothers .temp nofun, ← haccounts.temp_eq] at htemp
      exact Usage.mk.inj htemp
  · obtain ⟨t, hrun, hrid, -, -⟩ := hremovals .temp
    have hlost : ∑ᶠ q ∈ lost { w with store := t }, sizeAt w.store q =
        (db.holdings w.store .temp).bytes := hrid.lost_eq
    obtain ⟨hfiles, hbytes⟩ := Usage.mk.inj haccounts.temp_eq
    exact ⟨_, _, hrun, hfiles, hbytes.trans hlost.symm⟩

end Unfailing

open Session (smallDatabase)

def stockedWorld : World MemoryStore where
  store := (((((default : MemoryStore).put (smallDatabase.naming.path .sharded (.table ⟨6⟩) ⟨1⟩) [1]).put
    (smallDatabase.naming.path .sharded (.table ⟨6⟩) ⟨5⟩) [5, 5]).put
    (smallDatabase.naming.path .sharded (.table ⟨7⟩) ⟨3⟩) [3]).put
    (smallDatabase.naming.path .flat (.table ⟨6⟩) ⟨9⟩) [9, 9, 9]).put
    (smallDatabase.naming.path .sharded .temp ⟨2⟩) [2]

/-- Two tables have files in a tree and beside it, and one file is nobody's yet; then the first table
is swept. -/
theorem inventory_agrees_stocked :
    ∃ i, smallDatabase.inventory stockedWorld = .ok i stockedWorld ∧ i.totalFiles = 5 ∧
      i.tables.get? ⟨6⟩ = some ⟨3, 6⟩ ∧
      ∃ report w' i', smallDatabase.removeTable ⟨6⟩ stockedWorld = .ok report w' ∧
        smallDatabase.inventory w' = .ok i' w' ∧ report.removed = 3 ∧ i'.tables.get? ⟨6⟩ = none ∧
        i'.tables.get? ⟨7⟩ = i.tables.get? ⟨7⟩ ∧ i'.tempFiles = i.tempFiles := by
  have hunnested : Unnested stockedWorld.store := by
    apply MemoryStore.unnested
    decide +kernel
  have hname : IsName ['b'] := ⟨by decide, by decide, by decide, by decide⟩
  have hbase : smallDatabase.naming.base = (⟨['d']⟩ : Path).join ['b'] := rfl
  obtain ⟨i, hinventory, -, htables, -⟩ :=
    inventory_agrees hbase hname (by decide) (w := stockedWorld) trivial hunnested
  obtain ⟨report, w', i', hremove, hinventory', -, -, hgone, hothers, htemp, -⟩ := htables ⟨6⟩
  obtain ⟨j, hrun, htotal, htable⟩ : ∃ j, smallDatabase.inventory stockedWorld =
      .ok j stockedWorld ∧ j.totalFiles = 5 ∧ j.tables.get? ⟨6⟩ = some ⟨3, 6⟩ := ⟨_, rfl, rfl, rfl⟩
  obtain ⟨w'', hremoved⟩ : ∃ w'', smallDatabase.removeTable ⟨6⟩ stockedWorld =
      .ok { removed := 3 } w'' := ⟨_, rfl⟩
  obtain ⟨rfl, -⟩ := EStateM.Result.ok.inj (hinventory.symm.trans hrun)
  obtain ⟨rfl, -⟩ := EStateM.Result.ok.inj (hremove.symm.trans hremoved)
  exact ⟨i, hinventory, htotal, htable, _, w', i', hremove, hinventory', rfl, hgone,
    hothers ⟨7⟩ (by decide), htemp⟩

end Database

end LargeObjects
