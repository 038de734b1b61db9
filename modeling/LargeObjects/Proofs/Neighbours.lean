import Mathlib
import LargeObjects.Inventory
import LargeObjects.Proofs.LocalStores
import LargeObjects.Proofs.Finding
import LargeObjects.Proofs.Sweeping

/-! Databases next to each other. All that a database finds lies down from names of its own, and these
are never names of another database in the same directory, so it deletes and counts nothing of the
other one, and its ids do not go by what the other one has. -/
namespace LargeObjects

open Step LocalStore

namespace Naming

variable {n n' : Naming} {down : Component → Prop} {p q : Path} {a b : Name}

def Owns (n : Naming) (a : Name) : Prop := a = n.rootName ∨ (n.parseFlat? a).isSome

def Area (down : Component → Prop) (n : Naming) (p : Path) : Prop :=
  ∃ a rest, n.Owns a ∧ (∀ c ∈ rest, down c) ∧ p.way = Path.undotted n.base.lead ++ .name a :: rest

theorem Area.step (h : n.Area down p) {c : Component} (hc : down c) (hdot : c ≠ .current)
    (hq : q.components = p.components ++ [c]) : n.Area down q := by
  obtain ⟨a, rest, ha, hrest, hway⟩ := h
  refine ⟨a, rest ++ [c], ha, fun c' hc' => ?_, ?_⟩
  · rcases List.mem_append.1 hc' with hold | hnew
    · exact hrest c' hold
    · rw [List.mem_singleton.1 hnew]
      exact hc
  · rw [Path.way_of_components hq (by simpa using hdot.symm), ← Path.way, hway, List.append_assoc]
    rfl

theorem Area.components_ne_nil (h : n.Area down p) : p.components ≠ [] := by
  obtain ⟨a, rest, -, -, hway⟩ := h
  intro hnil
  rw [Path.way, hnil] at hway
  exact List.append_ne_nil_of_right_ne_nil _ (List.cons_ne_nil _ _) hway.symm

/-- A name is read as a flat file's of one database only. -/
theorem lastPiece_eq_of_parseFlat? (hname : IsName n.base.lastPiece) (hname' : IsName n'.base.lastPiece)
    (h : (n.parseFlat? a).isSome) (h' : (n'.parseFlat? a).isSome) :
    n.base.lastPiece = n'.base.lastPiece := by
  obtain ⟨⟨owner, id⟩, h⟩ := Option.isSome_iff_exists.1 h
  obtain ⟨⟨owner', id'⟩, h'⟩ := Option.isSome_iff_exists.1 h'
  obtain ⟨lead, rest, hlead, hsplit, hreads⟩ := parseFlat?_eq_some.1 h
  obtain ⟨lead', rest', hlead', hsplit', hreads'⟩ := parseFlat?_eq_some.1 h'
  rw [Path.fileName?_eq_lastPiece_iff.2 hname] at hlead
  rw [Path.fileName?_eq_lastPiece_iff.2 hname'] at hlead'
  have hsame := hreads.lead_unique hreads' (hsplit.symm.trans hsplit')
  rw [Option.some.inj hlead, Option.some.inj hlead', hsame]

/-- A tree has a name that no flat file has. -/
theorem parseFlat?_rootName (n n' : Naming) : n.parseFlat? n'.rootName = none := by
  cases h : n.parseFlat? n'.rootName with
  | none => rfl
  | some found =>
    obtain ⟨owner, id⟩ := found
    obtain ⟨lead, rest, -, hsplit, hreads⟩ := parseFlat?_eq_some.1 h
    have htree : directorySuffix.toList <:+ n'.rootName := List.suffix_append _ _
    have hlong : flatTempSuffix.toList.length ≤ directorySuffix.toList.length ∧
        objectSuffix.toList.length ≤ directorySuffix.toList.length := by decide
    have hrest : rest <:+ n'.rootName := hsplit ▸ (List.suffix_cons _ _).trans (List.suffix_append _ _)
    cases hreads with
    | temp =>
      have hends := (List.suffix_append _ _).trans hrest
      exact absurd (List.suffix_of_suffix_length_le hends htree hlong.1) (by decide)
    | table =>
      have hends := (List.suffix_append _ _).trans hrest
      exact absurd (List.suffix_of_suffix_length_le hends htree hlong.2) (by decide)

theorem ne_of_owns (hname : IsName n.base.lastPiece) (hname' : IsName n'.base.lastPiece)
    (hne : n.base.lastPiece ≠ n'.base.lastPiece) (h : n.Owns a) (h' : n'.Owns b) : a ≠ b := by
  rintro rfl
  rcases h with hroot | hflat
  · rcases h' with hroot' | hflat'
    · exact hne (List.append_cancel_right (hroot.symm.trans hroot'))
    · rw [hroot, parseFlat?_rootName] at hflat'
      cases hflat'
  · rcases h' with hroot' | hflat'
    · rw [hroot', parseFlat?_rootName] at hflat
      cases hflat
    · exact hne (lastPiece_eq_of_parseFlat? hname hname' hflat hflat')

theorem area_shardRoot (n : Naming) (down : Component → Prop) : n.Area down n.shardRoot := by
  exact ⟨_, [], Or.inl rfl, nofun, Path.way_of_components n.components_shardRoot (by simp)⟩

theorem not_current_of_mem (names : List Name) : .current ∉ names.map Component.name := by
  intro hmem
  obtain ⟨t, -, ht⟩ := List.mem_map.1 hmem
  cases ht

/-- Files of a database are in its area. -/
theorem area_path (hdown : ∀ {t}, IsName t → down (.name t)) (hname : IsName n.base.lastPiece)
    {layout : Layout} (owner : Owner) {id : ObjectId}
    (hslot : layout = .sharded → id.word % n.fanout ≠ 0) : n.Area down (n.path layout owner id) := by
  cases layout with
  | flat =>
    refine ⟨n.base.lastPiece ++ flatEnding owner id, [], Or.inr ?_, nofun,
      Path.way_of_components (components_flatPath n owner id) (by simp)⟩
    rw [(parseFlat?_flat_iff owner id).2 hname]
    rfl
  | sharded =>
    let digits := digits n.fanout.toNat (id.word.toNat / n.fanout.toNat)
    have hsteps : (n.shardedPath owner id).components = n.base.lead ++
        (n.rootName :: (digits.map directoryName ++ [fileName owner id])).map .name := by
      rw [components_shardedPath n owner (hslot rfl), components_shardDirectory, directorySteps,
        List.append_assoc, List.map_cons, List.map_append, List.map_map]
      rfl
    refine ⟨n.rootName, (digits.map directoryName ++ [fileName owner id]).map .name, Or.inl rfl,
      fun c hc => ?_, Path.way_of_components hsteps (not_current_of_mem (_ :: _))⟩
    obtain ⟨t, ht, rfl⟩ := List.mem_map.1 hc
    apply hdown
    rcases List.mem_append.1 ht with ht | ht
    · obtain ⟨digit, -, rfl⟩ := List.mem_map.1 ht
      exact isName_directoryName digit
    · rw [List.mem_singleton.1 ht]
      exact isName_fileName owner id

theorem parts_of_area (hlead : n.base.lead = n'.base.lead)
    (hnames : ∀ a b, n.Owns a → n'.Owns b → a ≠ b) (hp : n.Area down p) (hq : n'.Area down q) :
    p.Parts down q := by
  obtain ⟨a, rest, ha, hrest, hway⟩ := hp
  obtain ⟨b, rest', hb, hrest', hway'⟩ := hq
  rw [← hlead] at hway'
  exact ⟨_, a, b, rest, rest', hnames a b ha hb, hrest, hrest', hway, hway'⟩

theorem not_shardRoot_prefix (hlead : n.base.lead = n'.base.lead) (hne : n.rootName ≠ n'.rootName) :
    ¬n.shardRoot.components <+: n'.shardRoot.components := by
  intro h
  rw [components_shardRoot, components_shardRoot, hlead, List.prefix_append_right_inj] at h
  exact hne (Component.name.inj (List.cons_prefix_cons.1 h).1)

/-- Flat files are looked for where the database is. -/
theorem way_flatDirectory (hname : IsName n.base.lastPiece) :
    n.flatDirectory.way = Path.undotted n.base.lead := by
  by_cases hlead : n.base.lead = []
  · rw [flatDirectory_of_bare hname hlead, hlead]
    decide
  · exact congrArg Path.undotted (flatDirectory_of_lead hname hlead).1

theorem components_flatDirectory_ne_nil (n : Naming) : n.flatDirectory.components ≠ [] := by
  apply Path.components_ne_nil
  unfold flatDirectory
  split
  · split
    · exact List.cons_ne_nil _ _
    next hne => exact hne
  · exact List.cons_ne_nil _ _

end Naming

section Finding

variable {σ : Type} [FileStore σ] [LocalStore σ] {n : Naming} {s s' : σ}

inductive Local {α : Type} (n : Naming) (files : α → List Found) (s : σ) :
    EStateM.Result StoreError σ α → Prop
  | ok {found : α} {t : σ} : SameFiles s t → (∀ f ∈ files found, n.Area (Down σ) f.path) →
    Local n files s (.ok found t)
  | error {e : StoreError} {t : σ} : SameFiles s t → Local n files s (.error e t)

theorem Local.after_same {α : Type} {files : α → List Found} (h : SameFiles s s')
    {r : EStateM.Result StoreError σ α} (hr : Local n files s' r) : Local n files s r := by
  cases hr with
  | ok hkept hfiles => exact .ok (h.trans hkept) hfiles
  | error hkept => exact .error (h.trans hkept)

theorem Local.bind {α β : Type} {files : α → List Found} {files' : β → List Found}
    {x : Step StoreError σ α} {f : α → Step StoreError σ β} (h : Local n files s (x s))
    (hrest : ∀ a t, SameFiles s t → (∀ f ∈ files a, n.Area (Down σ) f.path) →
      Local n files' s (f a t)) : Local n files' s ((x >>= f) s) := by
  cases hx : x s with
  | ok a t =>
    rw [hx] at h
    rw [bind_ok hx]
    cases h with
    | ok hkept hfiles => exact hrest a t hkept hfiles
  | error e t =>
    rw [hx] at h
    rw [bind_error hx]
    cases h with
    | error hkept => exact .error hkept

namespace Survey

/-- A walk only goes down. -/
theorem local_walk (hs : Sane s) (fuel : Nat) {pending : List (Path × Nat)} {survey : Survey}
    (hpending : ∀ p ∈ pending, n.Area (Down σ) p.1)
    (hfiles : ∀ f ∈ survey.files, n.Area (Down σ) f.path) :
    Local n Survey.files s (walk fuel pending survey s) := by
  induction fuel generalizing pending survey s with
  | zero => exact .ok (.refl hs) hfiles
  | succ fuel ih =>
    rcases pending with _ | ⟨⟨dir, depth⟩, pending⟩
    · exact .ok (.refl hs) hfiles
    have hdir : n.Area (Down σ) dir := hpending _ List.mem_cons_self
    have hothers := fun p hp => hpending p (List.mem_cons_of_mem _ hp)
    cases hlist : FileStore.list dir s with
    | error e s₁ =>
      have hkept := kept_list hs (after_error hlist)
      by_cases hdepth : depth = 0
      · rw [walk_error_root fuel hdepth pending survey hlist]
        exact .error hkept
      · rw [walk_error fuel hdepth pending survey hlist]
        exact .after_same hkept (ih hkept.sane hothers hfiles)
    | ok entries s₁ =>
      have hkept := kept_list hs (after_ok hlist)
      have hentries : ∀ path ∈ entries, n.Area (Down σ) path := by
        intro path hpath
        obtain ⟨c, hc, hsteps⟩ := list_down hs hdir.components_ne_nil hlist path hpath
        exact hdir.step hc (fun hdot => not_down_current (hdot ▸ hc)) hsteps
      rw [walk_ok fuel depth pending survey hlist]
      refine .after_same hkept (ih hkept.sane (fun p hp => ?_) fun f hf => ?_)
      · rcases List.mem_append.1 hp with hchild | hold
        · obtain ⟨path, hpath, rfl⟩ := List.mem_map.1 (List.mem_reverse.1 hchild)
          exact hentries path (List.mem_filter.1 hpath).1
        · exact hothers p hold
      · rcases List.mem_append.1 hf with hold | hnew
        · exact hfiles f hold
        · obtain ⟨path, hpath, hfound⟩ := List.mem_filterMap.1 hnew
          rw [((reads_inTree depth).path_eq hfound).1]
          exact hentries path (List.mem_filter.1 hpath).1

theorem local_ofFlat (hs : Sane s) (hname : IsName n.base.lastPiece) :
    Local n id s (ofFlat n s) := by
  cases hlist : FileStore.list n.flatDirectory s with
  | error e s₁ =>
    rw [show ofFlat n s = .error e s₁ from bind_error hlist]
    exact .error (kept_list hs (after_error hlist))
  | ok entries s₁ =>
    have hrun : ofFlat n s = .ok ((entries.filterMap (inFlat? n)).filter fun f =>
        !FileStore.isDirectory f.path s₁) s₁ := bind_ok hlist
    rw [hrun]
    refine .ok (kept_list hs (after_ok hlist)) fun f hf => ?_
    obtain ⟨path, hpath, hfound⟩ := List.mem_filterMap.1 (List.mem_filter.1 hf).1
    obtain ⟨hsame, name, id, hread, hparse⟩ := (reads_inFlat n).path_eq hfound
    obtain ⟨c, hc, hsteps⟩ :=
      list_down hs n.components_flatDirectory_ne_nil hlist path hpath
    -- The entry goes on from the directory by the name that was read.
    have hstep : c = .name name := by
      unfold Path.fileName? at hread
      rw [hsteps, List.getLast?_concat] at hread
      split at hread
      next hlast =>
        cases hread
        exact Option.some.inj hlast
      next => cases hread
    rw [hsame]
    refine ⟨name, [], Or.inr (by rw [hparse]; rfl), nofun, ?_⟩
    rw [← Naming.way_flatDirectory hname, ← hstep]
    exact Path.way_of_components hsteps (by simp [hstep])

end Survey

namespace Database

variable {db : Database}

theorem local_survey (hs : Sane s) (hname : IsName db.naming.base.lastPiece) :
    Local db.naming Survey.files s (db.survey s) := by
  have hrest : ∀ (tree : Survey) (t : σ), SameFiles s t →
      (∀ f ∈ tree.files, db.naming.Area (Down σ) f.path) → Local db.naming Survey.files s ((do
        let flat ← Survey.ofFlat db.naming
        pure { tree with files := tree.files ++ flat }) t) := by
    intro tree t hkept htree
    refine .after_same hkept (.bind (Survey.local_ofFlat hkept.sane hname) fun flat t' hkept' hflat => ?_)
    refine .ok hkept' fun f hf => ?_
    rcases List.mem_append.1 hf with hf | hf
    · exact htree f hf
    · exact hflat f hf
  unfold survey
  cases db.layout with
  | flat => exact hrest {} s (.refl hs) nofun
  | sharded =>
    have htree : Local db.naming Survey.files s (Survey.ofTree db.naming s) := by
      refine Survey.local_walk hs _ (fun p hp => ?_) nofun
      rw [List.mem_singleton.1 hp]
      exact db.naming.area_shardRoot _
    exact htree.bind hrest

theorem contentAt?_deleteAll (hs : Sane s) {paths : List Path} {q : Path}
    (hparts : ∀ p ∈ paths, p.Parts (Down σ) q) (report : RemovalReport) :
    contentAt? (deleteAll paths report s).2 q = contentAt? s q := by
  induction paths generalizing s report with
  | nil => rfl
  | cons path rest ih =>
    obtain ⟨hsane, hkept⟩ := contentAt?_delete hs (hparts path List.mem_cons_self)
    have hrest : ∀ (report : RemovalReport) (t : σ), after (FileStore.delete path) s = t →
        contentAt? (deleteAll rest report t).2 q = contentAt? s q := by
      rintro report t rfl
      rw [ih hsane (fun p hp => hparts p (List.mem_cons_of_mem _ hp)), hkept]
    unfold deleteAll
    rcases hdelete : FileStore.delete path s with ⟨_ | _, t⟩ | ⟨e, t⟩
    · exact hrest _ t (after_ok hdelete)
    · exact hrest _ t (after_ok hdelete)
    · exact hrest _ t (after_error hdelete)

/-- What is away from the area of a database stays when files of an owner are deleted. -/
theorem contentAt?_removal {w : World σ} (hs : Sane w.store) (hname : IsName db.naming.base.lastPiece)
    {q : Path} (hparts : ∀ p, db.naming.Area (Down σ) p → p.Parts (Down σ) q) (owner : Owner) :
    contentAt? (after (db.removal owner) w).store q = contentAt? w.store q := by
  have hlocal : Local db.naming Survey.files w.store (db.survey w.store) := local_survey hs hname
  rw [after_congr (removal_eq db owner w)]
  cases hsurvey : db.survey w.store with
  | error e t =>
    rw [hsurvey] at hlocal
    rw [after_error (removeOwned_error hsurvey)]
    cases hlocal with
    | error hkept => exact hkept.contentAt?_eq q
  | ok survey t =>
    rw [hsurvey] at hlocal
    rw [after_ok (removeOwned_ok owner hsurvey)]
    cases hlocal with
    | ok hkept hfiles =>
      refine (contentAt?_deleteAll hkept.sane (fun p hp => ?_) _).trans (hkept.contentAt?_eq q)
      obtain ⟨f, hf, rfl⟩ := List.mem_map.1 hp
      exact hparts _ (hfiles f (List.mem_filter.1 hf).1)

omit [LocalStore σ] in
theorem map_fst_of_mapM {files : List Found} {sized : List (Found × Nat)} {t : σ}
    (h : files.mapM (fun f => return (f, ← FileStore.size f.path) : Found →
      Step StoreError σ (Found × Nat)) s = .ok sized t) : sized.map (·.1) = files := by
  induction files generalizing s sized with
  | nil =>
    cases h
    rfl
  | cons f files ih =>
    rw [List.mapM_cons] at h
    obtain ⟨first, s₁, hfirst, h⟩ := bind_eq_ok h
    obtain ⟨rest, s₂, hrest, h⟩ := bind_eq_ok h
    obtain ⟨size, s₃, -, hpair⟩ := bind_eq_ok hfirst
    cases hpair
    cases h
    rw [List.map_cons, ih hrest]

omit [LocalStore σ] in
/-- An inventory is made of the files that are found. -/
theorem inventory_eq_ok {w w' : World σ} {i : Inventory} (h : db.inventory w = .ok i w') :
    ∃ survey t sized, db.survey w.store = .ok survey t ∧ sized.map (·.1) = survey.files ∧
      i = Inventory.ofFiles sized survey.unreadable := by
  unfold inventory World.onStore at h
  split at h
  next hrun =>
    cases h
    obtain ⟨survey, t, hsurvey, hrest⟩ := bind_eq_ok hrun
    obtain ⟨sized, t', hsized, hanswer⟩ := bind_eq_ok hrest
    cases hanswer
    exact ⟨survey, t, sized, hsurvey, map_fst_of_mapM hsized, rfl⟩
  next => cases h

end Database

end Finding

namespace Allocator

variable {σ : Type} [FileStore σ] {naming : Naming} {entries entries' : List Path} {name : Name}

theorem foldl_max_le {words : List UInt32} {start bound : UInt32} (hstart : start ≤ bound)
    (hwords : ∀ word ∈ words, word ≤ bound) : words.foldl max start ≤ bound := by
  induction words generalizing start with
  | nil => exact hstart
  | cons first words ih =>
    refine ih ?_ fun word hword => hwords word (List.mem_cons_of_mem _ hword)
    show (if start ≤ first then first else start) ≤ bound
    split
    · exact hwords first List.mem_cons_self
    · exact hstart

theorem highestFlat_le (hread : naming.parseFlat? name = none)
    (hmem : ∀ e, e.fileName? ≠ some name → e ∈ entries → e ∈ entries') :
    highestFlat naming entries ≤ highestFlat naming entries' := by
  refine foldl_max_le (UInt32.zero_le) fun word hword => ?_
  obtain ⟨e, he, hfound⟩ := List.mem_filterMap.1 hword
  obtain ⟨⟨owner, id⟩, hparse, rfl⟩ := Option.map_eq_some_iff.1 hfound
  refine Naming.le_highestFlat (hmem e (fun hname => ?_) he) hparse
  rw [hname, Option.bind_some, hread] at hparse
  cases hparse

/-- Entries of a name that is no flat file's do not count. -/
theorem afterHighest_sameBut {w : World σ} {t : σ} (hread : naming.parseFlat? name = none)
    (h : SameBut name (FileStore.list naming.flatDirectory w.store)
      (FileStore.list naming.flatDirectory t)) :
    (∀ a u, afterHighest naming w = .ok a u →
      ∃ s, afterHighest naming { w with store := t } = .ok a { u with store := s }) ∧
    ∀ e u, afterHighest naming w = .error e u →
      ∃ s, afterHighest naming { w with store := t } = .error e { u with store := s } := by
  unfold afterHighest
  generalize hlist : FileStore.list naming.flatDirectory w.store = r at h
  generalize hlist' : FileStore.list naming.flatDirectory t = r' at h
  cases h with
  | @ok entries entries' s s' hsame =>
    have hhighest : highestFlat naming entries' = highestFlat naming entries :=
      UInt32.le_antisymm (highestFlat_le hread fun e he => (hsame e he).2)
        (highestFlat_le hread fun e he => (hsame e he).1)
    rw [bind_ok (World.onStore_ok hlist), bind_ok (World.onStore_ok (w := { w with store := t }) hlist'),
      hhighest]
    refine ⟨fun a u hrun => ?_, nofun⟩
    cases hrun
    exact ⟨s', rfl⟩
  | @error e s s' =>
    rw [bind_error (World.onStore_error hlist),
      bind_error (World.onStore_error (w := { w with store := t }) hlist')]
    refine ⟨nofun, fun e u hrun => ?_⟩
    cases hrun
    exact ⟨s', rfl⟩

end Allocator

namespace Database

variable {σ : Type} [FileStore σ] [LocalStore σ]

/-- Databases of different names in one directory leave each other's files alone, in every store. No
name is read as a flat file's of both, and neither tree is in the other one. A file of the one that is
not in a place for directories keeps its content when the other one deletes files of whatever owner, is
not among the files that the other one counts, and when it goes away, the other one still starts its
ids from the same number. -/
theorem neighbour_untouched {db : Database} {n : Naming} {directory : Path} {name name' : Name}
    (hbase : db.naming.base = directory.join name) (hname : IsName name)
    (hbase' : n.base = directory.join name') (hname' : IsName name') (hne : name ≠ name') :
    (∀ text, db.naming.parseFlat? text = none ∨ n.parseFlat? text = none) ∧
    ¬db.naming.shardRoot.components <+: n.shardRoot.components ∧
    ¬n.shardRoot.components <+: db.naming.shardRoot.components ∧
    ∀ (w : World σ), Sane w.store → ∀ layout owner id,
      (layout = .sharded → id.word % n.fanout ≠ 0) →
      let path := n.path layout owner id
      let without := after (FileStore.delete path) w.store
      (∀ whose, contentAt? (after (db.removal whose) w).store path = contentAt? w.store path) ∧
      (∀ i w', db.inventory w = .ok i w' → ∃ survey t counted, db.survey w.store = .ok survey t ∧
        counted.map (·.1) = survey.files ∧ i = Inventory.ofFiles counted survey.unreadable ∧
        ∀ f ∈ survey.files, ∀ place, place? w.store f.path = some place →
          place? w.store path ≠ some place) ∧
      (∀ a u, Allocator.afterHighest db.naming w = .ok a u →
        ∃ s, Allocator.afterHighest db.naming { w with store := without } = .ok a { u with store := s }) ∧
      ∀ e u, Allocator.afterHighest db.naming w = .error e u →
        ∃ s, Allocator.afterHighest db.naming { w with store := without } =
          .error e { u with store := s } := by
  have hlast : db.naming.base.lastPiece = name := by rw [hbase, Path.lastPiece_join directory hname]
  have hlast' : n.base.lastPiece = name' := by rw [hbase', Path.lastPiece_join directory hname']
  have hlead : db.naming.base.lead = n.base.lead := by
    rw [hbase, hbase', Path.lead_join directory hname, Path.lead_join directory hname']
  rw [← hlast] at hname
  rw [← hlast'] at hname'
  rw [← hlast, ← hlast'] at hne
  have hnames : ∀ a b, db.naming.Owns a → n.Owns b → a ≠ b :=
    fun a b => Naming.ne_of_owns hname hname' hne
  refine ⟨fun text => ?_, ?_, ?_, fun w hs layout owner id hslot => ?_⟩
  · by_contra h
    obtain ⟨hread, hread'⟩ := not_or.1 h
    exact hnames text text (Or.inr (Option.isSome_iff_ne_none.2 hread))
      (Or.inr (Option.isSome_iff_ne_none.2 hread')) rfl
  · exact Naming.not_shardRoot_prefix hlead (hnames _ _ (Or.inl rfl) (Or.inl rfl))
  · exact Naming.not_shardRoot_prefix hlead.symm (hnames _ _ (Or.inl rfl) (Or.inl rfl)).symm
  have harea : n.Area (Down σ) (n.path layout owner id) :=
    Naming.area_path down_name hname' owner hslot
  have hparts : ∀ p, db.naming.Area (Down σ) p → p.Parts (Down σ) (n.path layout owner id) := by
    intro p hp
    exact Naming.parts_of_area hlead hnames hp harea
  refine ⟨contentAt?_removal hs hname hparts, fun i w' hrun => ?_, ?_⟩
  · obtain ⟨survey, t, counted, hsurvey, hcounted, hanswer⟩ := inventory_eq_ok hrun
    have hlocal : Local db.naming Survey.files w.store (db.survey w.store) := local_survey hs hname
    rw [hsurvey] at hlocal
    cases hlocal with
    | ok hsame hfiles =>
      refine ⟨survey, t, counted, hsurvey, hcounted, hanswer, fun f hf place => ?_⟩
      exact apart hs (hparts _ (hfiles f hf))
  · obtain ⟨b, rest, hb, hrest, hway⟩ := harea
    have hread : db.naming.parseFlat? b = none := by
      by_contra h
      exact hnames b b (Or.inr (Option.isSome_iff_ne_none.2 h)) hb rfl
    rw [← hlead, ← Naming.way_flatDirectory hname] at hway
    exact Allocator.afterHighest_sameBut hread
      (list_deleted hs db.naming.components_flatDirectory_ne_nil hway hrest)

open Session (smallDatabase)
open Naming (spelled)

def dottedWorld : World Disk where
  store := (Request.create ((spelled "d/b.7").flatPath (.table ⟨6⟩) ⟨1⟩)).run default

/-- The name of one database is that of the other one with a dot and a number behind it. -/
theorem neighbour_untouched_dotted :
    IsName ['b'] ∧ IsName ['b', '.', '7'] ∧ (['b'] : Name) ≠ ['b', '.', '7'] ∧
    dottedWorld.store.Tree ∧ (spelled "d/b.7").parseFlat? "b.7.6.1.lob.db".toList = some (.table ⟨6⟩, ⟨1⟩) ∧
    smallDatabase.naming.parseFlat? "b.7.6.1.lob.db".toList = none ∧
    contentAt? dottedWorld.store ((spelled "d/b.7").flatPath (.table ⟨6⟩) ⟨1⟩) = some [] ∧
    ∀ whose, contentAt? (after (smallDatabase.removal whose) dottedWorld).store
      ((spelled "d/b.7").flatPath (.table ⟨6⟩) ⟨1⟩) = some [] := by
  have hname : IsName ['b'] := ⟨by decide, by decide, by decide, by decide⟩
  have hname' : IsName ['b', '.', '7'] := ⟨by decide, by decide, by decide, by decide⟩
  have hne : (['b'] : Name) ≠ ['b', '.', '7'] := by decide
  have htree : dottedWorld.store.Tree :=
    Disk.Tree.default.run (.create ((spelled "d/b.7").flatPath (.table ⟨6⟩) ⟨1⟩))
  have hread : (spelled "d/b.7").parseFlat? "b.7.6.1.lob.db".toList = some (.table ⟨6⟩, ⟨1⟩) := by
    decide
  have hbase : smallDatabase.naming.base = (⟨['d']⟩ : Path).join ['b'] := rfl
  have hbase' : (spelled "d/b.7").base = (⟨['d']⟩ : Path).join ['b', '.', '7'] := by decide
  obtain ⟨hnames, -, -, hrest⟩ := neighbour_untouched (σ := Disk) hbase hname hbase' hname' hne
  obtain ⟨hkept, -⟩ := hrest dottedWorld htree .flat (.table ⟨6⟩) ⟨1⟩ nofun
  have hcontent : contentAt? dottedWorld.store ((spelled "d/b.7").flatPath (.table ⟨6⟩) ⟨1⟩) = some [] :=
    rfl
  refine ⟨hname, hname', hne, htree, hread, ?_, hcontent, fun whose => (hkept whose).trans hcontent⟩
  refine (hnames _).resolve_right ?_
  rw [hread]
  nofun

end Database

end LargeObjects
