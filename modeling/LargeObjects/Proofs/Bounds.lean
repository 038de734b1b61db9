import Mathlib
import LargeObjects.Proofs.Deeds
import LargeObjects.Proofs.Digits

/-! The tree that sessions leave. Every file in it has the name of its owner and its object, and an
object has one file at most, so the directories stay small and the tree stays flat. -/
namespace LargeObjects

open ReliableStore FallibleStore Step

section Tidy

variable {β : Type} [FileStore β] [ReliableStore β] {n : Naming} {s s' : β} {owner owner' : Owner}
  {id : ObjectId}

structure Tidy (n : Naming) (s : β) : Prop where
  canonical : ∀ q, (fileAt? s q).isSome →
    ∃ owner id, n.Proper .sharded id ∧ (n.path .sharded owner id).components = q
  alone : ∀ {owner owner' id}, n.Proper .sharded id →
    (fileAt? s (n.path .sharded owner id).components).isSome →
    (fileAt? s (n.path .sharded owner' id).components).isSome → owner = owner'

namespace Tidy

theorem lose (ht : Tidy n s) (h : ∀ q, (fileAt? s' q).isSome → (fileAt? s q).isSome) : Tidy n s' :=
  ⟨fun q hq => ht.canonical q (h q hq), fun hproper ho ho' => ht.alone hproper (h _ ho) (h _ ho')⟩

/-- Only objects that can have files have one. -/
theorem proper (ht : Tidy n s) (h : (fileAt? s (n.path .sharded owner id).components).isSome) :
    n.Proper .sharded id := by
  obtain ⟨owner', id', hproper, hpath⟩ := ht.canonical _ h
  by_cases hslot : id.word % n.fanout = 0
  · exact absurd hpath (Naming.path_ne_of_slot_zero (hproper.slot_ne rfl) hslot)
  · refine ⟨fun hzero => hslot ?_, fun _ => hslot⟩
    rw [hzero, UInt32.zero_mod]

/-- A file of another owner of an object can come in the place of the one it has. -/
theorem replace (ht : Tidy n s) (hproper : n.Proper .sharded id) (owner : Owner)
    (hold : ∀ q ≠ (n.path .sharded owner id).components, (fileAt? s' q).isSome →
      (fileAt? s q).isSome ∧ ∀ owner', (n.path .sharded owner' id).components ≠ q) : Tidy n s' := by
  -- Of the object there is no other file afterwards.
  have honly : ∀ {owner'}, (fileAt? s' (n.path .sharded owner' id).components).isSome →
      owner' = owner := by
    intro owner' hfile
    by_contra hne
    refine (hold _ (fun heq => hne ?_) hfile).2 owner' rfl
    exact (Naming.path_injective hproper hproper heq).2.1
  refine ⟨fun q hq => ?_, fun {owner₁ owner₂ id'} hproper' h₁ h₂ => ?_⟩
  · by_cases hpath : q = (n.path .sharded owner id).components
    · exact ⟨owner, id, hproper, hpath.symm⟩
    · exact ht.canonical q (hold q hpath hq).1
  · by_cases hid : id' = id
    · rw [hid] at h₁ h₂
      rw [honly h₁, honly h₂]
    · have hother : ∀ owner₃, (n.path .sharded owner₃ id').components ≠
          (n.path .sharded owner id).components :=
        fun owner₃ heq => hid (Naming.path_injective hproper' hproper heq).2.2
      exact ht.alone hproper' (hold _ (hother owner₁) h₁).1 (hold _ (hother owner₂) h₂).1

/-- An object that had no file may have one. -/
theorem fresh (ht : Tidy n s) (hfree : n.Free id s)
    (h : ∀ q ≠ (n.path .sharded owner id).components, fileAt? s' q = fileAt? s q) : Tidy n s' := by
  refine ht.replace hfree.proper owner fun q hq hfile => ?_
  rw [h q hq] at hfile
  refine ⟨hfile, ?_⟩
  rintro owner' rfl
  rw [hfree.file_eq_none owner'] at hfile
  cases hfile

/-- An object may get another owner. -/
theorem move (ht : Tidy n s)
    (hfile : (fileAt? s (n.path .sharded owner id).components).isSome)
    (hrename : FileStore.rename (n.path .sharded owner id) (n.path .sharded owner' id) s = .ok () s') :
    Tidy n s' := by
  obtain ⟨content, hcontent⟩ := Option.isSome_iff_exists.1 hfile
  obtain ⟨t, hrun, -, hleft, helse⟩ := ReliableStore.rename_ok (n.path .sharded owner' id) hcontent
  rw [hrun] at hrename
  cases hrename
  refine ht.replace (ht.proper hfile) owner' fun q hq hthere => ?_
  -- Nothing is left at the source, and no other file is one of the object.
  by_cases hsource : q = (n.path .sharded owner id).components
  · rw [hsource] at hq hthere
    rw [hleft hq] at hthere
    cases hthere
  · rw [helse q hsource hq] at hthere
    refine ⟨hthere, ?_⟩
    rintro owner₁ rfl
    exact hsource (by rw [ht.alone (ht.proper hfile) hthere hfile])

end Tidy

end Tidy

namespace Tidy

variable {σ : Type} [FileStore σ] [FallibleStore σ] {n : Naming} {s s' : σ} {id : ObjectId}
  {owner owner' : Owner}

theorem loses (ht : Tidy n (below s)) (h : Loses s s') : Tidy n (below s') := by
  refine ht.lose fun q hq => ?_
  rcases h q with hgone | hsame
  · rw [hgone] at hq
    cases hq
  · rwa [hsame] at hq

theorem near (ht : Tidy n (below s)) (hfree : n.Free id (below s))
    (h : Near [(n.path .sharded owner id).components] s s') : Tidy n (below s') :=
  ht.fresh hfree fun q hq => h.elsewhere q fun hmem => hq (List.mem_singleton.1 hmem)

/-- Renaming to another owner's name keeps order even when it fails. -/
theorem rename (ht : Tidy n (below s)) (h : after
      (FileStore.rename (n.path .sharded owner id) (n.path .sharded owner' id)) s = s') :
    Tidy n (below s') := by
  rw [← h]
  rcases FallibleStore.rename_files (n.path .sharded owner id) (n.path .sharded owner' id) s with
    hsame | ⟨hfile, hmoved⟩
  · exact ht.lose fun q hq => by rwa [hsame] at hq
  · exact ht.move hfile hmoved

end Tidy

def World.Names {σ : Type} (n : Naming) (w : World σ) (v : Value) : Prop :=
  ∀ ref, v.content = .file ref → w.Knows ref.handle ∧ ref.layout = .sharded ∧
    (w.handle ref.handle).path = n.path .sharded ref.owner ref.id

namespace World

variable {σ : Type} {n : Naming} {w w' : World σ} {v : Value}

theorem names_inline (h : v.file? = none) : w.Names n v := by
  intro ref hcontent
  rw [Value.file?, hcontent] at h
  cases h

theorem Names.later (h : w.Names n v) (hstay : Handle.Stay w.handles w'.handles) : w'.Names n v := by
  intro ref hcontent
  obtain ⟨hknown, hlayout, hpath⟩ := h ref hcontent
  obtain ⟨hknown', hsame⟩ := handle_path_of_stay hstay hknown
  exact ⟨hknown', hlayout, hsame.trans hpath⟩

theorem names_new {ref : ValueFile} (hcontent : v.content = .file ref)
    (hknown : w.Knows ref.handle) (hlayout : ref.layout = .sharded)
    (hnew : w.handle ref.handle = .new (n.path .sharded ref.owner ref.id) ref.owner) : w.Names n v := by
  intro ref' hcontent'
  rw [hcontent] at hcontent'
  cases hcontent'
  exact ⟨hknown, hlayout, by rw [hnew]; rfl⟩

end World

namespace Value

variable {σ : Type} [FileStore σ] [FallibleStore σ] {db : Database} {needs : Prop} {owner : Owner}
  {v : Value} {w : World σ} {r : EStateM.Result ObjectError (World σ) Value}

def Orderly (n : Naming) : EStateM.Result ObjectError (World σ) Value → Prop
  | .ok v w' => Tidy n w'.below.store ∧ w'.Names n v
  | .error _ w' => Tidy n w'.below.store

theorem Creates.orderly (h : Creates db needs owner w r) (hlayout : db.layout = .sharded)
    (hroomy : needs → db.Roomy w.below) (ht : Tidy db.naming w.below.store) :
    Orderly db.naming r := by
  -- A search for an id leaves the tree as it is, and the id that it finds is free.
  have hfound : ∀ {id w'}, needs → db.Finds w id w' → Tidy db.naming (FallibleStore.below w'.store) ∧
      db.naming.Free id (FallibleStore.below w'.store) := by
    intro id w' hneeds hfinds
    rw [hfinds.looks.looked.below_eq]
    exact ⟨ht, Database.free_of_allocate hlayout (hroomy hneeds) hfinds.found⟩
  cases h with
  | looked hlooks => exact ht.loses hlooks.looked.loses
  | plain hlooks hfile => exact ⟨ht.loses hlooks.looked.loses, World.names_inline hfile⟩
  | @uncreated _ _ id w' s hneeds hfinds hcreate =>
    obtain ⟨htidy, hfree⟩ := hfound hneeds hfinds
    have hnear := Near.run (.create (db.naming.path db.layout owner id)) (after_error hcreate)
    rw [hlayout] at hnear
    exact htidy.near hfree hnear
  | @made v id compressed w' s hneeds hfinds hnear hcontent =>
    obtain ⟨htidy, hfree⟩ := hfound hneeds hfinds
    rw [hlayout] at hnear hcontent ⊢
    rw [← hfinds.looks.handles_eq] at hcontent
    refine ⟨htidy.near hfree hnear, World.names_new hcontent ?_ rfl ?_⟩
    · show w'.handles.length < (w'.handles ++ [_]).length
      rw [List.length_append]
      exact Nat.lt_succ_self _
    · exact World.handle_append_new (w := w') rfl
  | @abandoned _ id more w' s hneeds hfinds hnear =>
    obtain ⟨htidy, hfree⟩ := hfound hneeds hfinds
    rw [hlayout] at hnear
    exact (htidy.near hfree hnear).loses (loses_delete rfl)

theorem Relinks.orderly (h : Relinks db needs v w r) (hlayout : db.layout = .sharded)
    (hroomy : needs → db.Roomy w.below) (ht : Tidy db.naming w.below.store)
    (hv : w.Names db.naming v) : Orderly db.naming r := by
  have hstay := h.stays
  cases h with
  | creates h => exact h.orderly hlayout hroomy ht
  | shared => exact ⟨ht, hv.later hstay⟩
  | @moved ref owner s hcontent hlive hrename =>
    obtain ⟨-, hsharded, hpath⟩ := hv ref hcontent
    rw [hpath, hsharded] at hrename
    refine ⟨ht.rename (after_ok hrename), World.names_new rfl ?_ hsharded ?_⟩
    · show w.handles.length < (w.handles.modify ref.handle Handle.retire ++ [_]).length
      rw [List.length_append, List.length_modify]
      exact Nat.lt_succ_self _
    · rw [hsharded]
      exact World.handle_modify_append_new (w := w) rfl
  | @unmoved ref owner _ _ s hcontent hrename =>
    obtain ⟨-, hsharded, hpath⟩ := hv ref hcontent
    rw [hpath, hsharded] at hrename
    exact ht.rename (after_error hrename)

theorem Unlinks.orderly (h : Unlinks db v w r) (hlayout : db.layout = .sharded)
    (ht : Tidy db.naming w.below.store) (hv : w.Names db.naming v) : Orderly db.naming r := by
  cases h with
  | relinks h => exact h.orderly hlayout False.elim ht hv
  | @undeleted _ _ path s hdelete =>
    exact ht.loses (loses_delete (after_error hdelete))
  | @deleted ref found s r hcontent hlive howner hdelete h =>
    exact h.orderly hlayout False.elim (ht.loses (loses_delete (after_ok hdelete))) hv

theorem Spills.orderly (h : Spills db needs v w r) (hlayout : db.layout = .sharded)
    (hroomy : needs → db.Roomy w.below) (ht : Tidy db.naming w.below.store)
    (hv : w.Names db.naming v) : Orderly db.naming r := by
  -- The file that is moved on was made for a new object.
  have hmade : ∀ {id w' s}, needs → db.Finds w id w' →
      Near [(db.naming.path db.layout .temp id).components] w'.store s →
      Tidy db.naming (FallibleStore.below s) := by
    intro id w' s hneeds hfinds hnear
    have hfree := Database.free_of_allocate hlayout (hroomy hneeds) hfinds.found
    rw [hlayout] at hnear
    refine Tidy.near (s := w'.store) ?_ ?_ hnear
    · exact ht.loses hfinds.looks.looked.loses
    · rw [hfinds.looks.looked.below_eq]
      exact hfree
  cases h with
  | relinks h => exact h.orderly hlayout hroomy ht hv
  | @moved u id table compressed old w' s s' hneeds hfinds hnear hrename hcontent =>
    rw [hlayout] at hrename hcontent ⊢
    rw [← hfinds.looks.handles_eq] at hcontent
    refine ⟨(hmade hneeds hfinds hnear).rename (after_ok hrename), World.names_new hcontent ?_ rfl ?_⟩
    · show w'.handles.length + 1 < (w'.handles ++ [_, _]).length
      rw [List.length_append]
      exact Nat.lt_succ_self _
    · show (w'.handles ++ [old, _]).getD (w'.handles.length + 1) .absent = _
      rw [List.getD_append_right _ _ _ _ (Nat.le_add_right _ 1), Nat.add_sub_cancel_left]
      rfl
  | @unmoved _ _ id table old w' s s' hneeds hfinds hnear hrename =>
    rw [hlayout] at hrename
    have hunmoved := (hmade hneeds hfinds hnear).rename (after_error hrename)
    exact hunmoved.loses (loses_delete rfl)

end Value

namespace Session

variable {σ : Type} [FileStore σ] [FallibleStore σ] {db : Database} {n : Naming} {s s' : Session σ}

structure Sorted (n : Naming) (s : Session σ) : Prop where
  held_made : s.held ⊆ s.made
  names : ∀ h ∈ s.made, s.world.Names n h.value
  tidy : Tidy n s.world.below.store

theorem Sorted.later (hs : Sorted n s) {w' : World σ} {held' : List Held}
    (htidy : Tidy n w'.below.store) (hstay : Handle.Stay s.world.handles w'.handles)
    (hheld : held' ⊆ s.held) : Sorted n { world := w', held := held', made := s.made } :=
  ⟨fun _ h => hs.held_made (hheld h), fun h hmem => (hs.names h hmem).later hstay, htidy⟩

theorem Sorted.hold (hs : Sorted n s) {h : Held} {w' : World σ} (htidy : Tidy n w'.below.store)
    (hstay : Handle.Stay s.world.handles w'.handles) (hnames : w'.Names n h.value) :
    Sorted n (s.hold h w') := by
  refine ⟨hold_subset hs.held_made, fun h' hmem => ?_, htidy⟩
  rcases List.mem_append.1 hmem with hold | hnew
  · exact (hs.names h' hold).later hstay
  · rw [List.mem_singleton.1 hnew]
    exact hnames

theorem Sorted.settle (hs : Sorted n s) (origin : Bytes)
    {r : EStateM.Result ObjectError (World σ) Value} (hstay : Value.Stays s.world r)
    (h : Value.Orderly n r) : Sorted n (s.settle origin r) := by
  cases r with
  | ok v w' =>
    obtain ⟨htidy, hnames⟩ := h
    exact hs.hold htidy hstay hnames
  | error e w' => exact hs.later h hstay fun _ h => h

/-- Every operation keeps order. -/
theorem Sorted.ends {needs : Prop} (hs : Sorted db.naming s) (hlayout : db.layout = .sharded)
    (hroomy : needs → db.Roomy s.world.below) (h : Ends db needs s s') : Sorted db.naming s' := by
  cases h with
  | inline hfile => exact hs.hold hs.tidy (Handle.Stay.refl _) (World.names_inline hfile)
  | creates origin h => exact hs.settle origin h.stays (h.orderly hlayout hroomy hs.tidy)
  | relinks origin hmem h =>
    have hnames := hs.names _ (hs.held_made hmem)
    exact hs.settle origin h.stays (h.orderly hlayout hroomy hs.tidy hnames)
  | unlinks origin hmem h =>
    have hnames := hs.names _ (hs.held_made hmem)
    exact hs.settle origin h.stays (h.orderly hlayout hs.tidy hnames)
  | spills origin hmem h =>
    have hnames := hs.names _ (hs.held_made hmem)
    exact hs.settle origin h.stays (h.orderly hlayout hroomy hs.tidy hnames)
  | keeps hheld hstay => exact hs.later hs.tidy hstay hheld
  | deletes path hheld hstay =>
    exact hs.later (hs.tidy.loses (loses_delete rfl)) hstay hheld

theorem Sorted.removed (hs : Sorted n s) (owner : Owner) :
    Sorted n { s with world := after (db.removeOwned owner) s.world } := by
  obtain ⟨t, hafter, hloses⟩ := db.loses_removeOwned owner s.world
  rw [hafter]
  exact hs.later (hs.tidy.loses hloses) (Handle.Stay.refl _) fun _ h => h

structure ObjectFile (s : Session σ) (dir path : Path) (owner : Owner) (id : ObjectId) : Prop where
  isFile : FileStore.isFile path s.world.store = true
  inside : ∃ name, path.components = dir.components ++ [.name name] ∧
    Naming.parseSharded? name = some (owner, id)

/-- The file of an object is where owner and id say, in a directory that its digits lead to. -/
theorem ObjectFile.spec {dir path : Path} {owner : Owner} {id : ObjectId}
    (h : s.ObjectFile dir path owner id) (hs : Sorted n s) :
    n.Proper .sharded id ∧ path.components = (n.path .sharded owner id).components ∧
      dir.components = n.shardRoot.components ++ n.directorySteps id := by
  obtain ⟨name, hpath, hparse⟩ := h.inside
  have hfile := h.isFile
  rw [FallibleStore.isFile_eq, ReliableStore.isFile_eq] at hfile
  obtain ⟨owner', id', hproper, hcanonical⟩ := hs.tidy.canonical _ hfile
  have hsplit := Naming.components_shardedPath n owner' (hproper.slot_ne rfl)
  rw [show n.shardedPath owner' id' = n.path .sharded owner' id' from rfl, hcanonical, hpath] at hsplit
  obtain ⟨hdir, hlast⟩ := List.append_inj' hsplit rfl
  simp only [List.cons.injEq, Component.name.injEq, and_true] at hlast
  rw [hlast, Naming.parseSharded?_fileName] at hparse
  cases hparse
  refine ⟨hproper, hcanonical.symm, ?_⟩
  rw [hdir, Naming.components_shardDirectory, Naming.components_shardRoot, List.append_assoc]
  rfl

def slotOf (n : Naming) (place : List Component) : Nat :=
  match place.getLast? with
  | some (.name t) =>
    ((Naming.parseSharded? t).map fun found => found.2.word.toNat % n.fanout.toNat).getD 0
  | _ => 0

omit [FallibleStore σ] in
theorem ObjectFile.slotOf_eq {dir path : Path} {owner : Owner} {id : ObjectId}
    (h : s.ObjectFile dir path owner id) (n : Naming) :
    slotOf n path.components = id.word.toNat % n.fanout.toNat := by
  obtain ⟨name, hpath, hparse⟩ := h.inside
  unfold slotOf
  rw [hpath, List.getLast?_concat]
  simp only [hparse, Option.map_some, Option.getD_some]

/-- Two objects in one directory whose numbers agree modulo the fanout are one. -/
theorem ObjectFile.same_of_slot {dir path path' : Path} {owner owner' : Owner} {id id' : ObjectId}
    (h : s.ObjectFile dir path owner id) (h' : s.ObjectFile dir path' owner' id')
    (hs : Sorted n s) (hfanout : 2 ≤ n.fanout) (hslot : id.word % n.fanout = id'.word % n.fanout) :
    path.components = path'.components := by
  obtain ⟨hproper, hpath, hdir⟩ := h.spec hs
  obtain ⟨-, hpath', hdir'⟩ := h'.spec hs
  have hsteps := List.append_cancel_left (hdir.symm.trans hdir')
  obtain rfl := Naming.id_eq_of_directorySteps hfanout hsteps hslot
  have hfile := h.isFile
  have hfile' := h'.isFile
  rw [FallibleStore.isFile_eq, ReliableStore.isFile_eq, hpath] at hfile
  rw [FallibleStore.isFile_eq, ReliableStore.isFile_eq, hpath'] at hfile'
  obtain rfl := hs.tidy.alone hproper hfile hfile'
  rw [hpath, hpath']

section Runs

variable [Codec]

/-- In a tidy tree no flat name is that of a file, so that what is attached is in the tree. -/
theorem Sorted.attached (hs : Sorted db.naming s) (hlayout : db.layout = .sharded) (kind : Kind)
    (table : TableId) (id : ObjectId) (precision : Nat) (compressed : Bool) :
    Sorted db.naming (s.perform db (.attach kind table id precision compressed)) := by
  have hstay := perform_stay db s (.attach kind table id precision compressed)
  simp only [perform, acquire_eq_settle] at hstay ⊢
  by_cases hid : id.word = 0
  · rw [Value.attach_zero db kind table precision compressed s.world hid]
    exact hs.later hs.tidy (Handle.Stay.refl _) fun _ h => h
  have htree : Value.attachLayout db table id s.world.store = .sharded := by
    unfold Value.attachLayout
    rw [if_neg, hlayout]
    rintro ⟨-, -, hflat⟩
    rw [FallibleStore.isFile_eq, ReliableStore.isFile_eq] at hflat
    obtain ⟨owner', id', hproper, hpath⟩ := hs.tidy.canonical _ hflat
    have hflatProper : db.naming.Proper .flat id := ⟨hid, by rintro ⟨⟩⟩
    obtain ⟨hlayouts, -⟩ := Naming.path_injective hproper hflatProper hpath
    cases hlayouts
  rw [Value.attach_ok db kind table precision compressed s.world hid, htree] at hstay ⊢
  refine hs.hold hs.tidy hstay (World.names_new rfl ?_ rfl ?_)
  · show s.world.handles.length < (s.world.handles ++ [_]).length
    rw [List.length_append]
    exact Nat.lt_succ_self _
  · exact World.handle_append_new (w := s.world) rfl

def RoomFor (db : Database) (s : Session σ) (d : Deed) : Prop :=
  ∀ e, d = .work e → s.below.Allocates db e → db.Roomy s.below.world

theorem Goes.sorted {first : Session σ} (h : Goes db (RoomFor db) first s)
    (hlayout : db.layout = .sharded) (hs : Sorted db.naming first) : Sorted db.naming s := by
  induction h with
  | start => exact hs
  | @step s d _ hroom ih =>
    cases d with
    | work e => exact ih.ends hlayout (hroom e rfl) (step_ends db s e)
    | attach kind table id precision compressed =>
      exact ih.attached hlayout kind table id precision compressed
    | sweep table => exact ih.removed (.table table)
    | purge => exact ih.removed .temp

/-- Any run in a tree that is empty at first, with whatever finds ids in it, as long as words are
enough for them. A directory of the tree has less files of objects than the fanout, and no two of
them agree modulo the fanout. Each file is where its owner and its object say, its number does not
end in zero, and it is no deeper than words have digits above the lowest. -/
theorem tree_stays_bounded {w : World σ} (hlayout : db.layout = .sharded)
    (hfanout : 2 ≤ db.naming.fanout) (hempty : ∀ q, fileAt? w.below.store q = none)
    (hgoes : Goes db (RoomFor db) { world := w } s) {dir : Path} {steps : List Component}
    (hdir : Path.stepsBelow? db.naming.shardRoot.components dir.components = some steps) :
    { q | ∃ path owner id, s.ObjectFile dir path owner id ∧ path.components = q }.encard ≤
        (db.naming.fanout.toNat - 1 : ℕ) ∧
    ∀ path owner id, s.ObjectFile dir path owner id →
      path.same (db.naming.path .sharded owner id) = true ∧ id.word % db.naming.fanout ≠ 0 ∧
      steps.length ≤ (db.naming.fanout.toNat.digits (UInt32.size - 1)).length - 1 ∧
      ∀ path' owner' id', s.ObjectFile dir path' owner' id' →
        id'.word % db.naming.fanout = id.word % db.naming.fanout → path'.same path = true := by
  have hfirst : Sorted db.naming ({ world := w } : Session σ) := by
    refine ⟨fun _ h => h, fun h hmem => absurd hmem List.not_mem_nil, ⟨fun q hq => ?_, ?_⟩⟩
    · rw [hempty] at hq
      cases hq
    · intro owner owner' id _ hfile
      rw [hempty] at hfile
      cases hfile
  have hs := hgoes.sorted hlayout hfirst
  have hslot : ∀ {id : ObjectId}, id.word % db.naming.fanout ≠ 0 →
      id.word.toNat % db.naming.fanout.toNat ≠ 0 := by
    intro id hne hzero
    refine hne (UInt32.toNat_inj.1 ?_)
    rw [UInt32.toNat_mod, hzero]
    rfl
  refine ⟨?_, fun path owner id hobject => ?_⟩
  · have hcard : ((Finset.Ico 1 db.naming.fanout.toNat : Finset ℕ) : Set ℕ).encard =
        (db.naming.fanout.toNat - 1 : ℕ) := by
      rw [Set.encard_coe_eq_coe_finsetCard, Nat.card_Ico]
    rw [← hcard]
    -- A directory has a slot for each number below the fanout but zero, and one file for a slot.
    refine Set.encard_le_encard_of_injOn (f := slotOf db.naming) ?_ ?_
    · rintro q ⟨path, owner, id, hobject, rfl⟩
      obtain ⟨hproper, -, -⟩ := hobject.spec hs
      have hpos := Nat.pos_of_ne_zero (hslot (hproper.slot_ne rfl))
      have hlt := Nat.mod_lt id.word.toNat
        (Nat.lt_of_lt_of_le Nat.two_pos (Naming.two_le_toNat hfanout))
      rw [hobject.slotOf_eq]
      exact Finset.mem_coe.2 (Finset.mem_Ico.2 ⟨hpos, hlt⟩)
    · rintro q ⟨path, owner, id, hobject, rfl⟩ q' ⟨path', owner', id', hobject', rfl⟩ heq
      rw [hobject.slotOf_eq, hobject'.slotOf_eq] at heq
      refine hobject.same_of_slot hobject' hs hfanout (UInt32.toNat_inj.1 ?_)
      rw [UInt32.toNat_mod, UInt32.toNat_mod, heq]
  · obtain ⟨hproper, hpath, hplace⟩ := hobject.spec hs
    -- The steps below the root are those that the digits make.
    have hsteps : steps = db.naming.directorySteps id := by
      unfold Path.stepsBelow? at hdir
      rw [hplace, if_pos (List.prefix_append _ _), List.drop_left] at hdir
      exact (Option.some.inj hdir).symm
    refine ⟨decide_eq_true hpath, hproper.slot_ne rfl, ?_, fun path' owner' id' hobject' hsame => ?_⟩
    · rw [hsteps]
      exact Naming.length_directorySteps_le hfanout (hproper.slot_ne rfl)
    · exact decide_eq_true (hobject'.same_of_slot hobject hs hfanout hsame)

end Runs

def busySession : Session MemoryStore :=
  ((({ world := emptyWorld : Session MemoryStore }.perform smallDatabase
    (.work (.create .binary threeOctets none))).perform smallDatabase
    (.work (.link 0 ⟨6⟩))).perform smallDatabase
    (.sweep ⟨6⟩)).perform smallDatabase (.work (.create .binary threeOctets none))

/-- A value is made, given to a table and swept away with it, and another is made; its root has a file
and no more than three. -/
theorem tree_stays_bounded_busy :
    let root := smallDatabase.naming.shardRoot
    let path := smallDatabase.naming.path .sharded .temp ⟨1⟩
    Goes smallDatabase (RoomFor smallDatabase) { world := emptyWorld } busySession ∧
    busySession.ObjectFile root path .temp ⟨1⟩ ∧
    { q | ∃ path owner id, busySession.ObjectFile root path owner id ∧ path.components = q }.encard ≤
      (3 : ℕ) := by
  intro root path
  have hgoes : Goes smallDatabase (RoomFor smallDatabase) { world := emptyWorld } busySession := by
    refine .step _ (.step _ (.step _ (.step _ .start ?_) ?_) ?_) ?_
    · exact fun _ _ _ => (fits_of_place 0 1 rfl (by decide)).roomy
    · exact fun _ _ _ => (fits_of_place 0 2 rfl (by decide)).roomy
    · exact fun _ h => nomatch h
    · exact fun _ _ _ => (fits_of_place 0 1 rfl (by decide)).roomy
  have hobject : busySession.ObjectFile root path .temp ⟨1⟩ :=
    ⟨rfl, ['1', '.', 't', 'e', 'm', 'p', '.', 'l', 'o', 'b', '.', 'd', 'b'], rfl, rfl⟩
  have hbounded := tree_stays_bounded rfl (by decide) (fun _ => rfl) hgoes
    (show Path.stepsBelow? root.components root.components = some [] from rfl)
  exact ⟨hgoes, hobject, hbounded.1⟩

end Session

end LargeObjects
