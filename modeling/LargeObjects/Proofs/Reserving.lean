import Mathlib
import LargeObjects.Proofs.Guarding
import LargeObjects.Proofs.Looking

/-! What operations on values do in a database with flat names. Whether or not they go through, they
work on the files of one object, and a new object is one that was not in use. -/
namespace LargeObjects

open Step LocalStore FolderStore

variable {σ : Type} [FileStore σ] [LocalStore σ] [FolderStore σ]

namespace FolderStore.Only

variable {dir p q : Path} {names : List Name} {s s₁ : σ} {t u : Name}

theorem create (hs : Sane s) (hdir : Settled dir s) (hp : p.Enters dir t) :
    Only dir [t] s (after (FileStore.create p) s) :=
  (refl hs hdir).run (.create hp) fun _ h => h

theorem delete (hs : Sane s) (hdir : Settled dir s) (hp : p.Enters dir t) :
    Only dir [t] s (after (FileStore.delete p) s) :=
  (refl hs hdir).run (.delete hp) fun _ h => h

theorem copy (hs : Sane s) (hdir : Settled dir s) (p : Path) (hq : q.Enters dir u) :
    Only dir [u] s (after (FileStore.copy p q) s) :=
  (refl hs hdir).run (.copy p hq) fun _ h => h

theorem rename (hs : Sane s) (hdir : Settled dir s) (hp : p.Enters dir t) (hq : q.Enters dir u) :
    Only dir [t, u] s (after (FileStore.rename p q) s) :=
  (refl hs hdir).run (.rename hp hq) fun _ h => h

/-- What is written to a file leaves the other names as they are. -/
theorem endures {writer : FileStore.Writer σ} :
    Endures (fun s' => Only dir [t] s s' ∧ Writes writer dir t s') writer where
  write bytes _ h := endsIn_iff.2
    ⟨h.1.run (.write bytes h.2) fun _ h => h, write_writes bytes h.2⟩
  flush _ h := endsIn_iff.2 ⟨h.1.run (.flush h.2) fun _ h => h, flush_writes h.2⟩

end FolderStore.Only

omit [LocalStore σ] [FolderStore σ] in
/-- A new file is nobody's yet. -/
theorem Value.owner_of_create [Codec] {db : Database} {kind : Kind} {source : Source σ}
    {declared : Option Nat} {w w' : World σ} {v : Value} {ref : ValueFile}
    (h : create db kind source declared w = .ok v w') (hcontent : v.content = .file ref) :
    ref.owner = .temp := by
  unfold create at h
  dsimp only at h
  split at h
  · cases h
  split at h
  · cases h
    cases hcontent
  obtain ⟨⟨id, handle, writer⟩, w₁, -, hfill⟩ := bind_eq_ok h
  dsimp only at hfill
  split at hfill
  · cases hfill
    cases hcontent
    rfl
  · split at hfill <;> cases hfill

namespace Value

def NeedsCopy (v : Value) (table : TableId) (w : World σ) : Prop :=
  ∃ ref owner, v.content = .file ref ∧ (w.handle ref.handle).retired = false ∧
    ref.owner = .table owner ∧ owner ≠ table

def NeedsConversion [Codec] (db : Database) (v : Value) (kind : Kind) (w : World σ) : Prop :=
  ∃ r w', v.kind ≠ kind ∧ v.reader w = .ok r w' ∧ NeedsFile db kind (.stored r) none w'

def NeedsSpill [Codec] (db : Database) (v : Value) (w : World σ) : Prop :=
  ∃ data stamp, v.content = .inline data stamp ∧ db.settings.inlineThreshold < v.precision ∧
    NeedsFile db v.kind (.planned [.bytes data]) (some v.precision) w

end Value

namespace Opening

variable {o : Opening σ} {w w' w'' : World σ} {k : HandleId} {owner : Owner} {id : ObjectId}
  {bound : UInt32} {v : Value} {ref : ValueFile} {needs needs' : Prop} {α : Type}

structure Own (o : Opening σ) (w : World σ) (ref : ValueFile) : Prop where
  layout_eq : ref.layout = .flat
  first_le : o.first ≤ ref.handle
  knows : w.Knows ref.handle
  path_eq : (w.handle ref.handle).path = o.path ref.owner ref.id

def Owns (o : Opening σ) (w : World σ) (v : Value) : Prop := ∀ ref, v.content = .file ref → o.Own w ref

namespace Own

theorem lasts (h : o.Own w ref) (hlasts : w.Lasts w') : o.Own w' ref := by
  obtain ⟨hknown, hpath, -⟩ := hlasts.handle h.knows
  exact ⟨h.layout_eq, h.first_le, hknown, hpath.trans h.path_eq⟩

theorem live (h : o.Own w ref) (hlive : (w.handle ref.handle).retired = false) :
    o.Live w ref.handle ref.owner ref.id := ⟨h.first_le, hlive, h.path_eq⟩

theorem served (h : o.Own w ref) : ¬(ref.layout = .sharded ∧ o.db.layout = .flat) := by
  rintro ⟨hsharded, -⟩
  rw [h.layout_eq] at hsharded
  cases hsharded

theorem path (h : o.Own w ref) (owner : Owner) :
    o.db.naming.path ref.layout owner ref.id = o.path owner ref.id := by
  rw [h.layout_eq, ← o.flat]
  exact o.path_eq owner ref.id

/-- The file of a handle that was just made. -/
theorem of_new {handles : List Handle} {new : Handle} (hhandles : w.handles = handles ++ [new])
    (hhandle : ref.handle = handles.length) (hfirst : o.first ≤ handles.length)
    (hlayout : ref.layout = .flat) (hpath : new.path = o.path ref.owner ref.id) : o.Own w ref := by
  have hnew : w.handle handles.length = new :=
    World.handle_append_new (w := { w with handles }) hhandles
  refine ⟨hlayout, hhandle ▸ hfirst, ?_, ?_⟩
  · unfold World.Knows
    rw [hhandle, hhandles, List.length_append]
    exact Nat.lt_succ_self _
  · rw [hhandle, hnew, hpath]

end Own

theorem Owns.lasts (h : o.Owns w v) (hlasts : w.Lasts w') : o.Owns w' v :=
  fun ref hcontent => (h ref hcontent).lasts hlasts

theorem owns_inline (h : v.file? = none) : o.Owns w v := by
  intro ref hcontent
  rw [Value.file?, hcontent] at h
  cases h

/-- The ids that may be in use go up to a bound that is not lower. If an id was needed and there was
one left, it is among them. -/
def Advances (o : Opening σ) (needs : Prop) (bound : UInt32) (w w' : World σ) : Prop :=
  ∃ bound', bound ≤ bound' ∧ o.Guards bound' w' ∧
    (needs → ∀ id w₁, o.db.allocate w = .ok id w₁ → id.word < bound')

namespace Advances

theorem idle (h : o.Guards bound w') (hnone : ¬needs) : o.Advances needs bound w w' :=
  ⟨bound, UInt32.le_refl bound, h, fun hneeds => absurd hneeds hnone⟩

theorem mono (h : o.Advances needs bound w w') (himp : needs' → needs) :
    o.Advances needs' bound w w' := by
  obtain ⟨bound', hle, hguards, hids⟩ := h
  exact ⟨bound', hle, hguards, fun hneeds => hids (himp hneeds)⟩

theorem trans (h : o.Advances needs bound w w')
    (h' : ∀ bound', o.Guards bound' w' → o.Advances False bound' w' w'') :
    o.Advances needs bound w w'' := by
  obtain ⟨bound₁, hle, hguards, hids⟩ := h
  obtain ⟨bound₂, hle', hguards', -⟩ := h' bound₁ hguards
  exact ⟨bound₂, UInt32.le_trans hle hle', hguards',
    fun hneeds id w₁ halloc => UInt32.lt_of_lt_of_le (hids hneeds id w₁ halloc) hle'⟩

end Advances

inductive Yields (o : Opening σ) (needs : Prop) (bound : UInt32) (w : World σ) :
    EStateM.Result ObjectError (World σ) Value → Prop
  | ok {v : Value} {w' : World σ} : o.Advances needs bound w w' → o.Owns w' v →
    Yields o needs bound w (.ok v w')
  | error {e : ObjectError} {w' : World σ} : o.Advances needs bound w w' →
    Yields o needs bound w (.error e w')

theorem Yields.mono {r : EStateM.Result ObjectError (World σ) Value} (h : o.Yields needs bound w r)
    (himp : needs' → needs) : o.Yields needs' bound w r := by
  cases h with
  | ok hadvances howns => exact .ok (hadvances.mono himp) howns
  | error hadvances => exact .error (hadvances.mono himp)

/-- What needs no id can come after what may need one. -/
theorem Yields.after {r : EStateM.Result ObjectError (World σ) Value}
    (h : o.Advances needs bound w w') (h' : ∀ bound', o.Guards bound' w' → o.Yields False bound' w' r) :
    o.Yields needs bound w r := by
  have hfirst := h
  obtain ⟨bound₁, -, hguards, -⟩ := hfirst
  cases hr : r with
  | ok v w'' =>
    rw [hr] at h'
    refine .ok (h.trans fun bound' hguards' => ?_) ?_
    · cases h' bound' hguards' with | ok hadvances _ => exact hadvances
    · cases h' bound₁ hguards with | ok _ howns => exact howns
  | error e w'' =>
    rw [hr] at h'
    refine .error (h.trans fun bound' hguards' => ?_)
    cases h' bound' hguards' with | error hadvances => exact hadvances

namespace Guards

/-- An object has no other live handle than the one that is on its file. -/
theorem here (h : o.Guards bound w) (hlive : o.Live w k owner id) (k' : HandleId) (owner' : Owner)
    (hlive' : o.Live w k' owner' id) : k' = k ∧ owner' = owner :=
  ⟨h.alone hlive' hlive, (h.alone hlive hlive' ▸ hlive : o.Live w k' owner id).unique hlive' |>.1⟩

/-- Nothing stands where another file of the object would be. -/
theorem clear (h : o.Guards bound w) {owner' : Owner} (hstart : o.start ≤ id.word)
    (hlast : id.word ≠ Allocator.lastWord)
    (hnone : fileIn? o.dir w.store (o.name owner' id) = none) :
    FileStore.isFile (o.path owner' id) w.store = false ∧
      FileStore.isDirectory (o.path owner' id) w.store = false := by
  constructor
  · by_contra hfile
    have hthere := isSome_of_isFile (o.enters owner' id) (Bool.eq_true_of_not_eq_false hfile)
    rw [hnone] at hthere
    cases hthere
  · by_contra hdirectory
    have hthere := folderIn_of_isDirectory (o.enters owner' id)
      (Bool.eq_true_of_not_eq_false hdirectory)
    exact o.free owner' id hstart hlast (Or.inr ((h.folders _).1 hthere))

/-- A file of an object that a handle is on is deleted, and no handle comes to life. -/
theorem delete (h : o.Guards bound w) (hlive : o.Live w k owner id) (owner' : Owner)
    (handles : List Handle) (hlength : w.handles.length ≤ handles.length)
    (hlives : ∀ j own i, o.Live { w with handles } j own i → o.Live w j own i) :
    o.Guards bound
      { w with store := after (FileStore.delete (o.path owner' id)) w.store, handles } := by
  obtain ⟨hstart, hlt, hclear⟩ := h.live hlive
  have hent := o.enters owner' id
  have honly := Only.delete h.sane h.settled hent
  refine h.edit hstart hlt (h.here hlive) honly
    (fun t ht => ⟨owner', List.mem_singleton.1 ht⟩) rfl hlength
    (fun j own i hj => hlives j own i ⟨hj.first_le, hj.retired_eq, hj.path_eq⟩) fun own hne => ?_
  by_cases hown : own = owner'
  · subst hown
    rcases delete_less h.sane h.settled hent with hnone | hsame
    · exact hnone
    · exact hsame.trans (hclear own hne)
  · rw [honly.files, hclear own hne]
    intro hmem
    exact hown (Naming.flatName_injective (List.mem_singleton.1 hmem)).1

/-- Nothing but the files of a new object has changed. -/
theorem unmade (h : o.Guards (id.word + 1) w) (hfresh : o.Fresh w id)
    (hlt : id.word < id.word + 1) {s : σ} (honly : Only o.dir [o.name owner id] w.store s) :
    o.Guards (id.word + 1) { w with store := s } :=
  h.edit (k := 0) hfresh.start_le hlt (fun k' own hk => absurd hk (hfresh.not_live k' own)) honly
    (fun _ ht => ⟨owner, List.mem_singleton.1 ht⟩) rfl (Nat.le_refl _)
    (fun _ _ _ hk => ⟨hk.first_le, hk.retired_eq, hk.path_eq⟩)
    (clear_of_only honly fun own _ => hfresh.fileIn?_eq own)

/-- A file of a new object was made, with a handle. -/
theorem made (h : o.Guards (id.word + 1) w) (hfresh : o.Fresh w id)
    (hlt : id.word < id.word + 1) {s : σ} (honly : Only o.dir [o.name owner id] w.store s)
    {new : Handle} (hnew : new.path = o.path owner id) :
    o.Guards (id.word + 1) { w with store := s, handles := w.handles ++ [new] } :=
  h.append hfresh.start_le hlt hfresh.not_live hnew honly
    (fun _ ht => ⟨owner, List.mem_singleton.1 ht⟩) rfl rfl
    (clear_of_only honly fun own _ => hfresh.fileIn?_eq own)

end Guards

/-- What comes of an id that was found is among those that may be in use. -/
theorem Advances.of_allocate {w₁ : World σ} (halloc : o.db.allocate w = .ok id w₁)
    (hle : bound ≤ id.word) (hlt : id.word < id.word + 1) (h : o.Guards (id.word + 1) w') :
    o.Advances needs bound w w' := by
  refine ⟨_, UInt32.le_trans hle (UInt32.le_of_lt hlt), h, fun _ id' w₂ halloc' => ?_⟩
  cases halloc.symm.trans halloc'
  exact hlt

/-- Where no id is found, none comes into use. -/
theorem Advances.of_exhausted {e : ObjectError} {w₁ : World σ} (halloc : o.db.allocate w = .error e w₁)
    (h : o.Guards bound w') : o.Advances needs bound w w' := by
  refine ⟨bound, UInt32.le_refl bound, h, fun _ id w₂ halloc' => ?_⟩
  cases halloc.symm.trans halloc'

namespace Guards

open Value

theorem clone (h : o.Guards bound w) (hv : o.Owns w v) : o.Yields False bound w (v.clone w) := by
  cases hcontent : v.content with
  | inline data stamp =>
    rw [clone_inline (by rw [file?, hcontent])]
    exact .ok (.idle h not_false) hv
  | file ref =>
    have hlasts : w.Lasts { w with handles := w.handles.modify ref.handle Handle.takeHold } :=
      Handle.last_modify _ _ fun _ => ⟨rfl, id⟩
    rw [clone_file hcontent]
    refine .ok (.idle (h.rehandle ?_ fun k owner id hk => ?_) not_false) (hv.lasts hlasts)
    · rw [List.length_modify]
    · exact hk.of_modify (f := Handle.takeHold) (fun _ => rfl) (fun _ h => h) rfl (hv ref hcontent).knows

/-- A file gets the name that it has with another owner. -/
theorem relocate (h : o.Guards bound w) (owner : Owner) (hlive : o.Live w ref.handle ref.owner ref.id)
    (hflat : ref.layout = .flat) (hne : owner ≠ ref.owner) (armed : Bool) (v : Value) :
    o.Yields False bound w ((do
      World.onStore (FileStore.rename (w.handle ref.handle).path (o.path owner ref.id))
      World.retire ref.handle
      return v.withFile { ref with
        owner, handle := ← World.newHandle (o.path owner ref.id) armed } : Action σ Value) w) := by
  obtain ⟨hstart, hlt, hclear⟩ := h.live hlive
  have hent := o.enters ref.owner ref.id
  have hent' := o.enters owner ref.id
  have honly := Only.rename h.sane h.settled hent hent'
  have hnames : ∀ t ∈ [o.name ref.owner ref.id, o.name owner ref.id], ∃ own, t = o.name own ref.id := by
    intro t ht
    rcases List.mem_pair.1 ht with rfl | rfl
    · exact ⟨_, rfl⟩
    · exact ⟨_, rfl⟩
  have hdiffer : o.name ref.owner ref.id ≠ o.name owner ref.id := fun hsame =>
    hne (Naming.flatName_injective hsame).1.symm
  rw [hlive.path_eq]
  cases hrename : FileStore.rename (o.path ref.owner ref.id) (o.path owner ref.id) w.store with
  | error cause s =>
    rw [after_error hrename] at honly
    rw [bind_error (World.onStore_error hrename)]
    have hsame := rename_error h.sane h.settled hent hent' hrename
    refine .error (.idle ?_ not_false)
    show o.Guards bound { w with store := s }
    refine h.edit hstart hlt (h.here hlive) honly hnames rfl
      (Nat.le_refl _) (fun _ _ _ hk => ⟨hk.first_le, hk.retired_eq, hk.path_eq⟩) fun own hown => ?_
    rw [show fileIn? o.dir s = _ from hsame]
    exact hclear own hown
  | ok _ s =>
    rw [after_ok hrename] at honly
    rw [relocate_renamed ref.handle armed (fun handle => v.withFile { ref with owner, handle }) hrename]
    have hlength : (w.handles.modify ref.handle Handle.retire).length = w.handles.length :=
      List.length_modify _ _ _
    have hclear' : ∀ own ≠ owner, fileIn? o.dir s (o.name own ref.id) = none := by
      intro own hown
      by_cases hold : own = ref.owner
      · subst hold
        exact rename_ok h.sane h.settled hent hent' hdiffer hrename
      · rw [honly.files, hclear own hold]
        intro hmem
        rcases List.mem_pair.1 hmem with hsame | hsame
        · exact hold (Naming.flatName_injective hsame).1
        · exact hown (Naming.flatName_injective hsame).1
    refine .ok (.idle ?_ not_false) fun ref' hcontent => ?_
    · refine h.touch (k := w.handles.length) hstart hlt honly hnames rfl ?_
        (fun k' own id hk' => ?_) hclear'
      · show w.handles.length ≤ (w.handles.modify ref.handle Handle.retire ++ _).length
        rw [List.length_append, hlength]
        exact Nat.le_add_right _ _
      · -- What was live and is not the old handle is on the files of other objects.
        rcases hk'.of_append (w := { w with handles := w.handles.modify ref.handle Handle.retire })
          rfl with hold | ⟨hlast, -, hpath⟩
        · obtain ⟨hk, hbefore⟩ := hold.of_retire rfl hlive.knows
          refine Or.inl ⟨?_, hbefore⟩
          rintro rfl
          exact hk (h.alone hbefore hlive)
        · obtain ⟨howner, hid⟩ := Naming.flatPath_injective hpath
          exact Or.inr ⟨hid.symm, hlast.trans hlength, howner.symm⟩
    · cases hcontent
      refine .of_new rfl hlength.symm ?_ hflat rfl
      rw [hlength]
      exact h.first_le

/-- A copy is one of a new object. -/
theorem copyTo (h : o.Guards bound w) (hfits : o.db.Fits w)
    (hlive : (w.handle ref.handle).retired = false) (v : Value) (table : TableId) :
    o.Yields needs bound w (Value.copyTo o.db v ref table w) := by
  rcases h.allocate hfits with ⟨id, counters, halloc, hle, hfresh, hlt, hguards⟩ |
    ⟨e, counters, halloc, hguards⟩
  · have hadvances {w' : World σ} : o.Guards (id.word + 1) w' → o.Advances needs bound w w' :=
      Advances.of_allocate halloc hle hlt
    have hent := o.enters (.table table) id
    have hcopied := Only.copy hguards.sane hguards.settled (w.handle ref.handle).path hent
    rw [copyTo_found v table hlive halloc, o.path_eq]
    cases hcopy : FileStore.copy (w.handle ref.handle).path (o.path (.table table) id) w.store with
    | error cause s =>
      rw [after_error hcopy] at hcopied
      exact .error (hadvances (hguards.unmade hfresh hlt (hcopied.run (.delete hent) fun _ h => h)))
    | ok count s =>
      rw [after_ok hcopy] at hcopied
      refine .ok (hadvances (hguards.made hfresh hlt hcopied rfl)) fun ref' hcontent => ?_
      cases hcontent
      exact .of_new rfl rfl h.first_le o.flat rfl
  · rw [show Value.copyTo o.db v ref table w = _ from
      (bind_ok (World.livePath_ok hlive)).trans (bind_error halloc)]
    exact .error (Advances.of_exhausted halloc hguards)

theorem link (h : o.Guards bound w) (hv : o.Owns w v) (table : TableId)
    (hfits : v.NeedsCopy table w → o.db.Fits w) :
    o.Yields (v.NeedsCopy table w) bound w (v.link o.db table w) := by
  cases hcontent : v.content with
  | inline data stamp =>
    rw [link_inline hcontent table]
    refine .ok (.idle h ?_) ?_
    · rintro ⟨ref, owner, hfile, -⟩
      cases hcontent.symm.trans hfile
    · apply owns_inline
      split
      · rw [file?, hcontent]
      · rfl
  | file ref =>
    have hown := hv ref hcontent
    cases hlive : (w.handle ref.handle).retired with
    | true =>
      rw [link_retired hcontent table hlive]
      refine .error (.idle h ?_)
      rintro ⟨_, owner, hfile, hnot, -⟩
      cases hcontent.symm.trans hfile
      cases hlive.symm.trans hnot
    | false =>
      rw [link_served hcontent table hlive hown.served]
      cases howner : ref.owner with
      | temp =>
        have hrun := h.relocate (.table table) (hown.live hlive) hown.layout_eq
          (by rw [howner]; rintro ⟨⟩) false v
        dsimp only [moveTo]
        rw [hown.path, bind_ok (World.livePath_ok hlive)]
        refine hrun.mono ?_
        rintro ⟨_, owner, hfile, -, htable, -⟩
        cases hcontent.symm.trans hfile
        cases howner.symm.trans htable
      | table owner =>
        dsimp only
        split
        next hsame =>
          refine (h.clone hv).mono ?_
          rintro ⟨_, _, hfile, -, htable, hne⟩
          cases hcontent.symm.trans hfile
          cases howner.symm.trans htable
          exact hne hsame
        next hne => exact h.copyTo (hfits ⟨ref, owner, hcontent, hlive, howner, hne⟩) hlive v table

theorem unlink (h : o.Guards bound w) (hv : o.Owns w v) :
    o.Yields False bound w (v.unlink o.db w) := by
  cases hcontent : v.content with
  | inline data stamp =>
    rw [unlink_inline hcontent]
    exact .ok (.idle h not_false) hv
  | file ref =>
    have hown := hv ref hcontent
    cases hlive : (w.handle ref.handle).retired with
    | true =>
      rw [unlink_retired hcontent hlive]
      exact .error (.idle h not_false)
    | false =>
      by_cases howner : ref.owner = .temp
      · rw [unlink_temp hcontent howner hlive hown.served]
        exact h.clone hv
      have hon := hown.live hlive
      have hdeleted := h.delete hon .temp w.handles (Nat.le_refl _) fun _ _ _ hk => hk
      rw [unlink_linked hcontent howner hlive hown.served, hown.path]
      cases hdelete : FileStore.delete (o.path .temp ref.id) w.store with
      | error cause s =>
        rw [after_error hdelete] at hdeleted
        rw [bind_error (World.onStore_error hdelete)]
        exact .error (.idle hdeleted not_false)
      | ok found s =>
        rw [after_ok hdelete] at hdeleted
        rw [bind_ok (World.onStore_ok hdelete)]
        refine .after (.idle hdeleted not_false) fun bound' hguards => ?_
        have hon' : o.Live { w with store := s } ref.handle ref.owner ref.id :=
          ⟨hon.first_le, hon.retired_eq, hon.path_eq⟩
        exact hguards.relocate .temp hon' hown.layout_eq (Ne.symm howner) true v

theorem close (h : o.Guards bound w) (hv : o.Owns w v) : o.Guards bound (after v.close w) := by
  rcases close_cases v w with hrun | ⟨ref, hcontent, hlive, ⟨e, s, hdelete, hrun⟩ | ⟨found, s, hdelete, hrun⟩⟩
  · rw [after_ok hrun]
    exact h
  · have hon := (hv ref hcontent).live hlive
    have hdeleted := h.delete hon ref.owner w.handles (Nat.le_refl _) fun _ _ _ hk => hk
    rw [hon.path_eq] at hdelete
    rw [after_error hdelete] at hdeleted
    rw [after_error hrun]
    exact hdeleted
  · have hon := (hv ref hcontent).live hlive
    have hdeleted := h.delete hon ref.owner (w.handles.modify ref.handle Handle.retire)
      (by rw [List.length_modify]) fun _ _ _ hk => (hk.of_retire rfl hon.knows).2
    rw [hon.path_eq] at hdelete
    rw [after_ok hdelete] at hdeleted
    rw [after_ok hrun]
    exact hdeleted

theorem drop (h : o.Guards bound w) (hv : o.Owns w v) : o.Guards bound (after v.drop w) := by
  cases hcontent : v.content with
  | inline data stamp =>
    rw [after_ok (drop_inline (by rw [file?, hcontent]))]
    exact h
  | file ref =>
    have hown := hv ref hcontent
    have hlength : w.handles.length ≤ (w.handles.modify ref.handle Handle.letGo).length := by
      rw [List.length_modify]
    have hlives (k : HandleId) (owner : Owner) (id : ObjectId) :
        o.Live { w with handles := w.handles.modify ref.handle Handle.letGo } k owner id →
          o.Live w k owner id :=
      Live.of_modify (f := Handle.letGo) (fun _ => rfl) (fun _ h => h) rfl hown.knows
    rw [after_congr (drop_file hcontent)]
    by_cases hlast : (w.handle ref.handle).Discards
    · have hon := hown.live (Handle.isAutoDelete_iff.1 hlast.2).2
      rw [after_ok (World.release_last hown.knows hlast), hon.path_eq]
      exact h.delete hon ref.owner _ hlength hlives
    · rw [after_ok (World.release_keeps hown.knows hlast)]
      exact h.rehandle hlength hlives

/-- A value is linked and let go of, in whatever way linking it ends. -/
theorem handOver (h : o.Guards bound w) (hv : o.Owns w v)
    (htemp : ∀ ref, v.content = .file ref → ref.owner = .temp) (table : TableId) :
    o.Yields False bound w (Value.handOver o.db v table w) := by
  have hknown : v.Known w := fun ref hcontent => (hv ref hcontent).knows
  have hnone : ¬v.NeedsCopy table w := by
    rintro ⟨ref, owner, hcontent, -, htable, -⟩
    cases (htemp ref hcontent).symm.trans htable
  have hlink := (h.link hv table fun hneeds => absurd hneeds hnone).mono False.elim
  have hensures := ensures_link hknown o.db table
  unfold Value.handOver
  cases hrun : v.link o.db table w with
  | ok linked w₁ =>
    rw [hrun] at hlink hensures
    cases hlink with | ok hadvances howns =>
    obtain ⟨w₂, hdrop, hlasts⟩ := lasts_drop v w₁
    dsimp only
    rw [hdrop]
    refine .ok (hadvances.trans fun bound' hguards => ?_) (howns.lasts hlasts)
    have hdropped := hguards.drop (hv.lasts hensures.1)
    rw [after_ok hdrop] at hdropped
    exact .idle hdropped not_false
  | error e w₁ =>
    rw [hrun] at hlink hensures
    cases hlink with | error hadvances =>
    obtain ⟨w₂, hdrop, hlasts⟩ := lasts_drop v w₁
    dsimp only
    rw [hdrop]
    refine .error (hadvances.trans fun bound' hguards => ?_)
    have hdropped := hguards.drop (hv.lasts hensures)
    rw [after_ok hdrop] at hdropped
    exact .idle hdropped not_false

variable [Codec] [QuietStore σ]

/-- A new file is one of a new object, and its handle is the only one. -/
theorem createInFile (h : o.Guards bound w) (hfits : o.db.Fits w) (first : Bytes)
    (count remaining : Nat) (intake : Intake σ) :
    o.Yields needs bound w (Value.createInFile o.db first count remaining intake w) := by
  rcases h.allocate hfits with ⟨id, counters, halloc, hle, hfresh, hlt, hguards⟩ |
    ⟨e, counters, halloc, hguards⟩
  · have hadvances {w' : World σ} : o.Guards (id.word + 1) w' → o.Advances needs bound w w' :=
      Advances.of_allocate halloc hle hlt
    have hent := o.enters .temp id
    have hcreated := Only.create hguards.sane hguards.settled hent
    cases hcreate : FileStore.create (o.path .temp id) w.store with
    | error cause s =>
      have hopen : o.db.openTemp w = .error (.storage cause) { w with store := s, counters } := by
        refine (bind_ok halloc).trans (bind_error (World.onStore_error ?_))
        rwa [o.path_eq]
      rw [show Value.createInFile o.db first count remaining intake w = _ from bind_error hopen]
      rw [after_error hcreate] at hcreated
      exact .error (hadvances (hguards.unmade hfresh hlt hcreated))
    | ok writer s =>
      have hopen : o.db.openTemp w = .ok (id, w.handles.length, writer) { w with
          store := s, counters, handles := w.handles ++ [{ path := o.path .temp id, armed := true }] } := by
        rw [← o.path_eq]
        refine (bind_ok halloc).trans (bind_ok (World.onStore_ok ?_))
        rwa [o.path_eq]
      rw [show Value.createInFile o.db first count remaining intake w = _ from bind_ok hopen]
      have hwrites := create_writes hguards.sane hguards.settled hent hcreate
      rw [after_ok hcreate] at hcreated
      have hfill := preserves_fillFile Only.endures o.db.settings first remaining intake s
        ⟨hcreated, hwrites⟩
      have hclosed : ∀ s', Only o.dir [o.name .temp id] w.store s' ∧
          Writes writer o.dir (o.name .temp id) s' →
          Only o.dir [o.name .temp id] w.store (FileStore.close writer s') :=
        fun s' hs' => hs'.1.run (.close hs'.2) fun _ h => h
      dsimp only
      cases hrun : fillFile o.db.settings writer first remaining intake s with
      | ok total s₁ =>
        rw [hrun] at hfill
        cases hfill with | ok hs₁ =>
        have hpath : ({ path := o.path .temp id, armed := true } : Handle).path = o.path .temp id := rfl
        have hmade := hguards.made hfresh hlt (hclosed s₁ hs₁) hpath
        refine .ok (hadvances hmade) fun ref hcontent => ?_
        cases hcontent
        exact .of_new rfl rfl h.first_le o.flat rfl
      | error e s₁ =>
        rw [hrun] at hfill
        cases hfill with | error hs₁ =>
        have hdeleted := (hclosed s₁ hs₁).run (.delete hent) fun _ h => h
        have hpath : ({ path := o.path .temp id, armed := true, holders := 0 } : Handle).path =
          o.path .temp id := rfl
        have hmade := hguards.made hfresh hlt hdeleted hpath
        have hrelease := World.release_only { w with counters } (FileStore.close writer s₁)
          (o.path .temp id)
        dsimp only at hrelease ⊢
        rw [hrelease]
        exact .error (hadvances hmade)
  · rw [show Value.createInFile o.db first count remaining intake w = _ from
      bind_error (bind_error halloc)]
    exact .error (Advances.of_exhausted halloc hguards)

theorem create (h : o.Guards bound w) (kind : Kind) (source : Source σ) (declared : Option Nat)
    (hfits : NeedsFile o.db kind source declared w → o.db.Fits w) :
    o.Yields (NeedsFile o.db kind source declared w) bound w
      (Value.create o.db kind source declared w) := by
  unfold Value.create
  unfold NeedsFile at hfits ⊢
  dsimp only at hfits ⊢
  generalize ChunkSize.next (declared.getD unlimited) o.db.settings.inlineThreshold
    (o.db.settings.compressionFor kind).isSome = size at hfits ⊢
  have htake := Intake.preserves_take (· = w.store) size ({ kind, source }, w.store) rfl
  rcases hrun : Intake.take size (({ kind, source } : Intake σ), w.store) with
    ⟨⟨first, count⟩, intake, s⟩ | ⟨e, intake, s⟩
  · rw [hrun] at htake hfits
    cases htake with | ok hs =>
    obtain rfl : s = w.store := hs
    dsimp only
    split
    next hsmall =>
      refine .ok (.idle h ?_) (owns_inline rfl)
      rintro ⟨_, _, _, ⟨⟩, hlarge⟩
      exact Nat.not_le.2 hlarge hsmall
    next hlarge =>
      exact h.createInFile (hfits ⟨first, count, _, rfl, Nat.lt_of_not_le hlarge⟩) _ _ _ _
  · rw [hrun] at htake
    cases htake with | error hs =>
    obtain rfl : s = w.store := hs
    refine .error (.idle h ?_)
    rintro ⟨_, _, _, ⟨⟩, -⟩

/-- Content that is read comes without a change. -/
theorem convert (h : o.Guards bound w) (hv : o.Owns w v) (kind : Kind)
    (hfits : v.NeedsConversion o.db kind w → o.db.Fits w) :
    o.Yields (v.NeedsConversion o.db kind w) bound w (v.convert o.db kind w) := by
  unfold Value.convert
  split
  next hkind => exact (h.clone hv).mono fun ⟨_, _, hne, _⟩ => hne hkind
  next hkind =>
    have hkept := preserves_reader (· = w) v w rfl
    cases hrun : v.reader w with
    | error e w₁ =>
      rw [hrun] at hkept
      cases hkept with | error hw =>
      obtain rfl : w₁ = w := hw
      rw [bind_error hrun]
      refine .error (.idle h ?_)
      rintro ⟨_, _, -, hread, -⟩
      cases hrun.symm.trans hread
    | ok r w₁ =>
      rw [hrun] at hkept
      cases hkept with | ok hw =>
      obtain rfl : w₁ = w := hw
      rw [bind_ok hrun]
      refine (h.create kind (.stored r) none fun hneeds => hfits ⟨r, w₁, hkind, hrun, hneeds⟩).mono ?_
      rintro ⟨_, _, -, hread, hneeds⟩
      cases hrun.symm.trans hread
      exact hneeds

theorem spill (h : o.Guards bound w) (hv : o.Owns w v) (hfits : v.NeedsSpill o.db w → o.db.Fits w) :
    o.Yields (v.NeedsSpill o.db w) bound w (v.spill o.db w) := by
  cases hcontent : v.content with
  | file ref =>
    rw [spill_file hcontent]
    refine (h.clone hv).mono ?_
    rintro ⟨_, _, hinline, -⟩
    cases hcontent.symm.trans hinline
  | inline data stamp =>
    by_cases hsmall : v.precision ≤ o.db.settings.inlineThreshold
    · rw [spill_small hcontent hsmall]
      exact .ok (.idle h fun ⟨_, _, _, hlarge, _⟩ => Nat.not_le.2 hlarge hsmall) hv
    have hcreate := h.create v.kind (.planned [.bytes data]) (some v.precision) fun hneeds =>
      hfits ⟨data, stamp, hcontent, Nat.lt_of_not_le hsmall, hneeds⟩
    have hneeded : v.NeedsSpill o.db w →
        NeedsFile o.db v.kind (.planned [.bytes data]) (some v.precision) w := by
      rintro ⟨_, _, hinline, -, hneeds⟩
      cases hcontent.symm.trans hinline
      exact hneeds
    rw [spill_eq hcontent hsmall]
    cases hrun : Value.create o.db v.kind (.planned [.bytes data]) (some v.precision) w with
    | error e w₁ =>
      rw [hrun] at hcreate
      rw [bind_error hrun]
      exact hcreate.mono hneeded
    | ok first w₁ =>
      rw [hrun] at hcreate
      rw [bind_ok hrun]
      cases stamp with
      | none => exact hcreate.mono hneeded
      | some table =>
        cases hcreate with | ok hadvances howns =>
        exact .after (hadvances.mono hneeded) fun bound' hguards =>
          hguards.handOver howns (fun ref => owner_of_create hrun) table

end Guards

end Opening

end LargeObjects
