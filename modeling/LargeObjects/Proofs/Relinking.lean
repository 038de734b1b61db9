import Mathlib
import LargeObjects.Proofs.Frames
import LargeObjects.Proofs.Operations
import LargeObjects.Proofs.Unlinking

/-! Linking and unlinking undo each other. Each of them moves the file of a value to the name that says
whose it is, and gives it a new handle. The name depends on nothing but the object and its owner, so
that the file comes back to where it was. -/
namespace LargeObjects

open ReliableStore

/-- Another owner means another name for the file of an object. -/
theorem Naming.components_path_ne (n : Naming) (layout : Layout) (id : ObjectId) {owner owner' : Owner}
    (h : owner ≠ owner') :
    (n.path layout owner id).components ≠ (n.path layout owner' id).components := by
  intro heq
  cases layout with
  | sharded =>
    simp only [path, shardedPath] at heq
    rw [Path.components_append _ (length_ending owner) (separator_not_mem_ending owner),
      Path.components_append _ (length_ending owner') (separator_not_mem_ending owner')] at heq
    have hname := List.append_inj_right' heq rfl
    simp only [List.cons.injEq, Component.name.injEq, List.append_cancel_left_eq,
      List.append_cancel_right_eq, and_true] at hname
    exact h (ownerMark_injective hname)
  | flat =>
    simp only [path] at heq
    rw [components_flatPath, components_flatPath] at heq
    have hname := List.append_inj_right' heq rfl
    simp only [List.cons.injEq, Component.name.injEq, List.append_cancel_left_eq, and_true] at hname
    exact h (flatEnding_injective hname).1

variable {σ : Type} [FileStore σ] [ReliableStore σ]

/-- When a file goes to a free place and comes back, all files are as they were. -/
theorem Moves.back {p q : List Component} {s s' s'' : σ} (h : Moves p q s s') (h' : Moves q p s' s'')
    (hfree : fileAt? s q = none) (r : List Component) : fileAt? s'' r = fileAt? s r := by
  by_cases hp : r = p
  · rw [hp, h'.there, h.there]
  by_cases hq : r = q
  · rw [hq, h'.left, hfree]
  · rw [h'.elsewhere r hq hp, h.elsewhere r hp hq]

namespace Value

structure InPlace (db : Database) (v : Value) (ref : ValueFile) (w : World σ) : Prop where
  content_eq : v.content = .file ref
  served : ¬(ref.layout = .sharded ∧ db.layout = .flat)
  live : (w.handle ref.handle).retired = false
  path_eq : (w.handle ref.handle).path = db.naming.path ref.layout ref.owner ref.id
  armed_eq : (w.handle ref.handle).armed = decide (ref.owner = .temp)
  stored : (fileAt? w.store (db.naming.path ref.layout ref.owner ref.id).components).isSome

structure Passes (db : Database) (ref : ValueFile) (owner : Owner) (w w' : World σ) : Prop where
  moves : Moves (db.naming.path ref.layout ref.owner ref.id).components
    (db.naming.path ref.layout owner ref.id).components w.store w'.store
  made : w'.handles.length = w.handles.length + 1
  new_eq : w'.handle w.handles.length = .new (db.naming.path ref.layout owner ref.id) owner
  retired_eq : w'.handle ref.handle = (w.handle ref.handle).retire
  others : ∀ k, w.Knows k → k ≠ ref.handle → w'.handle k = w.handle k

variable {db : Database} {v : Value} {ref : ValueFile} {owner : Owner} {w w' : World σ}

def handTo (db : Database) (v : Value) : Owner → Action σ Value
  | .temp => v.unlink db
  | .table t => v.link db t

theorem passes_of_moves (h : v.InPlace db ref w) {store : σ}
    (hmoves : Moves (w.handle ref.handle).path.components
      (db.naming.path ref.layout owner ref.id).components w.store store) :
    Passes db ref owner w { w with
      store
      handles := w.handles.modify ref.handle Handle.retire ++
        [.new (db.naming.path ref.layout owner ref.id) owner] } := by
  have hknown := World.knows_of_live h.live
  rw [h.path_eq] at hmoves
  refine ⟨hmoves, ?_, World.handle_modify_append_new rfl, ?_, fun k hk hne => ?_⟩
  · rw [List.length_append, List.length_modify, List.length_singleton]
  · rw [World.handle_modify_append rfl hknown hknown, if_pos rfl]
  · rw [World.handle_modify_append rfl hknown hk, if_neg hne]

/-- A linked value can be unlinked, and one that nobody owns can be linked. -/
theorem handTo_ok (h : v.InPlace db ref w) (howner : ref.owner = .temp ↔ owner ≠ .temp) : ∃ w',
    v.handTo db owner w = .ok (v.withFile { ref with owner, handle := w.handles.length }) w' ∧
      Passes db ref owner w w' := by
  obtain ⟨content, hfile⟩ := Option.isSome_iff_exists.1 h.stored
  rw [← h.path_eq] at hfile
  have hne : ref.owner ≠ owner := by
    rintro heq
    rw [heq] at howner
    exact (iff_not_self howner).elim
  have hname := db.naming.components_path_ne ref.layout ref.id hne
  rw [← h.path_eq] at hname
  cases owner with
  | temp =>
    have hlinked : ref.owner ≠ .temp := fun heq => howner.1 heq rfl
    obtain ⟨store, hrun, hmoves⟩ := unlink_ok h.content_eq hlinked h.live h.served hfile hname
    exact ⟨_, hrun, passes_of_moves h hmoves⟩
  | table t =>
    obtain ⟨store, hrun, hmoves⟩ := moveTo_ok v t h.live hfile hname
    have hlink := link_served h.content_eq t h.live h.served
    rw [howner.2 nofun] at hlink
    exact ⟨_, hlink.trans hrun, passes_of_moves h hmoves⟩

/-- What has gone to another owner is in place there. -/
theorem Passes.inPlace (h : v.InPlace db ref w) (hpasses : Passes db ref owner w w') :
    (v.withFile { ref with owner, handle := w.handles.length }).InPlace db
      { ref with owner, handle := w.handles.length } w' := by
  refine ⟨rfl, h.served, ?_, ?_, ?_, ?_⟩
  · rw [hpasses.new_eq]
    rfl
  · rw [hpasses.new_eq]
    rfl
  · rw [hpasses.new_eq]
    rfl
  · rw [hpasses.moves.there]
    exact h.stored

theorem InPlace.state_eq (h : v.InPlace db ref w) :
    v.state w = if ref.owner = .temp then .temp else .linked := by
  unfold state
  rw [h.content_eq]
  dsimp only
  rw [if_neg (Bool.eq_false_iff.1 h.live)]

theorem InPlace.isAutoDelete_eq (h : v.InPlace db ref w) :
    v.isAutoDelete w = decide (ref.owner = .temp) := by
  unfold isAutoDelete Handle.isAutoDelete
  rw [file?, h.content_eq, Option.any_some, h.armed_eq, h.live, Bool.not_false, Bool.and_true]

theorem InPlace.path?_eq (h : v.InPlace db ref w) :
    v.path? w = some (db.naming.path ref.layout ref.owner ref.id) := by
  unfold path?
  rw [file?, h.content_eq, Option.map_some, h.path_eq]

section Restoring

variable [Codec]

structure Restored (v : Value) (ref : ValueFile) (w : World σ) (v' : Value) (w' : World σ) : Prop where
  value_eq : ∃ handle, v' = v.withFile { ref with handle }
  path_eq : v'.path? w' = v.path? w
  isAutoDelete_eq : v'.isAutoDelete w' = v.isAutoDelete w
  state_eq : v'.state w' = v.state w
  reads : ∀ content, v.Bears content w →
    v.readBytes w = .ok content w ∧ v'.readBytes w' = .ok content w'
  files_eq : ∀ q, fileAt? w'.store q = fileAt? w.store q

/-- What is held in a session, is not retired and is served is in place. -/
theorem inPlace_of_held {n : Naming} {s : Session σ} {h : Held} (hopen : db.Opened n)
    (hk : Kept db n s) (hmem : h ∈ s.held) (hcontent : h.value.content = .file ref)
    (hlive : (s.world.handle ref.handle).retired = false)
    (hserved : ¬(ref.layout = .sharded ∧ db.layout = .flat)) : h.value.InPlace db ref s.world := by
  obtain ⟨hpath, -, -, stored, hstored, -⟩ := Session.stored_of_held hk hmem hcontent hlive
  have harmed := (hk.backed ⟨h, hk.held_made hmem, hcontent, rfl⟩).armed_iff
  rw [← hopen.path_eq hserved] at hpath
  rw [hpath] at hstored
  refine ⟨hcontent, hserved, hlive, hpath, ?_, Option.isSome_of_mem hstored⟩
  rw [Bool.eq_iff_iff, harmed, decide_eq_true_iff]

/-- A value in place is restored where its file has the old owner and the files are the old ones. -/
theorem InPlace.restored (h : v.InPlace db ref w) {handle : HandleId}
    (h' : (v.withFile { ref with handle }).InPlace db { ref with handle } w')
    (hfiles : ∀ q, fileAt? w'.store q = fileAt? w.store q) :
    Restored v ref w (v.withFile { ref with handle }) w' := by
  refine ⟨⟨handle, rfl⟩, h'.path?_eq.trans h.path?_eq.symm,
    h'.isAutoDelete_eq.trans h.isAutoDelete_eq.symm, h'.state_eq.trans h.state_eq.symm,
    fun content hbears => ⟨hbears.readBytes_eq, ?_⟩, hfiles⟩
  obtain ⟨-, stored, hstored, hstores⟩ := (bears_file h.content_eq).1 hbears
  have hpath : (w'.handle handle).path = (w.handle ref.handle).path := h'.path_eq.trans h.path_eq.symm
  rw [← hfiles, ← hpath] at hstored
  exact readBytes_ok rfl h'.live hstored hstores

theorem Restored.table?_eq {v' : Value} (h : Restored v ref w v' w') : v'.table? = ref.owner.table? := by
  obtain ⟨handle, rfl⟩ := h.value_eq
  rfl

/-- What is given away and given back is as it was, if it has found no file where it went. -/
theorem handTo_back (h : v.InPlace db ref w) (howner : ref.owner = .temp ↔ owner ≠ .temp)
    (hfree : fileAt? w.store (db.naming.path ref.layout owner ref.id).components = none) :
    ∃ u w₁ v' w₂, v.handTo db owner w = .ok u w₁ ∧ u.handTo db ref.owner w₁ = .ok v' w₂ ∧
      u = v.withFile { ref with owner, handle := w.handles.length } ∧
      Passes db ref owner w w₁ ∧
      Passes db { ref with owner, handle := w.handles.length } ref.owner w₁ w₂ ∧
      Restored v ref w v' w₂ := by
  obtain ⟨w₁, hgive, hpasses⟩ := handTo_ok h howner
  have hthere := hpasses.inPlace h
  have hreturn : owner = .temp ↔ ref.owner ≠ .temp := by
    rw [ne_eq, howner, not_not]
  obtain ⟨w₂, hback, hpasses'⟩ := handTo_ok hthere hreturn
  have hhere := hpasses'.inPlace hthere
  exact ⟨_, w₁, _, w₂, hgive, hback, rfl, hpasses, hpasses',
    h.restored hhere (hpasses.moves.back hpasses'.moves hfree)⟩

/-- Unlinking and linking again gives a linked value back, and linking and unlinking again a temporary
one, where no file stands under the name that is used in between: the value is as it was but for its
handle, and so are all files. In between just that file has moved, and just its handle is retired. -/
theorem relink_restores (h : v.InPlace db ref w) :
    (∀ t, ref.owner = .table t →
      fileAt? w.store (db.naming.path ref.layout .temp ref.id).components = none →
      ∃ u w₁ v' w₂, v.unlink db w = .ok u w₁ ∧ u.link db t w₁ = .ok v' w₂ ∧
        u = v.withFile { ref with owner := .temp, handle := w.handles.length } ∧
        Passes db ref .temp w w₁ ∧
        Passes db { ref with owner := .temp, handle := w.handles.length } (.table t) w₁ w₂ ∧
        Restored v ref w v' w₂ ∧
        v'.table? = some t ∧ v'.state w₂ = .linked ∧ v'.isAutoDelete w₂ = false) ∧
    (∀ t, ref.owner = .temp →
      fileAt? w.store (db.naming.path ref.layout (.table t) ref.id).components = none →
      ∃ u w₁ v' w₂, v.link db t w = .ok u w₁ ∧ u.unlink db w₁ = .ok v' w₂ ∧
        u = v.withFile { ref with owner := .table t, handle := w.handles.length } ∧
        Passes db ref (.table t) w w₁ ∧
        Passes db { ref with owner := .table t, handle := w.handles.length } .temp w₁ w₂ ∧
        Restored v ref w v' w₂ ∧
        v'.table? = none ∧ v'.state w₂ = .temp ∧ v'.isAutoDelete w₂ = true) := by
  have hstate := h.state_eq
  have hauto := h.isAutoDelete_eq
  refine ⟨fun t howner hfree => ?_, fun t howner hfree => ?_⟩
  · have hgoes : ref.owner = .temp ↔ Owner.temp ≠ .temp := by simp [howner]
    obtain ⟨u, w₁, v', w₂, hunlink, hlink, hu, hpasses, hpasses', hrestored⟩ :=
      handTo_back h hgoes hfree
    have htable := hrestored.table?_eq
    rw [howner] at hlink hpasses' hstate hauto htable
    exact ⟨u, w₁, v', w₂, hunlink, hlink, hu, hpasses, hpasses', hrestored, htable,
      hrestored.state_eq.trans hstate, hrestored.isAutoDelete_eq.trans hauto⟩
  · have hgoes : ref.owner = .temp ↔ Owner.table t ≠ .temp := by simp [howner]
    obtain ⟨u, w₁, v', w₂, hlink, hunlink, hu, hpasses, hpasses', hrestored⟩ :=
      handTo_back h hgoes hfree
    have htable := hrestored.table?_eq
    rw [howner] at hunlink hpasses' hstate hauto htable
    exact ⟨u, w₁, v', w₂, hlink, hunlink, hu, hpasses, hpasses', hrestored, htable,
      hrestored.state_eq.trans hstate, hrestored.isAutoDelete_eq.trans hauto⟩

end Restoring

/-- A tree serves an object that still has its flat name, and one of its own that nobody owns yet. -/
theorem relink_restores_flat :
    let flat : ValueFile := ⟨⟨1⟩, .table ⟨3⟩, false, .flat, 0⟩
    let fresh : ValueFile := ⟨⟨2⟩, .temp, false, .sharded, 1⟩
    let old := sampleTree.naming.path .flat (.table ⟨3⟩) ⟨1⟩
    let new := sampleTree.naming.path .sharded .temp ⟨2⟩
    let w : World MemoryStore := {
      store := ((default : MemoryStore).put old [7]).put new [8]
      handles := [.new old (.table ⟨3⟩), .new new .temp] }
    let v : Value := ⟨.binary, 1, .file flat, none⟩
    let u : Value := ⟨.binary, 1, .file fresh, none⟩
    v.InPlace sampleTree flat w ∧ u.InPlace sampleTree fresh w ∧
    fileAt? w.store (sampleTree.naming.path .flat .temp ⟨1⟩).components = none ∧
    fileAt? w.store (sampleTree.naming.path .sharded (.table ⟨3⟩) ⟨2⟩).components = none ∧
    (∃ v₁ w₁ v₂ w₂, v.unlink sampleTree w = .ok v₁ w₁ ∧ v₁.link sampleTree ⟨3⟩ w₁ = .ok v₂ w₂ ∧
      Restored v flat w v₂ w₂) ∧
    ∃ u₁ w₁ u₂ w₂, u.link sampleTree ⟨3⟩ w = .ok u₁ w₁ ∧ u₁.unlink sampleTree w₁ = .ok u₂ w₂ ∧
      Restored u fresh w u₂ w₂ := by
  intro flat fresh old new w v u
  have hv : v.InPlace sampleTree flat w := ⟨rfl, by decide, rfl, rfl, rfl, by decide +kernel⟩
  have hu : u.InPlace sampleTree fresh w := ⟨rfl, by decide, rfl, rfl, rfl, by decide +kernel⟩
  have hfree : fileAt? w.store (sampleTree.naming.path .flat .temp ⟨1⟩).components = none := by
    decide +kernel
  have hfree' : fileAt? w.store (sampleTree.naming.path .sharded (.table ⟨3⟩) ⟨2⟩).components =
      none := by
    decide +kernel
  obtain ⟨v₁, w₁, v₂, w₂, hunlink, hlink, -, -, -, hrestored, -⟩ :=
    (relink_restores hv).1 ⟨3⟩ rfl hfree
  obtain ⟨u₁, w₃, u₂, w₄, hlink', hunlink', -, -, -, hrestored', -⟩ :=
    (relink_restores hu).2 ⟨3⟩ rfl hfree'
  exact ⟨hv, hu, hfree, hfree', ⟨v₁, w₁, v₂, w₂, hunlink, hlink, hrestored⟩,
    u₁, w₃, u₂, w₄, hlink', hunlink', hrestored'⟩

end Value

end LargeObjects
