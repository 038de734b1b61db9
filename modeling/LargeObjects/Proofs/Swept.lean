import Mathlib
import LargeObjects.Value.Content
import LargeObjects.Proofs.Deeds

/-! Values whose file has been swept away. A sweep goes by names and retires no handle, so such a value
is lost for as long as no other value comes to a file of the same name, and no longer. -/
namespace LargeObjects

open ReliableStore FallibleStore Step

namespace FallibleStore

variable {σ : Type} [FileStore σ] [FallibleStore σ] {s s' : σ} {place : List Component}

theorem Loses.none (h : Loses s s') (hnone : fileAt? (below s) place = none) :
    fileAt? (below s') place = none := by
  rcases h place with hgone | hsame
  · exact hgone
  · rwa [hsame]

/-- Where a new file is deleted again, none is left. -/
theorem none_after_discard (hcleans : Cleans s) {path : Path} (hnear : Near [path.components] s s')
    (hnone : fileAt? (below s) place = none) :
    fileAt? (below (after (FileStore.delete path) s')) place = none := by
  by_cases hplace : place = path.components
  · rw [hplace] at hnone ⊢
    exact hcleans.gone hnear.later hnone
  · have hother : place ∉ [path.components] := fun h => hplace (List.mem_singleton.1 h)
    rw [← hnone, ← hnear.elsewhere place hother]
    exact FallibleStore.elsewhere (.delete path) s' hother

/-- Renaming brings a file to its goal only, and takes away the one at its source. -/
theorem none_after_rename {source goal : Path} (h : FileStore.rename source goal s = .ok () s')
    (hgoal : goal.components ≠ place)
    (hnone : place ≠ source.components → fileAt? (below s) place = none) :
    fileAt? (below s') place = none := by
  by_cases hsource : place = source.components
  · cases hcontent : fileAt? (below s) source.components with
    | some content =>
      obtain ⟨t, hrun, -, hleft, -⟩ := ReliableStore.rename_ok goal hcontent
      rw [FallibleStore.rename_ok h] at hrun
      cases hrun
      rw [hsource] at hgoal ⊢
      exact hleft hgoal.symm
    | none =>
      rcases FallibleStore.rename_files source goal s with hsame | ⟨hthere, -⟩
      · rw [after_ok h] at hsame
        rw [hsame, hsource, hcontent]
      · rw [hcontent] at hthere
        cases hthere
  · have helse := FallibleStore.elsewhere (.rename source goal) s (q := place) fun hmem => by
      rcases List.mem_cons.1 hmem with hmem | hmem
      · exact hsource hmem
      · exact hgoal (List.mem_singleton.1 hmem).symm
    rw [show Request.run (.rename source goal) s = s' from after_ok h, hnone hsource] at helse
    exact helse

end FallibleStore

namespace Value

variable {σ : Type}

def SettlesAt (place : List Component) (w w' : World σ) (v : Value) : Prop :=
  ∃ ref, v.content = .file ref ∧ ¬w.Knows ref.handle ∧ (w'.handle ref.handle).path.components = place

variable {v : Value} {w w' : World σ} {place : List Component} {ref : ValueFile}

theorem ne_of_not_settlesAt {h : Handle} (hsettles : ¬v.SettlesAt place w w')
    (hcontent : v.content = .file ref) (hnew : ¬w.Knows ref.handle)
    (hhandle : w'.handle ref.handle = h) : h.path.components ≠ place :=
  fun hpath => hsettles ⟨ref, hcontent, hnew, by rw [hhandle, hpath]⟩

variable [FileStore σ] [FallibleStore σ] {db : Database} {needs : Prop} {owner : Owner}
  {r : EStateM.Result ObjectError (World σ) Value}

def Vacates (place : List Component) (w : World σ) : EStateM.Result ObjectError (World σ) Value → Prop
  | .ok v w' => ¬v.SettlesAt place w w' → fileAt? w'.below.store place = none
  | .error _ w' => fileAt? w'.below.store place = none

theorem Creates.vacates (h : Creates db needs owner w r) (hmild : Mild w.store)
    (hcleans : needs → Cleans w.store) (hnone : fileAt? w.below.store place = none) :
    Vacates place w r := by
  cases h with
  | looked hlooks => exact hlooks.looked.loses.none hnone
  | plain hlooks _ => exact fun _ => hlooks.looked.loses.none hnone
  | uncreated _ hfinds hcreate =>
    have hlooked := hfinds.looks.looked
    have hfiles := (hmild.later hlooked.later).create_files hcreate
    exact (hfiles.file_eq place).trans (hlooked.loses.none hnone)
  | made _ hfinds hnear hcontent =>
    intro hsettles
    have hpath := ne_of_not_settlesAt hsettles hcontent (Nat.lt_irrefl _)
      (World.handle_append_new (by rw [hfinds.looks.handles_eq]))
    have hother := hnear.elsewhere place fun hmem => hpath (List.mem_singleton.1 hmem).symm
    exact hother.trans (hfinds.looks.looked.loses.none hnone)
  | abandoned hneeds hfinds hnear =>
    have hlooked := hfinds.looks.looked
    exact none_after_discard (hcleans hneeds) ((hlooked.near _).trans hnear) hnone

theorem Relinks.vacates (h : Relinks db needs v w r) (hmild : Mild w.store)
    (hcleans : needs → Cleans w.store) (hnone : fileAt? w.below.store place = none) :
    Vacates place w r := by
  cases h with
  | creates h => exact h.vacates hmild hcleans hnone
  | shared => exact fun _ => hnone
  | moved hcontent hlive hrename =>
    intro hsettles
    -- The value comes to the goal, which is therefore not the place.
    have hpath := ne_of_not_settlesAt hsettles rfl (Nat.lt_irrefl _)
      (World.handle_modify_append_new rfl)
    exact none_after_rename hrename hpath fun _ => hnone
  | unmoved _ hrename => exact ((hmild.rename_files hrename).file_eq place).trans hnone

theorem Unlinks.vacates (h : Unlinks db v w r) (hmild : Mild w.store)
    (hnone : fileAt? w.below.store place = none) : Vacates place w r := by
  cases h with
  | relinks h => exact h.vacates hmild False.elim hnone
  | undeleted hdelete => exact ((hmild.delete_files hdelete).file_eq place).trans hnone
  | @deleted ref found s r hcontent hlive howner hdelete h =>
    have hdeleted := Near.run (.delete _) (after_ok hdelete)
    have hgone := (loses_delete (after_ok hdelete)).none hnone
    have hrest := h.vacates (hmild.later hdeleted.later) False.elim hgone
    cases r <;> exact hrest

theorem Spills.vacates (h : Spills db needs v w r) (hmild : Mild w.store)
    (hcleans : needs → Cleans w.store) (hnone : fileAt? w.below.store place = none) :
    Vacates place w r := by
  cases h with
  | relinks h => exact h.vacates hmild hcleans hnone
  | @moved u id table compressed old w' s s' hneeds hfinds hnear hrename hcontent =>
    intro hsettles
    let last : Handle := .new (db.naming.path db.layout (.table table) id) (.table table)
    have hlast : (w'.handles ++ [old, last]).getD (w.handles.length + 1) .absent = last := by
      rw [hfinds.looks.handles_eq, List.getD_append_right _ _ _ _ (Nat.le_add_right _ 1),
        Nat.add_sub_cancel_left]
      rfl
    have hpath := ne_of_not_settlesAt hsettles hcontent (Nat.not_lt.2 (Nat.le_add_right _ 1)) hlast
    -- There may be a file at the place in between: the temporary one, which is moved on.
    refine none_after_rename hrename hpath fun hsource => ?_
    rw [hnear.elsewhere place fun hmem => hsource (List.mem_singleton.1 hmem)]
    exact hfinds.looks.looked.loses.none hnone
  | @unmoved _ _ id table old w' s s' hneeds hfinds hnear hrename =>
    have hlooked := hfinds.looks.looked
    have hfiles := (hmild.later (hlooked.later.trans hnear.later)).rename_files hrename
    exact none_after_discard (hcleans hneeds)
      (((hlooked.near _).trans hnear).trans (hfiles.mono (List.nil_subset _))) hnone

/-- Closing such a value changes no file. -/
theorem close_files (hcontent : v.content = .file ref)
    (hnone : fileAt? w.below.store (w.handle ref.handle).path.components = none)
    (q : List Component) :
    fileAt? (after v.close w).below.store q = fileAt? w.below.store q := by
  -- What a deletion can change is at the path of the handle, and there is no file.
  have hdelete : ∀ {s}, after (FileStore.delete (w.handle ref.handle).path) w.store = s →
      fileAt? (FallibleStore.below s) q = fileAt? (FallibleStore.below w.store) q := by
    intro s hrun
    rcases loses_delete hrun q with hgone | hsame
    · by_cases hplace : q = (w.handle ref.handle).path.components
      · rw [hgone, hplace]
        exact hnone.symm
      · exact (Near.run (.delete _) hrun).elsewhere q fun h => hplace (List.mem_singleton.1 h)
    · exact hsame
  rcases close_cases v w with hrun | ⟨ref', hcontent', -, ⟨e, s, hrun, hclose⟩ | ⟨found, s, hrun, hclose⟩⟩
  · rw [after_ok hrun]
  · rw [hcontent] at hcontent'
    cases hcontent'
    rw [after_error hclose]
    exact hdelete (after_error hrun)
  · rw [hcontent] at hcontent'
    cases hcontent'
    rw [after_ok hclose]
    exact hdelete (after_ok hrun)

variable [Codec]

/-- A value whose file is gone cannot be read. -/
theorem read_error (hcontent : v.content = .file ref)
    (hnone : fileAt? w.below.store (w.handle ref.handle).path.components = none) :
    ∃ e w', v.reader w = .error e w' ∧ v.readBytes w = .error e w' ∧ v.readText w = .error e w' ∧
      ((w.handle ref.handle).retired = false → ∃ cause, e = .storage cause) := by
  have hread : ∀ {e w'}, v.reader w = .error e w' →
      v.readBytes w = .error e w' ∧ v.readText w = .error e w' := by
    intro e w' hrun
    have hbytes : v.readBytes w = .error e w' := by
      unfold readBytes
      simp only [hcontent]
      exact bind_error hrun
    exact ⟨hbytes, bind_error hbytes⟩
  have hrun : v.reader w = (do
      let r ← World.onStore (FileStore.openRead (← World.livePath ref.handle))
      World.onStore (ContentReader.start r ref.compressed) : Action σ _) w := by
    unfold reader
    simp only [hcontent]
  cases hretired : (w.handle ref.handle).retired with
  | true =>
    have herror := hrun.trans (bind_error (World.livePath_error hretired))
    exact ⟨_, _, herror, (hread herror).1, (hread herror).2, nofun⟩
  | false =>
    cases hopen : FileStore.openRead (w.handle ref.handle).path w.store with
    | ok r s =>
      obtain ⟨-, hthere⟩ := FallibleStore.openRead_ok hopen
      rw [show fileAt? (FallibleStore.below w.store) _ = none from hnone] at hthere
      cases hthere
    | error cause s =>
      have herror := hrun.trans
        ((bind_ok (World.livePath_ok hretired)).trans (bind_error (World.onStore_error hopen)))
      exact ⟨_, _, herror, (hread herror).1, (hread herror).2, fun _ => ⟨cause, rfl⟩⟩

end Value

namespace Session

variable {σ : Type} [FileStore σ] [FallibleStore σ] {db : Database} {s s' t : Session σ}
  {place : List Component}

theorem settle_none {origin : Bytes} {r : EStateM.Result ObjectError (World σ) Value}
    (h : Value.Vacates place s.world r)
    (hsettles : ¬∃ h, (s.settle origin r).made = s.made ++ [h] ∧
      h.value.SettlesAt place s.world (s.settle origin r).world) :
    fileAt? (s.settle origin r).world.below.store place = none := by
  cases r with
  | ok v w' => exact h fun hat => hsettles ⟨⟨v, origin⟩, rfl, hat⟩
  | error e w' => exact h

theorem Ends.none {needs : Prop} (h : Ends db needs s s') (hmild : Mild s.world.store)
    (hcleans : Cleans s.world.store) (hnone : fileAt? s.world.below.store place = none)
    (hsettles : ¬∃ h, s'.made = s.made ++ [h] ∧ h.value.SettlesAt place s.world s'.world) :
    fileAt? s'.world.below.store place = none := by
  cases h with
  | inline | keeps => exact hnone
  | creates _ h => exact settle_none (h.vacates hmild (fun _ => hcleans) hnone) hsettles
  | relinks _ _ h => exact settle_none (h.vacates hmild (fun _ => hcleans) hnone) hsettles
  | unlinks _ _ h => exact settle_none (h.vacates hmild hnone) hsettles
  | spills _ _ h => exact settle_none (h.vacates hmild (fun _ => hcleans) hnone) hsettles
  | deletes => exact (loses_delete rfl).none hnone

variable [Codec]

def Settles (db : Database) (place : List Component) (s : Session σ) (e : Event) : Prop :=
  ∃ h, (s.step db e).made = s.made ++ [h] ∧ h.value.SettlesAt place s.world (s.step db e).world

def Spares (db : Database) (place : List Component) (s : Session σ) (d : Deed) : Prop :=
  ∀ e, d = .work e → Mild s.world.store ∧ Cleans s.world.store ∧ ¬s.Settles db place e

theorem perform_none {d : Deed} (hspares : Spares db place s d)
    (hnone : fileAt? s.world.below.store place = none) :
    fileAt? (s.perform db d).world.below.store place = none := by
  cases d with
  | work e =>
    obtain ⟨hmild, hcleans, hsettles⟩ := hspares e rfl
    exact (step_ends db s e).none hmild hcleans hnone hsettles
  | attach kind table id precision compressed =>
    simp only [perform, acquire_eq_settle]
    by_cases hid : id.word = 0
    · rw [Value.attach_zero db kind table precision compressed s.world hid]
      exact hnone
    · rw [Value.attach_ok db kind table precision compressed s.world hid]
      exact hnone
  | sweep table =>
    obtain ⟨t, hafter, hloses⟩ := db.loses_removeOwned (.table table) s.world
    rw [perform, Database.removeTable, hafter]
    exact hloses.none hnone
  | purge =>
    obtain ⟨t, hafter, hloses⟩ := db.loses_removeOwned .temp s.world
    rw [perform, Database.purgeTemp, hafter]
    exact hloses.none hnone

theorem Goes.stay {may : Session σ → Deed → Prop} (h : Goes db may s t) :
    Handle.Stay s.world.handles t.world.handles := by
  induction h with
  | start => exact Handle.Stay.refl _
  | step d _ _ ih => exact ih.trans (perform_stay db _ d)

theorem Goes.none (h : Goes db (Spares db place) s t)
    (hnone : fileAt? s.world.below.store place = none) :
    fileAt? t.world.below.store place = none := by
  induction h with
  | start => exact hnone
  | step d _ hspares ih => exact perform_none hspares ih

/-- Once a sweep has left no file for a value, every way to read it, or another holder of the same
file, fails from then on, and closing it changes no file, as long as no value comes to a file of the
same name. -/
theorem swept_value_unreadable {table : TableId} {v u : Value} {ref : ValueFile}
    (hcontent : v.content = .file ref) (hknown : s.world.Knows ref.handle)
    (hswept : fileAt? (s.perform db (.sweep table)).world.below.store
      (s.world.handle ref.handle).path.components = none)
    (hgoes : Goes db (Spares db (s.world.handle ref.handle).path.components)
      (s.perform db (.sweep table)) t)
    (hsame : u.content = v.content) :
    (∃ e w, u.reader t.world = .error e w ∧ u.readBytes t.world = .error e w ∧
      u.readText t.world = .error e w ∧
      ((t.world.handle ref.handle).retired = false → ∃ cause, e = .storage cause)) ∧
    ∀ q, fileAt? (after u.close t.world).below.store q = fileAt? t.world.below.store q := by
  have hstay := (perform_stay db s (.sweep table)).trans hgoes.stay
  have hnone : fileAt? t.world.below.store (t.world.handle ref.handle).path.components = none := by
    rw [(World.handle_path_of_stay hstay hknown).2]
    exact hgoes.none hswept
  rw [hcontent] at hsame
  exact ⟨Value.read_error hsame hnone, Value.close_files hsame hnone⟩

end Session

namespace Session

def sweptSession : Session MemoryStore :=
  (linkedSession.perform smallDatabase (.sweep ⟨6⟩)).step smallDatabase
    (.create .binary threeOthers none)

/-- The table is swept and another value is made, and what the table had is still not to be read. -/
theorem swept_value_unreadable_afterCreate : ∃ h ∈ linkedSession.held,
    h.value.readBytes linkedSession.world = .ok [1, 2, 3] linkedSession.world ∧
    ∃ e w, h.value.readBytes sweptSession.world = .error e w := by
  obtain ⟨h, ref, hmem, hcontent, hknown, hread, hpath⟩ : ∃ h ref, h ∈ linkedSession.held ∧
      h.value.content = .file ref ∧ linkedSession.world.Knows ref.handle ∧
      h.value.readBytes linkedSession.world = .ok [1, 2, 3] linkedSession.world ∧
      linkedSession.world.handle ref.handle =
        .new (smallDatabase.naming.path .sharded (.table ⟨6⟩) ⟨1⟩) (.table ⟨6⟩) :=
    ⟨_, _, List.mem_cons_of_mem _ List.mem_cons_self, rfl, Nat.lt_succ_self 1, rfl, rfl⟩
  have hswept : fileAt? (linkedSession.perform smallDatabase (.sweep ⟨6⟩)).world.below.store
      (linkedSession.world.handle ref.handle).path.components = none := by
    rw [hpath]
    rfl
  have hspares : Spares smallDatabase (linkedSession.world.handle ref.handle).path.components
      (linkedSession.perform smallDatabase (.sweep ⟨6⟩))
      (.work (.create .binary threeOthers none)) := by
    rintro e ⟨⟩
    refine ⟨mild_memory _, cleans_memory _, ?_⟩
    rintro ⟨h', hmade, ref', hcontent', -, hplace⟩
    cases List.append_cancel_left hmade
    cases hcontent'
    rw [hpath] at hplace
    exact absurd hplace (by decide)
  obtain ⟨⟨e, w, -, hbytes, -⟩, -⟩ :=
    swept_value_unreadable hcontent hknown hswept (.step _ .start hspares) rfl
  exact ⟨h, hmem, hread, e, w, hbytes⟩

/-- When the other value is given to the same table it comes to the file of that name, and the first
value, which was lost, reads what the other holds, and closing it deletes that. -/
theorem swept_value_reads_again :
    ∃ h ∈ linkedSession.held, ∃ other ∈ (sweptSession.step smallDatabase (.link 2 ⟨6⟩)).held,
      ∃ e w w' w₁ w₂ w₃ w₄,
        h.value.readBytes linkedSession.world = .ok [1, 2, 3] w ∧
        h.value.readBytes sweptSession.world = .error e w' ∧
        h.value.readBytes (sweptSession.step smallDatabase (.link 2 ⟨6⟩)).world = .ok [4, 5, 6] w₁ ∧
        other.value.readBytes (sweptSession.step smallDatabase (.link 2 ⟨6⟩)).world =
          .ok [4, 5, 6] w₂ ∧
        h.value.close (sweptSession.step smallDatabase (.link 2 ⟨6⟩)).world = .ok () w₃ ∧
        other.value.readBytes w₃ = .error e w₄ :=
  ⟨_, List.mem_cons_of_mem _ List.mem_cons_self, _,
    List.mem_cons_of_mem _ (List.mem_cons_of_mem _ (List.mem_cons_of_mem _ List.mem_cons_self)),
    _, _, _, _, _, _, _, rfl, rfl, rfl, rfl, rfl, rfl⟩

end Session

end LargeObjects
