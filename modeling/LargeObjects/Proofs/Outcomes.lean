import Mathlib
import LargeObjects.Proofs.Mirroring
import LargeObjects.Proofs.Operations

/-! The ways in which operations on values end over a store whose calls may fail: what has been
called, and what has become of the handles. -/
namespace LargeObjects

open FallibleStore Step

variable {σ : Type}

namespace Value

theorem clone_ok (v : Value) (w : World σ) : ∃ w', v.clone w = .ok v w' := by
  cases hcontent : v.content with
  | inline data stamp => exact ⟨w, clone_inline (by rw [file?, hcontent])⟩
  | file ref => exact ⟨_, clone_file hcontent⟩

/-- A value without a file is stamped, whatever the store. -/
theorem handOver_inline (db : Database) {first : Value} (table : TableId) (h : first.file? = none) :
    ∃ linked : Value, linked.file? = none ∧ ∀ {σ : Type} [FileStore σ] (w : World σ),
      handOver db first table w = .ok linked w := by
  cases hcontent : first.content with
  | file ref =>
    rw [file?, hcontent] at h
    cases h
  | inline data stamp =>
    refine ⟨if stamp = some table then first else { first with content := .inline data (some table) },
      ?_, fun w => ?_⟩
    · split
      · exact h
      · rfl
    · simp only [handOver, link_inline hcontent, drop_inline h]

end Value

variable [FileStore σ]

namespace World

variable {w : World σ} {k : HandleId}

theorem discard_eq (path : Path) (w : World σ) :
    discard path w = .ok () { w with store := after (FileStore.delete path) w.store } := by
  unfold discard after
  cases FileStore.delete path w.store <;> rfl

/-- The last holder of an armed handle has the file deleted, whether or not that works. -/
theorem release_last (hknown : w.Knows k) (h : (w.handle k).Discards) :
    release k w = .ok () { w with
      store := after (FileStore.delete (w.handle k).path) w.store
      handles := w.handles.modify k Handle.letGo } := by
  unfold Handle.Discards at h
  rw [release_eq hknown, if_pos h, discard_eq]

/-- So has the only holder of a new one. -/
theorem release_only (w : World σ) (s : σ) (path : Path) :
    release w.handles.length
        { w with store := s, handles := w.handles ++ [{ path, armed := true }] } =
      .ok () { w with
        store := after (FileStore.delete path) s
        handles := w.handles ++ [{ path, armed := true, holders := 0 }] } := by
  let fresh : Handle := { path, armed := true }
  let w' : World σ := { w with store := s, handles := w.handles ++ [fresh] }
  have hnew : w'.handle w.handles.length = fresh := handle_append_new rfl
  have hknown : w'.Knows w.handles.length := by
    show w.handles.length < (w.handles ++ [fresh]).length
    rw [List.length_append, List.length_singleton]
    exact Nat.lt_succ_self _
  have hlast : (w'.handle w.handles.length).Discards := by
    rw [hnew]
    exact ⟨rfl, rfl⟩
  refine (release_last hknown hlast).trans ?_
  rw [hnew]
  show EStateM.Result.ok () { w with
    store := after (FileStore.delete path) s
    handles := (w.handles ++ [fresh]).modify w.handles.length Handle.letGo } = _
  rw [modify_append_new]
  rfl

end World

namespace Value

variable {db : Database} {w : World σ} {first : Value} {id : ObjectId} {table : TableId}
  {compressed : Bool} {s : σ}

/-- Once there is an id, it is the copy that decides. -/
theorem copyTo_found {ref : ValueFile} {id : ObjectId} {w₁ : World σ} (v : Value) (table : TableId)
    (hlive : (w.handle ref.handle).retired = false) (halloc : db.allocate w = .ok id w₁) :
    copyTo db v ref table w =
      match FileStore.copy (w.handle ref.handle).path
        (db.naming.path db.layout (.table table) id) w₁.store with
      | .error cause s => .error (.storage cause) { w₁ with
          store := after (FileStore.delete (db.naming.path db.layout (.table table) id)) s }
      | .ok _ s =>
        .ok (v.withFile { ref with
            id, owner := .table table, layout := db.layout, handle := w₁.handles.length })
          { w₁ with
            store := s
            handles := w₁.handles ++
              [.new (db.naming.path db.layout (.table table) id) (.table table)] } := by
  refine (bind_ok (World.livePath_ok hlive)).trans ((bind_ok halloc).trans ?_)
  cases hcopy : FileStore.copy (w.handle ref.handle).path
      (db.naming.path db.layout (.table table) id) w₁.store with
  | error cause s => simp only [World.onStore_error hcopy, World.discard_eq]
  | ok count s =>
    simp only [World.onStore_ok hcopy]
    rfl

/-- Closing does nothing, or deletes the file and retires the handle, or fails to delete. -/
theorem close_cases (v : Value) (w : World σ) : v.close w = .ok () w ∨
    ∃ ref, v.content = .file ref ∧ (w.handle ref.handle).retired = false ∧
      ((∃ e s, FileStore.delete (w.handle ref.handle).path w.store = .error e s ∧
          v.close w = .error (.storage e) { w with store := s }) ∨
        ∃ found s, FileStore.delete (w.handle ref.handle).path w.store = .ok found s ∧
          v.close w = .ok () { w with
            store := s
            handles := w.handles.modify ref.handle Handle.retire }) := by
  cases hcontent : v.content with
  | inline data stamp =>
    exact Or.inl (close_inline hcontent)
  | file ref =>
    cases hlive : (w.handle ref.handle).retired with
    | true => exact Or.inl (close_retired hcontent hlive)
    | false =>
      refine Or.inr ⟨ref, rfl, hlive, ?_⟩
      rw [close_file hcontent hlive]
      cases hdelete : FileStore.delete (w.handle ref.handle).path w.store with
      | error e s => exact Or.inl ⟨e, s, rfl, bind_error (World.onStore_error hdelete)⟩
      | ok found s => exact Or.inr ⟨found, s, rfl, bind_ok (World.onStore_ok hdelete)⟩

/-- The world after a temporary file was made for an object of the database's own layout, and what
linking it does there. -/
theorem link_fresh (hcontent : first.content = .file
      { id, owner := .temp, compressed, layout := db.layout, handle := w.handles.length })
    (table : TableId) (s : σ) :
    let temp := db.naming.path db.layout .temp id
    let goal := db.naming.path db.layout (.table table) id
    first.link db table { w with store := s, handles := w.handles ++ [.new temp .temp] } = (do
      World.onStore (FileStore.rename temp goal)
      World.retire w.handles.length
      return first.withFile
        { id, owner := .table table, compressed, layout := db.layout,
          handle := ← World.newHandle goal false } : Action σ Value)
      { w with store := s, handles := w.handles ++ [.new temp .temp] } := by
  intro temp goal
  have hnew : ({ w with store := s, handles := w.handles ++ [.new temp .temp] } : World σ).handle
      w.handles.length = .new temp .temp := World.handle_append_new rfl
  have hlive : (({ w with store := s, handles := w.handles ++ [.new temp .temp] } :
      World σ).handle w.handles.length).retired = false := by
    rw [hnew]
    rfl
  have hpath := World.livePath_ok hlive
  rw [hnew] at hpath
  rw [link_served hcontent table hlive db.serves_own]
  exact bind_ok hpath

theorem link_fresh_ok (hcontent : first.content = .file
      { id, owner := .temp, compressed, layout := db.layout, handle := w.handles.length }) {s' : σ}
    (hrename : FileStore.rename (db.naming.path db.layout .temp id)
      (db.naming.path db.layout (.table table) id) s = .ok () s') :
    let temp := db.naming.path db.layout .temp id
    let goal := db.naming.path db.layout (.table table) id
    first.link db table { w with store := s, handles := w.handles ++ [.new temp .temp] } =
      .ok (first.withFile
        { id, owner := .table table, compressed, layout := db.layout,
          handle := w.handles.length + 1 }) { w with
        store := s'
        handles := w.handles ++ [(Handle.new temp .temp).retire, .new goal (.table table)] } := by
  intro temp goal
  rw [link_fresh hcontent, relocate_renamed w.handles.length false (fun handle => first.withFile
    { id, owner := .table table, compressed, layout := db.layout, handle }) hrename]
  dsimp only
  rw [World.modify_append_new, List.length_append, List.append_assoc]
  rfl

theorem handOver_ok (hcontent : first.content = .file
      { id, owner := .temp, compressed, layout := db.layout, handle := w.handles.length }) {s' : σ}
    (hrename : FileStore.rename (db.naming.path db.layout .temp id)
      (db.naming.path db.layout (.table table) id) s = .ok () s') :
    handOver db first table { w with
        store := s
        handles := w.handles ++ [.new (db.naming.path db.layout .temp id) .temp] } =
      .ok (first.withFile
        { id, owner := .table table, compressed, layout := db.layout,
          handle := w.handles.length + 1 }) { w with
        store := s'
        handles := w.handles ++
          [(Handle.new (db.naming.path db.layout .temp id) .temp).retire.letGo,
            .new (db.naming.path db.layout (.table table) id) (.table table)] } := by
  let old := (Handle.new (db.naming.path db.layout .temp id) .temp).retire
  let new := Handle.new (db.naming.path db.layout (.table table) id) (.table table)
  let linked : World σ := { w with store := s', handles := w.handles ++ [old, new] }
  have hold : linked.handle w.handles.length = old := by
    show (w.handles ++ old :: [new]).getD _ _ = _
    rw [List.getD_append_right _ _ _ _ (Nat.le_refl _), Nat.sub_self]
    rfl
  have hknown : linked.Knows w.handles.length := by
    show w.handles.length < (w.handles ++ old :: [new]).length
    rw [List.length_append]
    exact Nat.lt_add_of_pos_right (Nat.succ_pos _)
  -- The handle is retired, so letting go of it touches no file.
  have hkeeps : ¬(linked.handle w.handles.length).Discards := by
    rw [hold]
    rintro ⟨-, hauto⟩
    cases (Handle.isAutoDelete_iff.1 hauto).2
  have hdrop := (drop_file hcontent).trans (World.release_keeps hknown hkeeps)
  simp only [handOver, link_fresh_ok hcontent hrename]
  rw [show first.drop { w with store := s', handles := w.handles ++ [old, new] } = _ from hdrop]
  show EStateM.Result.ok _ { w with
    store := s'
    handles := (w.handles ++ old :: [new]).modify w.handles.length Handle.letGo } = _
  rw [World.modify_append_cons]

theorem handOver_error (hcontent : first.content = .file
      { id, owner := .temp, compressed, layout := db.layout, handle := w.handles.length })
    {cause : StoreError} {s' : σ}
    (hrename : FileStore.rename (db.naming.path db.layout .temp id)
      (db.naming.path db.layout (.table table) id) s = .error cause s') :
    handOver db first table { w with
        store := s
        handles := w.handles ++ [.new (db.naming.path db.layout .temp id) .temp] } =
      .error (.storage cause) { w with
        store := after (FileStore.delete (db.naming.path db.layout .temp id)) s'
        handles := w.handles ++
          [{ path := db.naming.path db.layout .temp id, armed := true, holders := 0 }] } := by
  let temp := db.naming.path db.layout .temp id
  have hlink : first.link db table
      { w with store := s, handles := w.handles ++ [.new temp .temp] } = .error (.storage cause)
        { w with store := s', handles := w.handles ++ [.new temp .temp] } := by
    rw [link_fresh hcontent]
    exact bind_error (World.onStore_error hrename)
  have hdrop := (drop_file hcontent).trans (World.release_only w s' temp)
  simp only [handOver]
  rw [show first.link db table { w with
    store := s
    handles := w.handles ++ [.new (db.naming.path db.layout .temp id) .temp] } = _ from hlink]
  dsimp only
  rw [show first.drop { w with store := s', handles := w.handles ++ [.new temp .temp] } = _ from
    hdrop]

end Value

variable [FallibleStore σ]

structure Database.Finds (db : Database) (w : World σ) (id : ObjectId) (w' : World σ) : Prop where
  looks : w.Looks w'
  found : db.allocate w.below = .ok id w'.below

theorem Database.Finds.congr {db : Database} {w w₁ w' : World σ} {id : ObjectId}
    (hlooks : w.Looks w₁) (hbelow : w₁.below = w.below) (h : db.Finds w₁ id w') : db.Finds w id w' :=
  ⟨hlooks.trans h.looks, hbelow ▸ h.found⟩

namespace Value

variable {db : Database} {needs : Prop} {owner : Owner} {v : Value} {w : World σ}

inductive Creates (db : Database) (needs : Prop) (owner : Owner) (w : World σ) :
    EStateM.Result ObjectError (World σ) Value → Prop
  | looked {e : ObjectError} {w' : World σ} : w.Looks w' → Creates db needs owner w (.error e w')
  | plain {v : Value} {w' : World σ} :
    w.Looks w' → v.file? = none → Creates db needs owner w (.ok v w')
  | uncreated {e : ObjectError} {cause : StoreError} {id : ObjectId} {w' : World σ} {s : σ} :
    needs → db.Finds w id w' →
    FileStore.create (db.naming.path db.layout owner id) w'.store = .error cause s →
    Creates db needs owner w (.error e { w' with store := s })
  | made {v : Value} {id : ObjectId} {compressed : Bool} {w' : World σ} {s : σ} :
    needs → db.Finds w id w' →
    Near [(db.naming.path db.layout owner id).components] w'.store s →
    v.content = .file
      { id, owner, compressed, layout := db.layout, handle := w.handles.length } →
    Creates db needs owner w (.ok v { w' with
      store := s
      handles := w'.handles ++ [.new (db.naming.path db.layout owner id) owner] })
  | abandoned {e : ObjectError} {id : ObjectId} {more : List Handle} {w' : World σ} {s : σ} :
    needs → db.Finds w id w' →
    Near [(db.naming.path db.layout owner id).components] w'.store s →
    Creates db needs owner w (.error e { w' with
      store := after (FileStore.delete (db.naming.path db.layout owner id)) s
      handles := w'.handles ++ more })

inductive Relinks (db : Database) (needs : Prop) (v : Value) (w : World σ) :
    EStateM.Result ObjectError (World σ) Value → Prop
  | creates {owner : Owner} {r : EStateM.Result ObjectError (World σ) Value} :
    Creates db needs owner w r → Relinks db needs v w r
  | shared {ref : ValueFile} : v.content = .file ref →
    Relinks db needs v w
      (.ok v { w with handles := w.handles.modify ref.handle Handle.takeHold })
  | moved {ref : ValueFile} {owner : Owner} {s : σ} :
    v.content = .file ref → (w.handle ref.handle).retired = false →
    FileStore.rename (w.handle ref.handle).path (db.naming.path ref.layout owner ref.id) w.store =
      .ok () s →
    Relinks db needs v w (.ok (v.withFile { ref with owner, handle := w.handles.length }) { w with
      store := s
      handles := w.handles.modify ref.handle Handle.retire ++
        [.new (db.naming.path ref.layout owner ref.id) owner] })
  | unmoved {ref : ValueFile} {owner : Owner} {e : ObjectError} {cause : StoreError} {s : σ} :
    v.content = .file ref →
    FileStore.rename (w.handle ref.handle).path (db.naming.path ref.layout owner ref.id) w.store =
      .error cause s →
    Relinks db needs v w (.error e { w with store := s })

inductive Unlinks (db : Database) (v : Value) (w : World σ) :
    EStateM.Result ObjectError (World σ) Value → Prop
  | relinks {r : EStateM.Result ObjectError (World σ) Value} :
    Relinks db False v w r → Unlinks db v w r
  | undeleted {e : ObjectError} {cause : StoreError} {path : Path} {s : σ} :
    FileStore.delete path w.store = .error cause s → Unlinks db v w (.error e { w with store := s })
  | deleted {ref : ValueFile} {found : Bool} {s : σ}
    {r : EStateM.Result ObjectError (World σ) Value} :
    v.content = .file ref → (w.handle ref.handle).retired = false → ref.owner ≠ .temp →
    FileStore.delete (db.naming.path ref.layout .temp ref.id) w.store = .ok found s →
    Relinks db False v { w with store := s } r → Unlinks db v w r

inductive Spills (db : Database) (needs : Prop) (v : Value) (w : World σ) :
    EStateM.Result ObjectError (World σ) Value → Prop
  | relinks {r : EStateM.Result ObjectError (World σ) Value} :
    Relinks db needs v w r → Spills db needs v w r
  | moved {u : Value} {id : ObjectId} {table : TableId} {compressed : Bool} {old : Handle}
    {w' : World σ} {s s' : σ} :
    needs → db.Finds w id w' →
    Near [(db.naming.path db.layout .temp id).components] w'.store s →
    FileStore.rename (db.naming.path db.layout .temp id)
      (db.naming.path db.layout (.table table) id) s = .ok () s' →
    u.content = .file
      { id, owner := .table table, compressed, layout := db.layout,
        handle := w.handles.length + 1 } →
    Spills db needs v w (.ok u { w' with
      store := s'
      handles := w'.handles ++
        [old, .new (db.naming.path db.layout (.table table) id) (.table table)] })
  | unmoved {e : ObjectError} {cause : StoreError} {id : ObjectId} {table : TableId} {old : Handle}
    {w' : World σ} {s s' : σ} :
    needs → db.Finds w id w' →
    Near [(db.naming.path db.layout .temp id).components] w'.store s →
    FileStore.rename (db.naming.path db.layout .temp id)
      (db.naming.path db.layout (.table table) id) s = .error cause s' →
    Spills db needs v w (.error e { w' with
      store := after (FileStore.delete (db.naming.path db.layout .temp id)) s'
      handles := w'.handles ++ [old] })

theorem Relinks.looked {e : ObjectError} {w' : World σ} (h : w.Looks w') :
    Relinks db needs v w (.error e w') :=
  .creates (.looked h : Creates db needs .temp w (.error e w'))

theorem Relinks.plain {u : Value} {w' : World σ} (h : w.Looks w') (hfile : u.file? = none) :
    Relinks db needs v w (.ok u w') :=
  .creates (.plain h hfile : Creates db needs .temp w (.ok u w'))

/-- Looking around first makes no difference. -/
theorem Creates.after_looks {w₁ : World σ} {r : EStateM.Result ObjectError (World σ) Value}
    (hlooks : w.Looks w₁) (hbelow : w₁.below = w.below) (h : Creates db needs owner w₁ r) :
    Creates db needs owner w r := by
  cases h with
  | looked h => exact .looked (hlooks.trans h)
  | plain h hfile => exact .plain (hlooks.trans h) hfile
  | uncreated hneeds hfinds hcreate =>
    exact .uncreated hneeds (hfinds.congr hlooks hbelow) hcreate
  | made hneeds hfinds hnear hcontent =>
    rw [hlooks.handles_eq] at hcontent
    exact .made hneeds (hfinds.congr hlooks hbelow) hnear hcontent
  | abandoned hneeds hfinds hnear =>
    exact .abandoned hneeds (hfinds.congr hlooks hbelow) hnear

theorem Creates.mono {needs' : Prop} {r : EStateM.Result ObjectError (World σ) Value}
    (h : Creates db needs owner w r) (himp : needs → needs') : Creates db needs' owner w r := by
  cases h with
  | looked h => exact .looked h
  | plain h hfile => exact .plain h hfile
  | uncreated hneeds hfinds hcreate => exact .uncreated (himp hneeds) hfinds hcreate
  | made hneeds hfinds hnear hcontent => exact .made (himp hneeds) hfinds hnear hcontent
  | abandoned hneeds hfinds hnear => exact .abandoned (himp hneeds) hfinds hnear

theorem Relinks.mono {needs' : Prop} {r : EStateM.Result ObjectError (World σ) Value}
    (h : Relinks db needs v w r) (himp : needs → needs') : Relinks db needs' v w r := by
  cases h with
  | creates h => exact .creates (h.mono himp)
  | shared hcontent => exact .shared hcontent
  | moved hcontent hlive hrename => exact .moved hcontent hlive hrename
  | unmoved hcontent hrename => exact .unmoved hcontent hrename

theorem Spills.mono {needs' : Prop} {r : EStateM.Result ObjectError (World σ) Value}
    (h : Spills db needs v w r) (himp : needs → needs') : Spills db needs' v w r := by
  cases h with
  | relinks h => exact .relinks (h.mono himp)
  | moved hneeds hfinds hnear hrename hcontent =>
    exact .moved (himp hneeds) hfinds hnear hrename hcontent
  | unmoved hneeds hfinds hnear hrename => exact .unmoved (himp hneeds) hfinds hnear hrename

theorem clone_relinks (v : Value) (w : World σ) : Relinks db needs v w (v.clone w) := by
  cases hcontent : v.content with
  | inline data stamp =>
    have hfile : v.file? = none := by rw [file?, hcontent]
    rw [clone_inline hfile]
    exact .plain (.refl w) hfile
  | file ref =>
    rw [clone_file hcontent]
    exact .shared hcontent

theorem copyTo_creates {ref : ValueFile} (hneeds : needs) (v : Value) (table : TableId)
    (hlive : (w.handle ref.handle).retired = false) :
    Creates db needs (.table table) w (copyTo db v ref table w) := by
  cases halloc : db.allocate w with
  | error e w₁ =>
    have hrun : copyTo db v ref table w = .error e w₁ :=
      (bind_ok (World.livePath_ok hlive)).trans (bind_error halloc)
    rw [hrun]
    exact .looked (db.looks_allocate.error halloc)
  | ok id w₁ =>
    obtain ⟨hlooks, hfound⟩ := db.looks_allocate.ok halloc
    have hfinds : db.Finds w id w₁ := ⟨hlooks, hfound⟩
    rw [copyTo_found v table hlive halloc]
    cases hcopy : FileStore.copy (w.handle ref.handle).path
        (db.naming.path db.layout (.table table) id) w₁.store with
    | error cause s =>
      have hnear := Near.run (.copy _ _) (after_error hcopy)
      have habandoned : Creates db needs (.table table) w (.error (.storage cause) { w₁ with
          store := after (FileStore.delete (db.naming.path db.layout (.table table) id)) s
          handles := w₁.handles ++ [] }) := .abandoned hneeds hfinds hnear
      rwa [List.append_nil] at habandoned
    | ok count s =>
      have hnear := Near.run (.copy _ _) (after_ok hcopy)
      have hcontent : (v.withFile { ref with
          id, owner := .table table, layout := db.layout, handle := w₁.handles.length }).content =
          .file { id, owner := .table table, compressed := ref.compressed, layout := db.layout,
                  handle := w.handles.length } := by
        rw [← hlooks.handles_eq]
        rfl
      exact .made hneeds hfinds hnear hcontent

/-- Giving the file its name for another owner ends with the rename when that fails. -/
theorem relocate_relinks {ref : ValueFile} {owner : Owner} {armed : Bool}
    (hcontent : v.content = .file ref) (hlive : (w.handle ref.handle).retired = false)
    (harmed : ∀ path, Handle.new path owner = { path, armed }) :
    Relinks db needs v w ((do
      World.onStore (FileStore.rename (w.handle ref.handle).path
        (db.naming.path ref.layout owner ref.id))
      World.retire ref.handle
      return v.withFile { ref with
        owner
        handle := ← World.newHandle (db.naming.path ref.layout owner ref.id) armed }) w) := by
  cases hrename : FileStore.rename (w.handle ref.handle).path
      (db.naming.path ref.layout owner ref.id) w.store with
  | error cause s =>
    rw [bind_error (World.onStore_error hrename)]
    exact .unmoved hcontent hrename
  | ok _ s =>
    rw [relocate_renamed ref.handle armed
      (fun handle => v.withFile { ref with owner, handle }) hrename, ← harmed]
    exact .moved hcontent hlive hrename

theorem moveTo_relinks {ref : ValueFile} (hcontent : v.content = .file ref) (table : TableId)
    (hlive : (w.handle ref.handle).retired = false) :
    Relinks db needs v w (moveTo db v ref table w) := by
  unfold moveTo
  rw [bind_ok (World.livePath_ok hlive)]
  exact relocate_relinks hcontent hlive fun _ => rfl

theorem link_relinks (db : Database) (v : Value) (table : TableId) (w : World σ) :
    Relinks db (∃ ref owner, v.content = .file ref ∧ (w.handle ref.handle).retired = false ∧
      ¬(ref.layout = .sharded ∧ db.layout = .flat) ∧ ref.owner = .table owner ∧ owner ≠ table)
      v w (v.link db table w) := by
  cases hcontent : v.content with
  | inline data stamp =>
    rw [link_inline hcontent table]
    refine .plain (.refl w) ?_
    split
    · rw [file?, hcontent]
    · rfl
  | file ref =>
    cases hlive : (w.handle ref.handle).retired with
    | true =>
      rw [link_retired hcontent table hlive]
      exact .looked (.refl w)
    | false =>
      by_cases hserved : ref.layout = .sharded ∧ db.layout = .flat
      · rw [link_unserved hcontent table hlive hserved]
        exact .looked (.refl w)
      rw [link_served hcontent table hlive hserved]
      cases howner : ref.owner with
      | temp => exact moveTo_relinks hcontent table hlive
      | table owner =>
        dsimp only
        split
        · exact clone_relinks v w
        next hne =>
          exact .creates (copyTo_creates ⟨ref, owner, rfl, hlive, hserved, howner, hne⟩ v table hlive)

theorem unlink_unlinks (db : Database) (v : Value) (w : World σ) : Unlinks db v w (v.unlink db w) := by
  cases hcontent : v.content with
  | inline data stamp =>
    rw [unlink_inline hcontent]
    exact .relinks (.plain (.refl w) (by rw [file?, hcontent]))
  | file ref =>
    cases hlive : (w.handle ref.handle).retired with
    | true =>
      rw [unlink_retired hcontent hlive]
      exact .relinks (.looked (.refl w))
    | false =>
      by_cases hserved : ref.layout = .sharded ∧ db.layout = .flat
      · rw [unlink_unserved hcontent hlive hserved]
        exact .relinks (.looked (.refl w))
      by_cases howner : ref.owner = .temp
      · rw [unlink_temp hcontent howner hlive hserved]
        exact .relinks (clone_relinks v w)
      rw [unlink_linked hcontent howner hlive hserved]
      cases hdelete : FileStore.delete (db.naming.path ref.layout .temp ref.id) w.store with
      | error cause s =>
        rw [bind_error (World.onStore_error hdelete)]
        exact .undeleted hdelete
      | ok found s =>
        -- From here on unlinking goes like linking, in the store that the deletion has left.
        refine .deleted hcontent hlive howner hdelete ?_
        rw [bind_ok (World.onStore_ok hdelete)]
        exact relocate_relinks (w := { w with store := s }) hcontent hlive fun _ => rfl

variable [Codec]

theorem createInFile_creates (hneeds : needs) (first : Bytes) (count remaining : Nat)
    (intake : Intake σ) (w : World σ) :
    Creates db needs .temp w (createInFile db first count remaining intake w) := by
  cases halloc : db.allocate w with
  | error e w₁ =>
    have hopen : db.openTemp w = .error e w₁ := bind_error halloc
    rw [show createInFile db first count remaining intake w = .error e w₁ from bind_error hopen]
    exact .looked (db.looks_allocate.error halloc)
  | ok id w₁ =>
    obtain ⟨hlooks, hfound⟩ := db.looks_allocate.ok halloc
    have hfinds : db.Finds w id w₁ := ⟨hlooks, hfound⟩
    cases hcreate : FileStore.create (db.naming.path db.layout .temp id) w₁.store with
    | error cause s =>
      have hopen : db.openTemp w = .error (.storage cause) { w₁ with store := s } :=
        (bind_ok halloc).trans (bind_error (World.onStore_error hcreate))
      rw [show createInFile db first count remaining intake w = _ from bind_error hopen]
      exact .uncreated hneeds hfinds hcreate
    | ok writer s₁ =>
      have hopen : db.openTemp w = .ok (id, w₁.handles.length, writer) { w₁ with
          store := s₁
          handles := w₁.handles ++ [{ path := db.naming.path db.layout .temp id, armed := true }] } :=
        (bind_ok halloc).trans (bind_ok (World.onStore_ok hcreate))
      have hnear₁ := Near.run (.create (db.naming.path db.layout .temp id)) (after_ok hcreate)
      obtain ⟨-, htarget⟩ := FallibleStore.create_ok hcreate
      rw [show createInFile db first count remaining intake w = _ from bind_ok hopen]
      dsimp only
      have hclose := fun s : σ => Near.run (.close writer) (s := s) rfl
      have hfill := follows_fillFile db.settings writer first remaining intake
      simp only [Request.places, Request.run, htarget] at hclose hfill hnear₁
      cases hrun : fillFile db.settings writer first remaining intake s₁ with
      | ok total s₂ =>
        have hnear := hnear₁.trans ((hfill.ok hrun).1.trans (hclose s₂))
        exact .made hneeds hfinds hnear (by rw [← hlooks.handles_eq])
      | error e s₂ =>
        have hnear := hnear₁.trans ((hfill.error hrun).trans (hclose s₂))
        simp only [World.release_only w₁]
        exact .abandoned hneeds hfinds hnear

/-- Making a value ends in one of these ways. -/
theorem create_creates (db : Database) (kind : Kind) (source : Source σ) (declared : Option Nat)
    (w : World σ) : Creates db (NeedsFile db kind source.below declared w.below) .temp w
      (create db kind source declared w) := by
  simp only [create]
  rcases htake : Intake.take (ChunkSize.next (declared.getD unlimited) db.settings.inlineThreshold
      (db.settings.compressionFor kind).isSome) (({ kind, source } : Intake σ), w.store) with
    ⟨⟨first, count⟩, intake, s⟩ | ⟨e, intake, s⟩
  · obtain ⟨hlooked, hbase⟩ := (Intake.follows_take _).ok htake
    have hlooks : w.Looks { w with store := s } := ⟨hlooked, rfl⟩
    dsimp only
    split
    · exact .plain hlooks rfl
    next hlarge =>
      have hbelow : ({ w with store := s } : World σ).below = w.below :=
        congrArg (fun t => { w.below with store := t }) hlooked.below_eq
      have hneeds : NeedsFile db kind source.below declared w.below :=
        ⟨first, count, _, hbase, Nat.lt_of_not_le hlarge⟩
      exact (createInFile_creates hneeds _ _ _ _ _).after_looks hlooks hbelow
  · exact .looked ⟨(Intake.follows_take _).error htake, rfl⟩

/-- Opening content changes nothing but the store, and nothing beneath. -/
theorem reader_cases (v : Value) (w : World σ) : ∃ s, Looked w.store s ∧
    ((∃ e, v.reader w = .error e { w with store := s }) ∨
      ∃ c, v.reader w = .ok c { w with store := s } ∧ v.reader w.below = .ok c.below w.below) := by
  have hbelow : ∀ {s : σ} {c}, Looked w.store s → v.reader w = .ok c { w with store := s } →
      v.reader w.below = .ok c.below w.below := by
    intro s c hlooked hrun
    have hbase := ((echoes_reader v).ok hrun).2
    rwa [show ({ w with store := s } : World σ).below = w.below from
      congrArg (fun t => { w.below with store := t }) hlooked.below_eq] at hbase
  cases hcontent : v.content with
  | inline data stamp =>
    have hrun := reader_inline (w := w) hcontent
    exact ⟨w.store, .refl _, Or.inr ⟨_, hrun, hbelow (.refl _) hrun⟩⟩
  | file ref =>
    have hunfold : (v.reader : Action σ _) = (do
        let path ← World.livePath ref.handle
        let r ← World.onStore (FileStore.openRead path)
        World.onStore (ContentReader.start r ref.compressed)) := by
      unfold reader
      rw [hcontent]
    cases hretired : (w.handle ref.handle).retired with
    | true =>
      have hrun := bind_error (f := fun path => do
        let r ← World.onStore (FileStore.openRead path)
        World.onStore (ContentReader.start r ref.compressed)) (World.livePath_error hretired)
      rw [← hunfold] at hrun
      exact ⟨w.store, .refl _, Or.inl ⟨_, hrun⟩⟩
    | false =>
      have hlive := bind_ok (f := fun path => do
        let r ← World.onStore (FileStore.openRead path)
        World.onStore (ContentReader.start r ref.compressed)) (World.livePath_ok hretired)
      rw [← hunfold] at hlive
      cases hopen : FileStore.openRead (w.handle ref.handle).path w.store with
      | error e s =>
        have hopened := Looked.run (.openRead _) (after_error hopen) rfl
        exact ⟨s, hopened, Or.inl ⟨_, hlive.trans (bind_error (World.onStore_error hopen))⟩⟩
      | ok r s =>
        have hopened := Looked.run (.openRead _) (after_ok hopen) rfl
        have hrest := hlive.trans (bind_ok (World.onStore_ok hopen))
        have hfollows := ContentReader.follows_start r ref.compressed
        cases hstart : ContentReader.start r ref.compressed s with
        | error e s' =>
          have hrun := hrest.trans (World.onStore_error hstart)
          exact ⟨s', hopened.trans (hfollows.error hstart), Or.inl ⟨_, hrun⟩⟩
        | ok c s' =>
          have hlooked := hopened.trans (hfollows.ok hstart).1
          have hrun := hrest.trans (World.onStore_ok hstart)
          exact ⟨s', hlooked, Or.inr ⟨c, hrun, hbelow hlooked hrun⟩⟩

theorem convert_relinks (db : Database) (v : Value) (kind : Kind) (w : World σ) :
    Relinks db (∃ c w', v.kind ≠ kind ∧ v.reader w.below = .ok c w' ∧
      NeedsFile db kind (.stored c) none w') v w (v.convert db kind w) := by
  unfold convert
  by_cases hkind : v.kind = kind
  · rw [if_pos hkind]
    exact clone_relinks v w
  rw [if_neg hkind]
  obtain ⟨s, hlooked, ⟨e, hrun⟩ | ⟨c, hrun, hbase⟩⟩ := reader_cases v w
  · rw [bind_error hrun]
    exact .looked ⟨hlooked, rfl⟩
  · rw [bind_ok hrun]
    have hbelow : ({ w with store := s } : World σ).below = w.below :=
      congrArg (fun t => { w.below with store := t }) hlooked.below_eq
    have hcreates := create_creates db kind (.stored c) none { w with store := s }
    rw [hbelow] at hcreates
    have hlooks : w.Looks { w with store := s } := ⟨hlooked, rfl⟩
    have hneeded := hcreates.after_looks hlooks hbelow
    exact .creates (hneeded.mono fun hneeds => ⟨_, _, hkind, hbase, hneeds⟩)

/-- Moving a value into a file ends in one of these ways, and if it goes through, it goes through
beneath. -/
theorem spill_spills (db : Database) (v : Value) (w : World σ) :
    Spills db (∃ data stamp, v.content = .inline data stamp ∧
        db.settings.inlineThreshold < v.precision ∧
        NeedsFile db v.kind (.planned [.bytes data]) (some v.precision) w.below) v w
      (v.spill db w) ∧
    ∀ {u w'}, v.spill db w = .ok u w' → v.spill db w.below = .ok u w'.below := by
  cases hcontent : v.content with
  | file ref =>
    rw [spill_file hcontent, spill_file hcontent]
    exact ⟨.relinks (clone_relinks v w), fun h => ((echoes_clone v).ok h).2⟩
  | inline data stamp =>
    by_cases hsmall : v.precision ≤ db.settings.inlineThreshold
    · rw [spill_small hcontent hsmall, spill_small hcontent hsmall]
      refine ⟨.relinks (.plain (.refl w) (by rw [file?, hcontent])), ?_⟩
      rintro u w' ⟨⟩
      rfl
    have hcreates := (create_creates db v.kind (.planned [.bytes data]) (some v.precision) w).mono
      fun hneeds => (⟨data, stamp, rfl, Nat.lt_of_not_le hsmall, hneeds⟩ :
        ∃ data' stamp', Content.inline data stamp = .inline data' stamp' ∧
          db.settings.inlineThreshold < v.precision ∧
          NeedsFile db v.kind (.planned [.bytes data']) (some v.precision) w.below)
    have hechoes := echoes_create db v.kind (.planned [.bytes data] : Source σ) (some v.precision)
    rw [spill_eq hcontent hsmall, spill_eq hcontent hsmall]
    cases hrun : create db v.kind (.planned [.bytes data]) (some v.precision) w with
    | error e w₁ =>
      rw [bind_error hrun]
      rw [hrun] at hcreates
      refine ⟨.relinks (.creates hcreates), ?_⟩
      rintro u w' ⟨⟩
    | ok first w₁ =>
      rw [hrun] at hcreates
      have hbase : create db v.kind (.planned [.bytes data]) (some v.precision) w.below =
          .ok first w₁.below := (hechoes.ok hrun).2
      rw [bind_ok hrun, bind_ok hbase]
      cases stamp with
      | none =>
        refine ⟨.relinks (.creates hcreates), ?_⟩
        rintro u w' ⟨⟩
        rfl
      | some table =>
        cases hcreates with
        | plain hlooks hfile =>
          obtain ⟨linked, hlinked, hend⟩ := handOver_inline db table hfile
          simp only [hend]
          refine ⟨.relinks (.plain hlooks hlinked), ?_⟩
          rintro u w' ⟨⟩
          rfl
        | @made _ id compressed w' s hneeds hfinds hnear hfile =>
          rw [← hfinds.looks.handles_eq] at hfile
          cases hrename : FileStore.rename (db.naming.path db.layout .temp id)
              (db.naming.path db.layout (.table table) id) s with
          | error cause s' =>
            simp only [handOver_error hfile hrename]
            refine ⟨.unmoved hneeds hfinds hnear hrename, ?_⟩
            rintro u w' ⟨⟩
          | ok _ s' =>
            have hend := handOver_ok (w := w'.below) hfile (FallibleStore.rename_ok hrename)
            simp only [handOver_ok hfile hrename]
            refine ⟨.moved hneeds hfinds hnear hrename (by rw [← hfinds.looks.handles_eq]; rfl), ?_⟩
            rintro u w' ⟨⟩
            exact hend

end Value

end LargeObjects
