import Mathlib
import LargeObjects.Removal
import LargeObjects.Proofs.Atomicity
import LargeObjects.Proofs.Reattaching

/-! Runs in which files also go away behind the backs of values. Beside the operations on values, what
a row records can be attached, and the files of a table, or all temporary ones, can be removed. -/
namespace LargeObjects

open ReliableStore FallibleStore Step

inductive Deed where
  | work (e : Event)
  | attach (kind : Kind) (table : TableId) (id : ObjectId) (precision : Nat) (compressed : Bool)
  | sweep (table : TableId)
  | purge

namespace Session

variable [Codec] {σ : Type} [FileStore σ]

/-- With what an attached value was made is not known, and nothing stands for it. -/
def perform (db : Database) (s : Session σ) : Deed → Session σ
  | .work e => s.step db e
  | .attach kind table id precision compressed =>
    s.acquire (Value.attach db kind table id precision compressed) []
  | .sweep table => { s with world := after (db.removeTable table) s.world }
  | .purge => { s with world := after db.purgeTemp s.world }

inductive Goes (db : Database) (may : Session σ → Deed → Prop) (first : Session σ) :
    Session σ → Prop
  | start : Goes db may first first
  | step {s : Session σ} (d : Deed) : Goes db may first s → may s d → Goes db may first (s.perform db d)

end Session

namespace Handle

def Stay (before after : List Handle) : Prop := before.map (·.path) <+: after.map (·.path)

theorem Stay.refl (handles : List Handle) : Stay handles handles := List.prefix_refl _

theorem Stay.trans {first second third : List Handle} (h : Stay first second) (h' : Stay second third) :
    Stay first third := List.IsPrefix.trans h h'

theorem stay_append (handles more : List Handle) : Stay handles (handles ++ more) := by
  unfold Stay
  rw [List.map_append]
  exact List.prefix_append _ _

theorem stay_of_eq {handles handles' : List Handle} (h : handles' = handles) :
    Stay handles handles' := by
  rw [h]
  exact Stay.refl _

theorem stay_modify (handles : List Handle) (k : HandleId) {f : Handle → Handle}
    (hf : ∀ h, (f h).path = h.path) (more : List Handle) : Stay handles (handles.modify k f ++ more) := by
  have hsame : (handles.modify k f).map (·.path) = handles.map (·.path) := by
    apply List.ext_getElem?
    intro j
    simp only [List.getElem?_map, List.getElem?_modify]
    by_cases hk : k = j
    · simp [hk, hf, Function.comp_def]
    · simp [hk]
  unfold Stay
  rw [List.map_append, hsame]
  exact List.prefix_append _ _

end Handle

namespace World

variable {σ : Type} {w w' : World σ} {k : HandleId}

/-- A handle that stays is found where it was, on its path. -/
theorem handle_path_of_stay (h : Handle.Stay w.handles w'.handles) (hk : w.Knows k) :
    w'.Knows k ∧ (w'.handle k).path = (w.handle k).path := by
  have hlength := h.length_le
  rw [List.length_map, List.length_map] at hlength
  have hk' : w'.Knows k := Nat.lt_of_lt_of_le hk hlength
  refine ⟨hk', ?_⟩
  have hlt : k < (w.handles.map (·.path)).length := by rwa [List.length_map]
  have hget := h.getElem hlt
  simp only [List.getElem_map] at hget
  show (w'.handles.getD k .absent).path = (w.handles.getD k .absent).path
  rw [List.getD_eq_getElem _ _ hk', List.getD_eq_getElem _ _ hk]
  exact hget.symm

/-- One holder lets go, and maybe a file is deleted. -/
theorem release_cases [FileStore σ] (k : HandleId) (w : World σ) :
    release k w = .ok () { w with handles := w.handles.modify k Handle.letGo } ∨
      ∃ path, release k w = .ok () { w with
        store := after (FileStore.delete path) w.store
        handles := w.handles.modify k Handle.letGo } := by
  let w₁ : World σ := { w with handles := w.handles.modify k Handle.letGo }
  have hrun : release k w = (if (w₁.handle k).holders = 0 ∧ (w₁.handle k).isAutoDelete then
      discard (w₁.handle k).path else pure ()) w₁ := rfl
  rw [hrun]
  split
  · exact Or.inr ⟨_, discard_eq _ w₁⟩
  · exact Or.inl rfl

end World

namespace FallibleStore

variable {σ : Type} [FileStore σ] [FallibleStore σ] {s s' s'' : σ}

def Loses (s s' : σ) : Prop :=
  ∀ q, fileAt? (below s') q = none ∨ fileAt? (below s') q = fileAt? (below s) q

theorem Loses.trans (h : Loses s s') (h' : Loses s' s'') : Loses s s'' := by
  intro q
  rcases h' q with hgone | hsame
  · exact Or.inl hgone
  · rw [hsame]
    exact h q

theorem Looked.loses (h : Looked s s') : Loses s s' := fun q => Or.inr (by rw [h.below_eq])

/-- Looking around step by step. -/
theorem Looked.bind {ε α β : Type} {x : Step ε σ α} {f : α → Step ε σ β}
    (h : Looked s (after x s)) (hrest : ∀ a t, Looked t (after (f a) t)) :
    Looked s (after (x >>= f) s) := by
  cases hx : x s with
  | ok a t =>
    rw [after_ok hx] at h
    rw [after_congr (bind_ok hx)]
    exact h.trans (hrest a t)
  | error e t =>
    rw [after_error hx] at h
    rwa [after_error (bind_error hx)]

/-- A deletion loses a file at most, even when it fails. -/
theorem loses_delete {path : Path} (h : after (FileStore.delete path) s = s') : Loses s s' := by
  intro q
  rw [← h]
  by_cases hq : q = path.components
  · rw [hq]
    exact FallibleStore.delete_files path s
  · exact Or.inr (FallibleStore.elsewhere (.delete path) s fun h => hq (List.mem_singleton.1 h))

end FallibleStore

namespace Survey

section Walk

variable {σ : Type} [FileStore σ] {dir : Path} {depth : Nat} {s s₁ : σ}

theorem walk_cons (fuel : Nat) (dir : Path) (depth : Nat) (pending : List (Path × Nat))
    (survey : Survey) (s : σ) : walk (fuel + 1) ((dir, depth) :: pending) survey s =
      match FileStore.list dir s with
      | .error e s =>
        if depth = 0 then .error e s
        else walk fuel pending { survey with unreadable := survey.unreadable + 1 } s
      | .ok entries s =>
        let (dirs, others) := entries.partition (FileStore.isDirectory · s)
        walk fuel ((dirs.map fun path => (path, depth + 1)).reverse ++ pending)
          { survey with files := survey.files ++ others.filterMap (inTree? depth) } s := rfl

theorem walk_ok (fuel depth : Nat) (pending : List (Path × Nat)) (survey : Survey)
    {entries : List Path} (hlist : FileStore.list dir s = .ok entries s₁) :
    walk (fuel + 1) ((dir, depth) :: pending) survey s =
      walk fuel
        (((entries.filter (FileStore.isDirectory · s₁)).map fun path => (path, depth + 1)).reverse ++
          pending)
        { survey with files := survey.files ++
          (entries.filter fun path => !FileStore.isDirectory path s₁).filterMap (inTree? depth) } s₁ := by
  rw [walk_cons, hlist]
  simp only [List.partition_eq_filter_filter]
  rfl

theorem walk_error (fuel : Nat) (hdepth : depth ≠ 0) (pending : List (Path × Nat)) (survey : Survey)
    {e : StoreError} (hlist : FileStore.list dir s = .error e s₁) :
    walk (fuel + 1) ((dir, depth) :: pending) survey s =
      walk fuel pending { survey with unreadable := survey.unreadable + 1 } s₁ := by
  rw [walk_cons, hlist]
  exact if_neg hdepth

/-- Where the root of the tree cannot be listed there is no search. -/
theorem walk_error_root (fuel : Nat) (hdepth : depth = 0) (pending : List (Path × Nat))
    (survey : Survey) {e : StoreError} (hlist : FileStore.list dir s = .error e s₁) :
    walk (fuel + 1) ((dir, depth) :: pending) survey s = .error e s₁ := by
  rw [walk_cons, hlist]
  exact if_pos hdepth

end Walk

variable {σ : Type} [FileStore σ] [FallibleStore σ]

/-- A search for files changes none. -/
theorem looked_walk (fuel : Nat) (pending : List (Path × Nat)) (survey : Survey) (s : σ) :
    Looked s (after (walk fuel pending survey) s) := by
  induction fuel generalizing pending survey s with
  | zero => exact .refl s
  | succ fuel ih =>
    cases pending with
    | nil => exact .refl s
    | cons first pending =>
      obtain ⟨dir, depth⟩ := first
      cases hlist : FileStore.list dir s with
      | ok entries s₁ =>
        refine (Looked.run (.list dir) (after_ok hlist) rfl).trans ?_
        rw [after_congr (walk_ok fuel depth pending survey hlist)]
        exact ih _ _ s₁
      | error e s₁ =>
        refine (Looked.run (.list dir) (after_error hlist) rfl).trans ?_
        by_cases hdepth : depth = 0
        · rw [after_error (walk_error_root fuel hdepth pending survey hlist)]
          exact .refl s₁
        · rw [after_congr (walk_error fuel hdepth pending survey hlist)]
          exact ih _ _ s₁

theorem looked_ofTree (naming : Naming) (s : σ) : Looked s (after (ofTree naming) s) :=
  looked_walk _ _ _ s

theorem looked_ofFlat (naming : Naming) (s : σ) : Looked s (after (ofFlat naming) s) := by
  cases hlist : FileStore.list naming.flatDirectory s with
  | ok entries s₁ =>
    rw [show after (ofFlat naming) s = s₁ from after_ok (bind_ok hlist)]
    exact Looked.run (.list _) (after_ok hlist) rfl
  | error e s₁ =>
    rw [show after (ofFlat naming) s = s₁ from after_error (bind_error hlist)]
    exact Looked.run (.list _) (after_error hlist) rfl

end Survey

namespace Database

variable {σ : Type} [FileStore σ] [FallibleStore σ]

/-- A search leaves the store as it was. -/
theorem looked_survey (db : Database) (s : σ) : Looked s (after db.survey s) := by
  have hrest : ∀ (tree : Survey) (t : σ), Looked t (after (do
      let flat ← Survey.ofFlat db.naming
      pure { tree with files := tree.files ++ flat }) t) := by
    intro tree t
    exact Looked.bind (Survey.looked_ofFlat db.naming t) fun _ t' => .refl t'
  unfold survey
  cases db.layout with
  | sharded => exact Looked.bind (Survey.looked_ofTree db.naming s) hrest
  | flat => exact Looked.bind (x := pure {}) (.refl s) hrest

/-- Whatever is deleted of a list, files are lost at most. -/
theorem loses_deleteAll (paths : List Path) (report : RemovalReport) (s : σ) :
    Loses s (deleteAll paths report s).2 := by
  induction paths generalizing report s with
  | nil => exact (Looked.refl s).loses
  | cons path rest ih =>
    unfold deleteAll
    rcases hdelete : FileStore.delete path s with ⟨_ | _, t⟩ | ⟨e, t⟩
    · exact (loses_delete (after_ok hdelete)).trans (ih _ t)
    · exact (loses_delete (after_ok hdelete)).trans (ih _ t)
    · exact (loses_delete (after_error hdelete)).trans (ih _ t)

omit [FallibleStore σ] in
/-- A removal whose search fails deletes nothing. -/
theorem removeOwned_error {db : Database} {owner : Owner} {w : World σ} {e : StoreError} {s : σ}
    (h : db.survey w.store = .error e s) :
    db.removeOwned owner w = .error (.storage e) { w with store := s } :=
  bind_error (World.onStore_error h)

omit [FallibleStore σ] in
/-- Otherwise it deletes the files of the owner among those found. -/
theorem removeOwned_ok {db : Database} (owner : Owner) {w : World σ} {survey : Survey} {s : σ}
    (h : db.survey w.store = .ok survey s) :
    let paths := (survey.files.filter (·.owner = owner)).map (·.path)
    let (report, store) := deleteAll paths { failed := survey.unreadable } s
    db.removeOwned owner w = .ok report { w with store } :=
  bind_ok (World.onStore_ok h)

/-- Removing the files of an owner loses files, and does nothing else. -/
theorem loses_removeOwned (db : Database) (owner : Owner) (w : World σ) :
    ∃ t, after (db.removeOwned owner) w = { w with store := t } ∧ Loses w.store t := by
  have hlooked := db.looked_survey w.store
  cases hsurvey : db.survey w.store with
  | error e s =>
    rw [after_error hsurvey] at hlooked
    exact ⟨s, after_error (removeOwned_error hsurvey), hlooked.loses⟩
  | ok survey s =>
    rw [after_ok hsurvey] at hlooked
    exact ⟨_, after_ok (removeOwned_ok owner hsurvey), hlooked.loses.trans (loses_deleteAll _ _ s)⟩

end Database

namespace Value

variable {σ : Type} {db : Database} {needs : Prop} {owner : Owner} {v : Value}
  {w : World σ} {r : EStateM.Result ObjectError (World σ) Value}

def Stays (w : World σ) : EStateM.Result ObjectError (World σ) Value → Prop
  | .ok _ w' | .error _ w' => Handle.Stay w.handles w'.handles

variable [FileStore σ] [FallibleStore σ]

/-- Making a value moves no handle, and so it is with the other operations. -/
theorem Creates.stays (h : Creates db needs owner w r) : Stays w r := by
  cases h with
  | looked hlooks | plain hlooks _ => exact Handle.stay_of_eq hlooks.handles_eq
  | uncreated _ hfinds _ => exact Handle.stay_of_eq hfinds.looks.handles_eq
  | made _ hfinds _ _ | abandoned _ hfinds _ =>
    unfold Stays
    rw [← hfinds.looks.handles_eq]
    exact Handle.stay_append _ _

theorem Relinks.stays (h : Relinks db needs v w r) : Stays w r := by
  cases h with
  | creates h => exact h.stays
  | @shared ref hcontent =>
    have hstay := Handle.stay_modify w.handles ref.handle (f := Handle.takeHold) (fun _ => rfl) []
    rwa [List.append_nil] at hstay
  | moved => exact Handle.stay_modify w.handles _ (f := Handle.retire) (fun _ => rfl) _
  | unmoved => exact Handle.Stay.refl w.handles

theorem Unlinks.stays (h : Unlinks db v w r) : Stays w r := by
  cases h with
  | relinks h => exact h.stays
  | undeleted => exact Handle.Stay.refl w.handles
  | deleted _ _ _ _ h => exact h.stays

theorem Spills.stays (h : Spills db needs v w r) : Stays w r := by
  cases h with
  | relinks h => exact h.stays
  | moved _ hfinds _ _ _ | unmoved _ hfinds _ _ =>
    unfold Stays
    rw [← hfinds.looks.handles_eq]
    exact Handle.stay_append _ _

end Value

namespace Session

variable {σ : Type} [FileStore σ] [FallibleStore σ] {db : Database} {s s' : Session σ}

def settle (s : Session σ) (origin : Bytes) :
    EStateM.Result ObjectError (World σ) Value → Session σ
  | .ok v w => s.hold ⟨v, origin⟩ w
  | .error _ w => { s with world := w }

omit [FileStore σ] [FallibleStore σ] in
theorem acquire_eq_settle (act : Action σ Value) (origin : Bytes) :
    s.acquire act origin = s.settle origin (act s.world) := by
  unfold acquire settle
  cases act s.world <;> rfl

inductive Ends (db : Database) (needs : Prop) (s : Session σ) : Session σ → Prop
  | inline {h : Held} : h.value.file? = none → Ends db needs s (s.hold h s.world)
  | creates {r : EStateM.Result ObjectError (World σ) Value} (origin : Bytes) :
    Value.Creates db needs .temp s.world r → Ends db needs s (s.settle origin r)
  | relinks {h : Held} {r : EStateM.Result ObjectError (World σ) Value} (origin : Bytes) :
    h ∈ s.held → Value.Relinks db needs h.value s.world r → Ends db needs s (s.settle origin r)
  | unlinks {h : Held} {r : EStateM.Result ObjectError (World σ) Value} (origin : Bytes) :
    h ∈ s.held → Value.Unlinks db h.value s.world r → Ends db needs s (s.settle origin r)
  | spills {h : Held} {r : EStateM.Result ObjectError (World σ) Value} (origin : Bytes) :
    h ∈ s.held → Value.Spills db needs h.value s.world r → Ends db needs s (s.settle origin r)
  | keeps {held : List Held} {handles : List Handle} : held ⊆ s.held →
    Handle.Stay s.world.handles handles →
    Ends db needs s { s with world := { s.world with handles }, held }
  | deletes {held : List Held} {handles : List Handle} (path : Path) : held ⊆ s.held →
    Handle.Stay s.world.handles handles →
    Ends db needs s { s with
      world := { s.world with store := after (FileStore.delete path) s.world.store, handles }
      held }

theorem Ends.idle (db : Database) (needs : Prop) (s : Session σ) : Ends db needs s s :=
  .keeps (fun _ h => h) (Handle.Stay.refl _)

/-- An operation on a value that is not held ends without a change. -/
theorem ends_onHeld {i : Nat} {act : Held → Session σ} {needs : Prop}
    (h : ∀ h, s.held[i]? = some h → Ends db needs s (act h)) : Ends db needs s (s.onHeld i act) := by
  cases hi : s.held[i]? with
  | none =>
    rw [onHeld_none hi]
    exact .idle db needs s
  | some h' =>
    rw [onHeld_some hi]
    exact h h' hi

omit [FileStore σ] [FallibleStore σ] in
theorem settle_stay {origin : Bytes} {r : EStateM.Result ObjectError (World σ) Value}
    (h : Value.Stays s.world r) : Handle.Stay s.world.handles (s.settle origin r).world.handles := by
  cases r <;> exact h

/-- Handles stay on their paths through every operation. -/
theorem Ends.stay {needs : Prop} (h : Ends db needs s s') :
    Handle.Stay s.world.handles s'.world.handles := by
  cases h with
  | inline => exact Handle.Stay.refl _
  | creates _ h => exact settle_stay h.stays
  | relinks _ _ h => exact settle_stay h.stays
  | unlinks _ _ h => exact settle_stay h.stays
  | spills _ _ h => exact settle_stay h.stays
  | keeps _ hstay | deletes _ _ hstay => exact hstay

variable [Codec]

/-- Every operation ends in one of these ways. -/
theorem step_ends (db : Database) (s : Session σ) (e : Event) :
    Ends db (s.below.Allocates db e) s (s.step db e) := by
  cases e with
  | create kind plan declared =>
    have hcreates := Value.create_creates db kind (.planned plan.deliveries) declared s.world
    simp only [step, acquire_eq_settle]
    exact .creates _ hcreates
  | inline kind data =>
    simp only [step]
    split
    next v hv =>
      exact .inline (Value.file?_of_inlineBytes? (Value.inline_whole hv).1)
    next => exact .idle db _ s
  | clone i =>
    refine ends_onHeld fun h hi => ?_
    rw [acquire_eq_settle]
    exact .relinks _ (List.mem_of_getElem? hi) (Value.clone_relinks h.value s.world)
  | link i table =>
    refine ends_onHeld fun h hi => ?_
    rw [acquire_eq_settle]
    refine .relinks _ (List.mem_of_getElem? hi) ((Value.link_relinks db h.value table s.world).mono ?_)
    rintro ⟨ref, owner, hcontent, hneeds⟩
    exact ⟨h, ref, owner, hi, hcontent, hneeds⟩
  | unlink i =>
    refine ends_onHeld fun h hi => ?_
    rw [acquire_eq_settle]
    exact .unlinks _ (List.mem_of_getElem? hi) (Value.unlink_unlinks db h.value s.world)
  | convert i kind =>
    refine ends_onHeld fun h hi => ?_
    rw [acquire_eq_settle]
    refine .relinks _ (List.mem_of_getElem? hi) ((Value.convert_relinks db h.value kind s.world).mono ?_)
    rintro ⟨c, w, hneeds⟩
    exact ⟨h, c, w, hi, hneeds⟩
  | spill i =>
    refine ends_onHeld fun h hi => ?_
    rw [acquire_eq_settle]
    refine .spills _ (List.mem_of_getElem? hi) ((Value.spill_spills db h.value s.world).1.mono ?_)
    rintro ⟨data, stamp, hcontent, hneeds⟩
    exact ⟨h, data, stamp, hi, hcontent, hneeds⟩
  | close i =>
    refine ends_onHeld fun h hi => ?_
    -- When the file cannot be deleted the handle stays live.
    have hretire := fun ref : ValueFile =>
      Handle.stay_modify s.world.handles ref.handle (f := Handle.retire) (fun _ => rfl) []
    simp only [List.append_nil] at hretire
    unfold run
    rcases Value.close_cases h.value s.world with hrun |
      ⟨ref, -, -, ⟨e, t, hdelete, hrun⟩ | ⟨found, t, hdelete, hrun⟩⟩
    · rw [hrun]
      exact .idle db _ s
    · rw [hrun]
      have hends : Ends db (s.below.Allocates db (.close i)) s _ :=
        .deletes (s.world.handle ref.handle).path (fun _ h => h) (Handle.Stay.refl s.world.handles)
      rwa [after_error hdelete] at hends
    · rw [hrun]
      have hends : Ends db (s.below.Allocates db (.close i)) s _ :=
        .deletes (s.world.handle ref.handle).path (fun _ h => h) (hretire ref)
      rwa [after_ok hdelete] at hends
  | drop i =>
    -- The last holder of a temporary file deletes it; others only let go.
    refine ends_onHeld fun h hi => ?_
    have hheld : s.held.eraseIdx i ⊆ s.held := fun _ => List.mem_of_mem_eraseIdx
    cases hcontent : h.value.content with
    | inline data stamp =>
      simp only [run, Value.drop_inline (by rw [Value.file?, hcontent] : h.value.file? = none)]
      exact .keeps hheld (Handle.Stay.refl _)
    | file ref =>
      have hletGo := Handle.stay_modify s.world.handles ref.handle (f := Handle.letGo)
        (fun _ => rfl) []
      rw [List.append_nil] at hletGo
      simp only [run, Value.drop_file hcontent]
      rcases World.release_cases ref.handle s.world with hrun | ⟨path, hrun⟩
      · rw [hrun]
        exact .keeps hheld hletGo
      · rw [hrun]
        exact .deletes path hheld hletGo

/-- No deed takes a handle off its path. -/
theorem perform_stay (db : Database) (s : Session σ) (d : Deed) :
    Handle.Stay s.world.handles (s.perform db d).world.handles := by
  cases d with
  | work e => exact (step_ends db s e).stay
  | attach kind table id precision compressed =>
    simp only [perform, acquire_eq_settle]
    refine settle_stay ?_
    by_cases hid : id.word = 0
    · rw [Value.attach_zero db kind table precision compressed s.world hid]
      exact Handle.Stay.refl _
    · rw [Value.attach_ok db kind table precision compressed s.world hid]
      exact Handle.stay_append _ _
  | sweep table =>
    obtain ⟨t, hafter, -⟩ := db.loses_removeOwned (.table table) s.world
    rw [perform, Database.removeTable, hafter]
    exact Handle.Stay.refl _
  | purge =>
    obtain ⟨t, hafter, -⟩ := db.loses_removeOwned .temp s.world
    rw [perform, Database.purgeTemp, hafter]
    exact Handle.Stay.refl _

end Session

end LargeObjects
