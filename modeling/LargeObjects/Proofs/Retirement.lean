import Mathlib
import LargeObjects.Proofs.Deeds

/-! Handles that have lost their files. No step gives a handle a file back, so what has become of the
values that share it is settled for good, whatever other values do and whatever comes to its path. -/
namespace LargeObjects

open Step

namespace Handle

def Last (before after : List Handle) : Prop :=
  ∀ (k : HandleId) (h : Handle), before[k]? = some h →
    ∃ h' : Handle, after[k]? = some h' ∧ h'.path = h.path ∧ (h.retired = true → h'.retired = true)

theorem Last.refl (handles : List Handle) : Last handles handles := by
  intro k h hk
  exact ⟨h, hk, rfl, id⟩

theorem Last.trans {first second third : List Handle} (h : Last first second)
    (h' : Last second third) : Last first third := by
  intro k x hx
  obtain ⟨y, hy, hpath, hretired⟩ := h k x hx
  obtain ⟨z, hz, hpath', hretired'⟩ := h' k y hy
  exact ⟨z, hz, hpath'.trans hpath, fun hlost => hretired' (hretired hlost)⟩

theorem last_append (handles more : List Handle) : Last handles (handles ++ more) := by
  intro k h hk
  obtain ⟨hlt, -⟩ := List.getElem?_eq_some_iff.1 hk
  refine ⟨h, ?_, rfl, id⟩
  rw [List.getElem?_append_left hlt]
  exact hk

/-- A change that leaves paths alone and revives no handle lets the handles last. -/
theorem last_modify (handles : List Handle) (k : HandleId) {f : Handle → Handle}
    (hf : ∀ h, (f h).path = h.path ∧ (h.retired = true → (f h).retired = true)) :
    Last handles (handles.modify k f) := by
  intro j h hj
  rw [List.getElem?_modify, hj]
  by_cases hk : k = j
  · refine ⟨f h, ?_, hf h⟩
    simp [hk]
  · refine ⟨h, ?_, rfl, id⟩
    simp [hk]

end Handle

namespace World

variable {σ α β : Type} {w w' w'' : World σ} {k : HandleId}

def Lasts (w w' : World σ) : Prop := Handle.Last w.handles w'.handles

theorem Lasts.of_eq (h : w'.handles = w.handles) : w.Lasts w' := by
  unfold Lasts
  rw [h]
  exact Handle.Last.refl _

/-- A handle that was made stays made, on its path, and retired if it was. -/
theorem Lasts.handle (h : w.Lasts w') (hk : w.Knows k) :
    w'.Knows k ∧ (w'.handle k).path = (w.handle k).path ∧
      ((w.handle k).retired = true → (w'.handle k).retired = true) := by
  obtain ⟨x, hx, hpath, hretired⟩ := h k _ (List.getElem?_eq_getElem hk)
  obtain ⟨hk', hget⟩ := List.getElem?_eq_some_iff.1 hx
  have hold : w.handle k = w.handles[k] := List.getD_eq_getElem _ _ hk
  have hnew : w'.handle k = x := (List.getD_eq_getElem _ _ hk').trans hget
  rw [hold, hnew]
  exact ⟨hk', hpath, hretired⟩

def Ensures (P : α → World σ → Prop) (w : World σ) : EStateM.Result ObjectError (World σ) α → Prop
  | .ok a w' => w.Lasts w' ∧ P a w'
  | .error _ w' => w.Lasts w'

def Anything (_ : α) (_ : World σ) : Prop := True

variable {P : α → World σ → Prop} {Q : β → World σ → Prop} {x : Action σ α} {f : α → Action σ β}

theorem ensures_of_lasts {a : α} (h : w.Lasts w') : Ensures Anything w (.ok a w') := ⟨h, trivial⟩

/-- The handles last through a sequence if they last through each of its parts. -/
theorem Ensures.bind (h : Ensures P w (x w))
    (hrest : ∀ a w', w.Lasts w' → P a w' → Ensures Q w' (f a w')) : Ensures Q w ((x >>= f) w) := by
  cases hx : x w with
  | error e w₁ =>
    rw [hx] at h
    rw [bind_error hx]
    exact h
  | ok a w₁ =>
    rw [hx] at h
    obtain ⟨hlasts, ha⟩ := h
    have hafter := hrest a w₁ hlasts ha
    rw [bind_ok hx]
    cases hf : f a w₁ with
    | error e w₂ =>
      rw [hf] at hafter
      exact Handle.Last.trans hlasts hafter
    | ok b w₂ =>
      rw [hf] at hafter
      exact ⟨Handle.Last.trans hlasts hafter.1, hafter.2⟩

theorem ensures_onStore (act : Step StoreError σ α) (w : World σ) :
    Ensures Anything w (onStore act w) := by
  cases hact : act w.store with
  | ok a s =>
    rw [onStore_ok hact]
    exact ensures_of_lasts (.of_eq rfl)
  | error e s =>
    rw [onStore_error hact]
    exact Lasts.of_eq rfl

theorem ensures_livePath (k : HandleId) (w : World σ) : Ensures Anything w (livePath k w) := by
  cases hretired : (w.handle k).retired with
  | false =>
    rw [livePath_ok hretired]
    exact ensures_of_lasts (.of_eq rfl)
  | true =>
    rw [livePath_error hretired]
    exact Lasts.of_eq rfl

theorem lasts_letGo (w : World σ) (s : σ) (k : HandleId) :
    w.Lasts { w with store := s, handles := w.handles.modify k Handle.letGo } :=
  Handle.last_modify w.handles k fun _ => ⟨rfl, id⟩

theorem lasts_retire (w : World σ) (s : σ) (k : HandleId) (more : List Handle) :
    w.Lasts { w with store := s, handles := w.handles.modify k Handle.retire ++ more } := by
  have hretire : Handle.Last w.handles (w.handles.modify k Handle.retire) :=
    Handle.last_modify w.handles k fun _ => ⟨rfl, fun _ => rfl⟩
  exact hretire.trans (Handle.last_append _ more)

/-- Letting go never fails, and the handles last. -/
theorem lasts_release [FileStore σ] (k : HandleId) (w : World σ) :
    ∃ w', release k w = .ok () w' ∧ w.Lasts w' := by
  rcases release_cases k w with hrun | ⟨path, hrun⟩
  · exact ⟨_, hrun, w.lasts_letGo w.store k⟩
  · exact ⟨_, hrun, w.lasts_letGo _ k⟩

end World

open World

variable {σ : Type}

theorem Database.ensures_requireServed (db : Database) (layout : Layout) (w : World σ) :
    Ensures Anything w (db.requireServed layout w) := by
  unfold Database.requireServed
  split
  · exact Lasts.of_eq rfl
  · exact ensures_of_lasts (.of_eq rfl)

namespace Value

variable {v : Value} {ref : ValueFile} {w w' : World σ}

def Known (v : Value) (w : World σ) : Prop := ∀ ref, v.content = .file ref → w.Knows ref.handle

theorem Known.last (h : v.Known w) (hlasts : w.Lasts w') : v.Known w' :=
  fun ref hcontent => (hlasts.handle (h ref hcontent)).1

theorem known_inline (h : v.file? = none) : v.Known w := by
  intro ref hcontent
  rw [file?, hcontent] at h
  cases h

theorem ensures_clone (h : v.Known w) : Ensures Known w (v.clone w) := by
  cases hcontent : v.content with
  | inline data stamp =>
    rw [clone_inline (by rw [file?, hcontent])]
    exact ⟨.of_eq rfl, h⟩
  | file ref =>
    have hlasts : w.Lasts { w with handles := w.handles.modify ref.handle Handle.takeHold } :=
      Handle.last_modify _ _ fun _ => ⟨rfl, id⟩
    rw [clone_file hcontent]
    exact ⟨hlasts, h.last hlasts⟩

theorem known_withFile {ref' : ValueFile} {last : Handle} {handles : List Handle}
    (hhandle : ref'.handle = handles.length) (hw : w.handles = handles ++ [last]) :
    (v.withFile ref').Known w := by
  intro ref hcontent
  cases hcontent
  show ref'.handle < w.handles.length
  rw [hw, hhandle, List.length_append]
  exact Nat.lt_succ_self _

theorem retired_of_modify (hknown : w.Knows ref.handle) {more : List Handle}
    (h : w'.handles = w.handles.modify ref.handle Handle.retire ++ more) :
    (w'.handle ref.handle).retired = true := by
  rw [World.handle_modify_append h hknown hknown, if_pos rfl]
  rfl

end Value

namespace Session

variable {s s' : Session σ}

def Knowing (s : Session σ) : Prop := ∀ h ∈ s.held, h.value.Known s.world

structure Carries (s s' : Session σ) : Prop where
  lasts : s.world.Lasts s'.world
  knowing : s'.Knowing

theorem carries_of_subset (hk : s.Knowing) {held : List Held} (hheld : held ⊆ s.held) {w : World σ}
    (hlasts : s.world.Lasts w) : s.Carries { s with world := w, held } :=
  ⟨hlasts, fun h hmem => (hk h (hheld hmem)).last hlasts⟩

/-- A value that an operation gives is held from then on, and its handle is known. -/
theorem carries_acquire (hk : s.Knowing) {act : Action σ Value} (origin : Bytes)
    (h : Ensures Value.Known s.world (act s.world)) : s.Carries (s.acquire act origin) := by
  cases hrun : act s.world with
  | error e w =>
    rw [hrun] at h
    rw [acquire_error hrun]
    exact carries_of_subset hk (fun _ h => h) h
  | ok v w =>
    rw [hrun] at h
    obtain ⟨hlasts, hv⟩ := h
    rw [acquire_ok hrun]
    refine ⟨hlasts, fun h hmem => ?_⟩
    rcases List.mem_append.1 hmem with hold | hnew
    · exact (hk h hold).last hlasts
    · rw [List.mem_singleton.1 hnew]
      exact hv

theorem carries_onHeld {i : Nat} {act : Held → Session σ} (hk : s.Knowing)
    (h : ∀ h ∈ s.held, s.Carries (act h)) : s.Carries (s.onHeld i act) := by
  cases hi : s.held[i]? with
  | none =>
    rw [onHeld_none hi]
    exact carries_of_subset hk (fun _ h => h) (.of_eq rfl)
  | some h' =>
    rw [onHeld_some hi]
    exact h h' (List.mem_of_getElem? hi)

end Session

variable [FileStore σ]

namespace Allocator

theorem ensures_entryNumbers (dir : Path) (w : World σ) :
    Ensures Anything w (entryNumbers dir w) := by
  apply (ensures_onStore _ w).bind
  intro entries w' _ _
  exact ensures_of_lasts (.of_eq rfl)

theorem ensures_vacancy? (naming : Naming) (word : UInt32) (w : World σ) :
    Ensures Anything w (vacancy? naming word w) := by
  apply (ensures_entryNumbers _ w).bind
  intro numbers w' _ _
  split <;> exact ensures_of_lasts (.of_eq rfl)

theorem ensures_scanFrom (naming : Naming) (maxProbes : UInt32) (probes : Nat) (word : UInt32)
    (w : World σ) : Ensures Anything w (scanFrom naming maxProbes probes word w) := by
  induction probes generalizing word w with
  | zero => exact Lasts.of_eq rfl
  | succ probes ih =>
    apply (ensures_vacancy? naming word w).bind
    intro place w' _ _
    cases place with
    | some slot => exact ensures_of_lasts (.of_eq rfl)
    | none =>
      have hdigit : Ensures Anything w' (randomDigit naming.fanout w') :=
        ensures_of_lasts (.of_eq rfl)
      apply hdigit.bind
      intro digit w'' _ _
      exact ih _ w''

theorem ensures_isTaken (naming : Naming) (layout : Layout) (id : ObjectId) (w : World σ) :
    Ensures Anything w (isTaken naming layout id w) := by
  cases layout with
  | flat => exact ensures_of_lasts (.of_eq rfl)
  | sharded =>
    unfold isTaken isSlotTaken
    dsimp only
    split
    · exact ensures_of_lasts (.of_eq rfl)
    cases (naming.stem id).parent? with
    | none => exact ensures_of_lasts (.of_eq rfl)
    | some dir =>
      apply (ensures_entryNumbers dir w).bind
      intro numbers w' _ _
      exact ensures_of_lasts (.of_eq rfl)

theorem ensures_countFrom (naming : Naming) (layout : Layout) (counter fuel : Nat) (w : World σ) :
    Ensures Anything w (countFrom naming layout counter fuel w) := by
  induction fuel generalizing w with
  | zero => exact Lasts.of_eq rfl
  | succ fuel ih =>
    have hnext : Ensures Anything w (nextCount counter w) := ensures_of_lasts (.of_eq rfl)
    apply hnext.bind
    intro word w' _ _
    dsimp only
    split
    · exact Lasts.of_eq rfl
    · apply (ensures_isTaken naming layout ⟨word⟩ w').bind
      intro taken w'' _ _
      cases taken with
      | true => exact ih w''
      | false => exact ensures_of_lasts (.of_eq rfl)

end Allocator

/-- Looking for an id touches no handle. -/
theorem Database.ensures_allocate (db : Database) (w : World σ) :
    Ensures Anything w (db.allocate w) := by
  unfold Database.allocate Allocator.allocate
  cases db.allocator with
  | scan maxProbes => exact Allocator.ensures_scanFrom _ _ _ _ w
  | counter place => exact Allocator.ensures_countFrom _ _ _ _ w

/-- A new handle is known. -/
theorem Database.ensures_openTemp (db : Database) (w : World σ) :
    Ensures (fun opened w' => w'.Knows opened.2.1) w (db.openTemp w) := by
  apply (db.ensures_allocate w).bind
  intro id w₁ _ _
  apply (ensures_onStore _ w₁).bind
  intro writer w₂ _ _
  refine ⟨Handle.last_append _ _, ?_⟩
  show w₂.handles.length < (w₂.handles ++ [_]).length
  rw [List.length_append]
  exact Nat.lt_succ_self _

namespace Value

variable {db : Database} {v : Value} {ref : ValueFile} {w w' : World σ}

/-- When a file gets another name, the old handle loses it to a new one. -/
theorem relocate_handles {path target : Path} {k : HandleId} {armed : Bool} {f : HandleId → Value}
    {u : Value} (h : (do
        World.onStore (FileStore.rename path target)
        World.retire k
        return f (← World.newHandle target armed) : Action σ Value) w = .ok u w') :
    w'.handles = w.handles.modify k Handle.retire ++ [{ path := target, armed }] := by
  cases hrename : FileStore.rename path target w.store with
  | error e s =>
    rw [bind_error (World.onStore_error hrename)] at h
    cases h
  | ok _ s =>
    rw [relocate_renamed k armed f hrename] at h
    cases h
    rfl

/-- Moving a file retires one handle and makes another, which is known. -/
theorem ensures_relocate (path target : Path) (k : HandleId) (armed : Bool) (ref : ValueFile)
    (v : Value) (w : World σ) :
    Ensures Known w ((do
      World.onStore (FileStore.rename path target)
      World.retire k
      return v.withFile { ref with handle := ← World.newHandle target armed }) w) := by
  cases hrename : FileStore.rename path target w.store with
  | error e s =>
    rw [bind_error (World.onStore_error hrename)]
    exact Lasts.of_eq rfl
  | ok _ s =>
    rw [relocate_renamed k armed (fun handle => v.withFile { ref with handle }) hrename]
    refine ⟨w.lasts_retire s k _, known_withFile ?_ rfl⟩
    rw [List.length_modify]

theorem ensures_copyTo (db : Database) (v : Value) (ref : ValueFile) (table : TableId) (w : World σ) :
    Ensures Known w (copyTo db v ref table w) := by
  apply (ensures_livePath ref.handle w).bind
  intro path w₁ _ _
  apply (db.ensures_allocate w₁).bind
  intro id w₂ _ _
  cases hcopy : FileStore.copy path (db.naming.path db.layout (.table table) id) w₂.store with
  | error e s =>
    rw [World.onStore_error hcopy]
    simp only [World.discard_eq]
    exact Lasts.of_eq rfl
  | ok count s =>
    rw [World.onStore_ok hcopy]
    exact ⟨Handle.last_append _ _, known_withFile rfl rfl⟩

/-- A linked value refers to a handle that was made at some time. -/
theorem ensures_link (h : v.Known w) (db : Database) (table : TableId) :
    Ensures Known w (v.link db table w) := by
  unfold link
  cases hcontent : v.content with
  | inline data stamp =>
    dsimp only
    split
    · exact ⟨.of_eq rfl, h⟩
    · exact ⟨.of_eq rfl, known_inline rfl⟩
  | file ref =>
    apply (ensures_livePath ref.handle w).bind
    intro _ w₁ hlasts₁ _
    apply (db.ensures_requireServed ref.layout w₁).bind
    intro _ w₂ hlasts₂ _
    cases ref.owner with
    | temp =>
      apply (ensures_livePath ref.handle w₂).bind
      intro path w₃ _ _
      exact ensures_relocate path _ _ _ { ref with owner := .table table } v w₃
    | table owner =>
      dsimp only
      split
      · exact ensures_clone ((h.last hlasts₁).last hlasts₂)
      · exact ensures_copyTo db v ref table w₂

/-- So does one that was taken from its table. -/
theorem ensures_unlink (h : v.Known w) (db : Database) : Ensures Known w (v.unlink db w) := by
  unfold unlink
  cases hcontent : v.content with
  | inline data stamp => exact ⟨.of_eq rfl, h⟩
  | file ref =>
    apply (ensures_livePath ref.handle w).bind
    intro path w₁ hlasts₁ _
    apply (db.ensures_requireServed ref.layout w₁).bind
    intro _ w₂ hlasts₂ _
    dsimp only
    split
    · exact ensures_clone ((h.last hlasts₁).last hlasts₂)
    · apply (ensures_onStore _ w₂).bind
      intro _ w₃ _ _
      exact ensures_relocate path _ _ _ { ref with owner := .temp } v w₃

theorem ensures_close (v : Value) (w : World σ) : Ensures Anything w (v.close w) := by
  rcases close_cases v w with hrun | ⟨ref, -, -, ⟨e, s, -, hrun⟩ | ⟨found, s, -, hrun⟩⟩
  · rw [hrun]
    exact ensures_of_lasts (.of_eq rfl)
  · rw [hrun]
    exact Lasts.of_eq rfl
  · have hlasts := w.lasts_retire s ref.handle []
    rw [List.append_nil] at hlasts
    rw [hrun]
    exact ensures_of_lasts hlasts

theorem lasts_drop (v : Value) (w : World σ) : ∃ w', v.drop w = .ok () w' ∧ w.Lasts w' := by
  cases hcontent : v.content with
  | inline data stamp => exact ⟨w, drop_inline (by rw [file?, hcontent]), .of_eq rfl⟩
  | file ref =>
    rw [drop_file hcontent]
    exact lasts_release ref.handle w

theorem ensures_handOver (h : v.Known w) (db : Database) (table : TableId) :
    Ensures Known w (handOver db v table w) := by
  have hlink := ensures_link h db table
  unfold handOver
  cases hrun : v.link db table w with
  | ok linked w₁ =>
    rw [hrun] at hlink
    obtain ⟨hlasts, hknown⟩ := hlink
    obtain ⟨w₂, hdrop, hlasts'⟩ := lasts_drop v w₁
    dsimp only
    rw [hdrop]
    exact ⟨Handle.Last.trans hlasts hlasts', hknown.last hlasts'⟩
  | error e w₁ =>
    rw [hrun] at hlink
    obtain ⟨w₂, hdrop, hlasts'⟩ := lasts_drop v w₁
    dsimp only
    rw [hdrop]
    exact Handle.Last.trans hlink hlasts'

theorem ensures_attach (db : Database) (kind : Kind) (table : TableId) (id : ObjectId)
    (precision : Nat) (compressed : Bool) (w : World σ) :
    Ensures Known w (attach db kind table id precision compressed w) := by
  by_cases hid : id.word = 0
  · rw [attach_zero db kind table precision compressed w hid]
    exact Lasts.of_eq rfl
  · rw [attach_ok db kind table precision compressed w hid]
    refine ⟨Handle.last_append _ _, fun ref hcontent => ?_⟩
    cases hcontent
    show w.handles.length < (w.handles ++ [_]).length
    rw [List.length_append]
    exact Nat.lt_succ_self _

variable [Codec]

/-- So does a new value with a file, and where making it fails the handles last all the same. -/
theorem ensures_createInFile (db : Database) (first : Bytes) (count remaining : Nat)
    (intake : Intake σ) (w : World σ) :
    Ensures Known w (createInFile db first count remaining intake w) := by
  apply (db.ensures_openTemp w).bind
  rintro ⟨id, handle, writer⟩ w₁ _ hknown
  dsimp only
  cases fillFile db.settings writer first remaining intake w₁.store with
  | ok total s =>
    refine ⟨.of_eq rfl, fun ref hcontent => ?_⟩
    cases hcontent
    exact hknown
  | error e s =>
    -- The new handle is let go of, but it stays in the list.
    obtain ⟨w₂, hrun, hlasts⟩ :=
      lasts_release handle { w₁ with store := FileStore.close writer s }
    dsimp only
    rw [hrun]
    exact hlasts

theorem ensures_create (db : Database) (kind : Kind) (source : Source σ) (declared : Option Nat)
    (w : World σ) : Ensures Known w (create db kind source declared w) := by
  simp only [create]
  rcases Intake.take (ChunkSize.next (declared.getD unlimited) db.settings.inlineThreshold
      (db.settings.compressionFor kind).isSome) (({ kind, source } : Intake σ), w.store) with
    ⟨⟨first, count⟩, intake, s⟩ | ⟨e, intake, s⟩
  · dsimp only
    split
    · exact ⟨.of_eq rfl, known_inline rfl⟩
    · exact ensures_createInFile db first count _ intake { w with store := s }
  · exact Lasts.of_eq rfl

theorem ensures_reader (v : Value) (w : World σ) : Ensures Anything w (v.reader w) := by
  unfold reader
  cases v.content with
  | inline data stamp => exact ensures_of_lasts (.of_eq rfl)
  | file ref =>
    apply (ensures_livePath ref.handle w).bind
    intro path w₁ _ _
    apply (ensures_onStore _ w₁).bind
    intro r w₂ _ _
    exact ensures_onStore _ w₂

/-- So does one of another kind. -/
theorem ensures_convert (h : v.Known w) (db : Database) (kind : Kind) :
    Ensures Known w (v.convert db kind w) := by
  unfold convert
  split
  · exact ensures_clone h
  · apply (ensures_reader v w).bind
    intro r w₁ _ _
    exact ensures_create db kind (.stored r) none w₁

theorem ensures_spill (h : v.Known w) (db : Database) : Ensures Known w (v.spill db w) := by
  cases hcontent : v.content with
  | file ref =>
    rw [spill_file hcontent]
    exact ensures_clone h
  | inline data stamp =>
    by_cases hsmall : v.precision ≤ db.settings.inlineThreshold
    · rw [spill_small hcontent hsmall]
      exact ⟨.of_eq rfl, h⟩
    · rw [spill_eq hcontent hsmall]
      apply (ensures_create db v.kind _ _ w).bind
      intro first w₁ _ hknown
      cases stamp with
      | none => exact ⟨.of_eq rfl, hknown⟩
      | some table => exact ensures_handOver hknown db table

end Value

namespace Session

variable {db : Database} {s s' t : Session σ}

/-- A sweep or a purge retires nothing, though it takes files away. -/
theorem lasts_removeOwned (db : Database) (owner : Owner) (w : World σ) :
    w.Lasts (after (db.removeOwned owner) w) := by
  cases hsurvey : db.survey w.store with
  | error e s =>
    rw [after_error (Database.removeOwned_error hsurvey)]
    exact .of_eq rfl
  | ok survey s =>
    rw [after_ok (Database.removeOwned_ok owner hsurvey)]
    exact .of_eq rfl

variable [Codec]

/-- Whatever an operation does, and whether or not it fails, the handles last. -/
theorem step_carries (hk : s.Knowing) (db : Database) (e : Event) : s.Carries (s.step db e) := by
  cases e with
  | create kind plan declared => exact carries_acquire hk _ (Value.ensures_create db kind _ _ _)
  | inline kind data =>
    simp only [step]
    split
    next v hv =>
      refine ⟨.of_eq rfl, fun h hmem => ?_⟩
      rcases List.mem_append.1 hmem with hold | hnew
      · exact hk h hold
      · rw [List.mem_singleton.1 hnew]
        exact Value.known_inline (Value.file?_of_inlineBytes? (Value.inline_whole hv).1)
    next => exact carries_of_subset hk (fun _ h => h) (.of_eq rfl)
  | clone i =>
    exact carries_onHeld hk fun h hmem => carries_acquire hk _ (Value.ensures_clone (hk h hmem))
  | link i table =>
    exact carries_onHeld hk fun h hmem =>
      carries_acquire hk _ (Value.ensures_link (hk h hmem) db table)
  | unlink i =>
    exact carries_onHeld hk fun h hmem => carries_acquire hk _ (Value.ensures_unlink (hk h hmem) db)
  | convert i kind =>
    exact carries_onHeld hk fun h hmem =>
      carries_acquire hk _ (Value.ensures_convert (hk h hmem) db kind)
  | spill i =>
    exact carries_onHeld hk fun h hmem => carries_acquire hk _ (Value.ensures_spill (hk h hmem) db)
  | close i =>
    refine carries_onHeld hk fun h hmem => ?_
    have hclose := Value.ensures_close h.value s.world
    unfold run
    cases hrun : h.value.close s.world with
    | ok _ w =>
      rw [hrun] at hclose
      exact carries_of_subset hk (fun _ h => h) hclose.1
    | error e w =>
      rw [hrun] at hclose
      exact carries_of_subset hk (fun _ h => h) hclose
  | drop i =>
    refine carries_onHeld hk fun h hmem => ?_
    obtain ⟨w, hrun, hlasts⟩ := Value.lasts_drop h.value s.world
    simp only [run, hrun]
    exact carries_of_subset hk (fun _ => List.mem_of_mem_eraseIdx) hlasts

/-- So it is for every deed. -/
theorem perform_carries (hk : s.Knowing) (db : Database) (d : Deed) :
    s.Carries (s.perform db d) := by
  cases d with
  | work e => exact step_carries hk db e
  | attach kind table id precision compressed =>
    exact carries_acquire hk _ (Value.ensures_attach db kind table id precision compressed s.world)
  | sweep table =>
    exact carries_of_subset hk (fun _ h => h) (lasts_removeOwned db (.table table) s.world)
  | purge => exact carries_of_subset hk (fun _ h => h) (lasts_removeOwned db .temp s.world)

/-- What a session comes to by any deeds. Between them anything may become of the files, as by reading
a value from a store that keeps account of it, or by someone else. -/
inductive Lives (db : Database) (first : Session σ) : Session σ → Prop
  | start : Lives db first first
  | deed {s : Session σ} (d : Deed) : Lives db first s → Lives db first (s.perform db d)
  | stir {s : Session σ} (t : σ) : Lives db first s →
    Lives db first { s with world := { s.world with store := t } }

/-- However a session goes on, the handles last and those of its values are known. -/
theorem Lives.carries (h : Lives db s t) (hk : s.Knowing) : s.Carries t := by
  induction h with
  | start => exact carries_of_subset hk (fun _ h => h) (.of_eq rfl)
  | deed d _ ih =>
    have hstep := perform_carries ih.knowing db d
    exact ⟨Handle.Last.trans ih.lasts hstep.lasts, hstep.knowing⟩
  | stir t _ ih => exact ⟨ih.lasts, ih.knowing⟩

end Session

namespace Value

variable {db : Database} {v u : Value} {ref : ValueFile} {w w' : World σ}

/-- Closing that goes through leaves the handle without a file. -/
theorem retired_of_close (hknown : w.Knows ref.handle) (hcontent : v.content = .file ref)
    (h : v.close w = .ok () w') : (w'.handle ref.handle).retired = true := by
  cases hlive : (w.handle ref.handle).retired with
  | true =>
    rw [close_retired hcontent hlive] at h
    cases h
    exact hlive
  | false =>
    rw [close_file hcontent hlive] at h
    obtain ⟨found, w₁, hdelete, hretire⟩ := bind_eq_ok h
    have hlasts := ensures_onStore (FileStore.delete (w.handle ref.handle).path) w
    rw [hdelete] at hlasts
    cases hretire
    apply retired_of_modify (hlasts.1.handle hknown).1
    exact (List.append_nil _).symm

/-- A handle that still has its file was made. -/
theorem live_of_link (hcontent : v.content = .file ref) (table : TableId)
    (h : v.link db table w = .ok u w') : (w.handle ref.handle).retired = false := by
  cases hlive : (w.handle ref.handle).retired with
  | false => rfl
  | true =>
    rw [link_retired hcontent table hlive] at h
    cases h

/-- Giving a temporary file to a table takes it from the handle. -/
theorem retired_of_link (hknown : w.Knows ref.handle) (hcontent : v.content = .file ref)
    (howner : ref.owner = .temp) (table : TableId) (h : v.link db table w = .ok u w') :
    (w'.handle ref.handle).retired = true := by
  have hlive := live_of_link hcontent table h
  by_cases hserved : ref.layout = .sharded ∧ db.layout = .flat
  · rw [link_unserved hcontent table hlive hserved] at h
    cases h
  · rw [link_served hcontent table hlive hserved, howner] at h
    dsimp only [moveTo] at h
    rw [bind_ok (World.livePath_ok hlive)] at h
    exact retired_of_modify hknown (relocate_handles h)

/-- So does taking a file from its table. -/
theorem retired_of_unlink (hknown : w.Knows ref.handle) (hcontent : v.content = .file ref)
    (howner : ref.owner ≠ .temp) (h : v.unlink db w = .ok u w') :
    (w'.handle ref.handle).retired = true := by
  cases hlive : (w.handle ref.handle).retired with
  | true =>
    rw [unlink_retired hcontent hlive] at h
    cases h
  | false =>
    by_cases hserved : ref.layout = .sharded ∧ db.layout = .flat
    · rw [unlink_unserved hcontent hlive hserved] at h
      cases h
    · rw [unlink_linked hcontent howner hlive hserved] at h
      obtain ⟨found, w₁, hdelete, hrest⟩ := bind_eq_ok h
      have hlasts := ensures_onStore (FileStore.delete (db.naming.path ref.layout .temp ref.id)) w
      rw [hdelete] at hlasts
      have hknown₁ := (hlasts.1.handle hknown).1
      exact retired_of_modify hknown₁ (relocate_handles hrest)

variable [Codec]

structure Inert (v : Value) (path : Path) (w : World σ) : Prop where
  state_eq : v.state w = .removed
  reader_eq : v.reader w = .error (.useAfterClose path) w
  readBytes_eq : v.readBytes w = .error (.useAfterClose path) w
  readText_eq : v.readText w = .error (.useAfterClose path) w
  link_eq (db : Database) (table : TableId) : v.link db table w = .error (.useAfterClose path) w
  unlink_eq (db : Database) : v.unlink db w = .error (.useAfterClose path) w
  close_eq : v.close w = .ok () w
  drop_eq : ∃ w', v.drop w = .ok () w' ∧ w'.store = w.store

/-- A value whose handle is retired has nothing left to use or to lose. -/
theorem inert_of_retired (hcontent : v.content = .file ref) (hknown : w.Knows ref.handle)
    (hretired : (w.handle ref.handle).retired = true) : v.Inert (w.handle ref.handle).path w := by
  have hreader : v.reader w = .error (.useAfterClose (w.handle ref.handle).path) w := by
    unfold reader
    rw [hcontent]
    exact bind_error (World.livePath_error hretired)
  have hbytes : v.readBytes w = .error (.useAfterClose (w.handle ref.handle).path) w := by
    unfold readBytes
    rw [hcontent]
    exact bind_error hreader
  refine ⟨?_, hreader, hbytes, bind_error hbytes, fun db table => link_retired hcontent table hretired,
    fun db => unlink_retired hcontent hretired, close_retired hcontent hretired, ?_⟩
  · unfold state
    rw [hcontent]
    exact if_pos hretired
  · -- An armed handle takes its file along only as long as it has one.
    have hkeeps : ¬(w.handle ref.handle).Discards := by
      rintro ⟨-, hauto⟩
      have hlive : (w.handle ref.handle).retired = false := (Handle.isAutoDelete_iff.1 hauto).2
      rw [hretired] at hlive
      cases hlive
    exact ⟨_, (drop_file hcontent).trans (World.release_keeps hknown hkeeps), rfl⟩

end Value

namespace Session

variable [Codec] {db : Database} {s t : Session σ} {k : HandleId} {e : Event}

/-- An operation goes through by which a handle loses its file: the file is closed, or it was temporary
and is given to a table, or it is taken from its table. -/
def GivesUp (db : Database) (s : Session σ) (k : HandleId) : Event → Prop
  | .close i => ∃ h ref w, s.held[i]? = some h ∧ h.value.content = .file ref ∧ ref.handle = k ∧
    h.value.close s.world = .ok () w
  | .link i table => ∃ h ref u w, s.held[i]? = some h ∧ h.value.content = .file ref ∧
    ref.handle = k ∧ ref.owner = .temp ∧ h.value.link db table s.world = .ok u w
  | .unlink i => ∃ h ref u w, s.held[i]? = some h ∧ h.value.content = .file ref ∧
    ref.handle = k ∧ ref.owner ≠ .temp ∧ h.value.unlink db s.world = .ok u w
  | _ => False

/-- What gives up a file leaves its handle retired. -/
theorem GivesUp.retired (h : s.GivesUp db k e) (hk : s.Knowing) :
    s.world.Knows k ∧ ((s.step db e).world.handle k).retired = true := by
  cases e with
  | close i =>
    obtain ⟨h, ref, w, hi, hcontent, rfl, hrun⟩ := h
    have hknown := hk h (List.mem_of_getElem? hi) ref hcontent
    refine ⟨hknown, ?_⟩
    simp only [step, onHeld_some hi, run, hrun]
    exact Value.retired_of_close hknown hcontent hrun
  | link i table =>
    obtain ⟨h, ref, u, w, hi, hcontent, rfl, howner, hrun⟩ := h
    have hknown := hk h (List.mem_of_getElem? hi) ref hcontent
    refine ⟨hknown, ?_⟩
    simp only [step, onHeld_some hi, acquire_ok hrun]
    exact Value.retired_of_link hknown hcontent howner table hrun
  | unlink i =>
    obtain ⟨h, ref, u, w, hi, hcontent, rfl, howner, hrun⟩ := h
    have hknown := hk h (List.mem_of_getElem? hi) ref hcontent
    refine ⟨hknown, ?_⟩
    simp only [step, onHeld_some hi, acquire_ok hrun]
    exact Value.retired_of_unlink hknown hcontent howner hrun
  | create | inline | clone | convert | spill | drop => cases h

/-- In every run over any store, from when a handle has lost its file by closing, linking or unlinking a
value, all values that share the handle are inert for good, whenever they were made and whatever has
come to the path since. -/
theorem retired_values_inert {w : World σ} (hbefore : Lives db { world := w } s)
    (hgives : s.GivesUp db k e) (hafter : Lives db (s.step db e) t) {v : Value} {ref : ValueFile}
    (hcontent : v.content = .file ref) (hshares : ref.handle = k) :
    v.Inert (s.world.handle k).path t.world := by
  have hnone : ({ world := w } : Session σ).Knowing := nofun
  have hknowing := (hbefore.carries hnone).knowing
  obtain ⟨hknown, hretired⟩ := hgives.retired hknowing
  have hstep := step_carries hknowing db e
  have hlater := hafter.carries hstep.knowing
  obtain ⟨hknown₁, hpath₁, -⟩ := hstep.lasts.handle hknown
  obtain ⟨hknown₂, hpath₂, hlost⟩ := hlater.lasts.handle hknown₁
  -- The path that the refusals name is still the one at which the handle lost its file.
  subst hshares
  rw [← hpath₁, ← hpath₂]
  exact Value.inert_of_retired hcontent hknown₂ (hlost hretired)

end Session

namespace Session

def reusedSession : Session MemoryStore :=
  (linkedSession.step smallDatabase (.close 1)).step smallDatabase (.create .binary threeOthers none)

/-- A value is given to a table and closed there, and another value comes to the path of the first. -/
theorem retired_values_inert_reused : ∃ h ∈ reusedSession.held, ∃ other ∈ reusedSession.held,
    h.value.path? reusedSession.world = other.value.path? reusedSession.world ∧
    other.value.readBytes reusedSession.world = .ok [4, 5, 6] reusedSession.world ∧
    ∃ path, h.value.Inert path reusedSession.world := by
  let made := ({ world := emptyWorld } : Session MemoryStore).perform smallDatabase
    (.work (.create .binary threeOctets none))
  have hbefore : Lives smallDatabase { world := emptyWorld } made := .deed _ .start
  have hafter : Lives smallDatabase (made.step smallDatabase (.link 0 ⟨6⟩)) reusedSession :=
    .deed (.work (.create .binary threeOthers none)) (.deed (.work (.close 1)) .start)
  have hgives : made.GivesUp smallDatabase 0 (.link 0 ⟨6⟩) :=
    ⟨_, _, _, _, rfl, rfl, rfl, rfl, rfl⟩
  exact ⟨_, List.mem_cons_self, _,
    List.mem_cons_of_mem _ (List.mem_cons_of_mem _ List.mem_cons_self), rfl, rfl, _,
    retired_values_inert hbefore hgives hafter rfl rfl⟩

end Session

end LargeObjects
