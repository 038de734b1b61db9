import Mathlib
import LargeObjects.Proofs.Transitions

/-! What the operations on values do to a session, in terms of its elementary changes. -/
namespace LargeObjects

open ReliableStore

variable {σ : Type}

namespace Value

variable {db : Database} {v : Value} {ref : ValueFile} {w : World σ} {content : Bytes}

theorem clone_file (h : v.content = .file ref) :
    v.clone w = .ok v { w with handles := w.handles.modify ref.handle Handle.takeHold } := by
  unfold clone
  simp only [file?, h]
  rfl

theorem clone_inline (h : v.file? = none) : v.clone w = .ok v w := by
  unfold clone
  simp only [h]
  rfl

theorem file?_of_inlineBytes? {data : Bytes} (h : v.inlineBytes? = some data) : v.file? = none := by
  cases hcontent : v.content with
  | inline data' stamp => rw [file?, hcontent]
  | file ref =>
    rw [inlineBytes?, hcontent] at h
    cases h

variable [FileStore σ]

/-- Once the file has its new name, the old handle is retired and there is a new one. -/
theorem relocate_renamed {path target : Path} {s : σ} (k : HandleId) (armed : Bool)
    (give : HandleId → Value) (hrename : FileStore.rename path target w.store = .ok () s) :
    (do
        World.onStore (FileStore.rename path target)
        World.retire k
        return give (← World.newHandle target armed) : Action σ Value) w =
      .ok (give w.handles.length) { w with
        store := s
        handles := w.handles.modify k Handle.retire ++ [{ path := target, armed }] } := by
  rw [Step.bind_ok (World.onStore_ok hrename)]
  have hlength : (w.handles.modify k Handle.retire).length = w.handles.length :=
    List.length_modify _ _ _
  rw [← hlength]
  rfl

theorem link_inline {data : Bytes} {stamp : Option TableId} (hcontent : v.content = .inline data stamp)
    (table : TableId) :
    v.link db table w =
      .ok (if stamp = some table then v else { v with content := .inline data (some table) }) w := by
  unfold link
  simp only [hcontent]
  split <;> rfl

theorem link_retired (hcontent : v.content = .file ref) (table : TableId)
    (hretired : (w.handle ref.handle).retired = true) :
    v.link db table w = .error (.useAfterClose (w.handle ref.handle).path) w := by
  unfold link
  simp only [hcontent]
  rw [Step.bind_error (World.livePath_error hretired)]

theorem link_unserved (hcontent : v.content = .file ref) (table : TableId)
    (hlive : (w.handle ref.handle).retired = false)
    (hrefused : ref.layout = .sharded ∧ db.layout = .flat) :
    v.link db table w = .error (.unsupported .shardedInFlat) w := by
  unfold link
  simp only [hcontent]
  rw [Step.bind_ok (World.livePath_ok hlive), Step.bind_error (Database.requireServed_error hrefused)]

/-- Beyond retired and unserved files, linking depends on the owner alone. -/
theorem link_served (hcontent : v.content = .file ref) (table : TableId)
    (hlive : (w.handle ref.handle).retired = false)
    (hserved : ¬(ref.layout = .sharded ∧ db.layout = .flat)) :
    v.link db table w =
      (match ref.owner with
        | .temp => moveTo db v ref table
        | .table owner => if owner = table then v.clone else copyTo db v ref table) w := by
  conv_lhs => unfold link
  simp only [hcontent]
  refine (Step.bind_ok (World.livePath_ok hlive)).trans ?_
  exact Step.bind_ok (Database.requireServed_ok hserved)

theorem unlink_inline {data : Bytes} {stamp : Option TableId}
    (hcontent : v.content = .inline data stamp) : v.unlink db w = .ok v w := by
  unfold unlink
  simp only [hcontent]
  rfl

theorem unlink_retired (hcontent : v.content = .file ref)
    (hretired : (w.handle ref.handle).retired = true) :
    v.unlink db w = .error (.useAfterClose (w.handle ref.handle).path) w := by
  unfold unlink
  simp only [hcontent]
  rw [Step.bind_error (World.livePath_error hretired)]

theorem unlink_unserved (hcontent : v.content = .file ref)
    (hlive : (w.handle ref.handle).retired = false)
    (hrefused : ref.layout = .sharded ∧ db.layout = .flat) :
    v.unlink db w = .error (.unsupported .shardedInFlat) w := by
  unfold unlink
  simp only [hcontent]
  rw [Step.bind_ok (World.livePath_ok hlive), Step.bind_error (Database.requireServed_error hrefused)]

theorem unlink_temp (hcontent : v.content = .file ref) (howner : ref.owner = .temp)
    (hlive : (w.handle ref.handle).retired = false)
    (hserved : ¬(ref.layout = .sharded ∧ db.layout = .flat)) :
    v.unlink db w = v.clone w := by
  unfold unlink
  simp only [hcontent]
  rw [Step.bind_ok (World.livePath_ok hlive), Step.bind_ok (Database.requireServed_ok hserved),
    if_pos howner]

/-- Unlinking makes room under the temporary name and moves the file there. -/
theorem unlink_linked (hcontent : v.content = .file ref) (howner : ref.owner ≠ .temp)
    (hlive : (w.handle ref.handle).retired = false)
    (hserved : ¬(ref.layout = .sharded ∧ db.layout = .flat)) :
    v.unlink db w = (do
      let _ ← World.onStore (FileStore.delete (db.naming.path ref.layout .temp ref.id))
      World.onStore (FileStore.rename (w.handle ref.handle).path
        (db.naming.path ref.layout .temp ref.id))
      World.retire ref.handle
      return v.withFile { ref with
        owner := .temp
        handle := ← World.newHandle (db.naming.path ref.layout .temp ref.id) true }) w := by
  unfold unlink
  simp only [hcontent]
  rw [Step.bind_ok (World.livePath_ok hlive), Step.bind_ok (Database.requireServed_ok hserved),
    if_neg howner]

theorem close_inline {data : Bytes} {stamp : Option TableId}
    (hcontent : v.content = .inline data stamp) : v.close w = .ok () w := by
  unfold close
  simp only [hcontent]
  rfl

theorem close_retired (hcontent : v.content = .file ref)
    (hretired : (w.handle ref.handle).retired = true) : v.close w = .ok () w := by
  have hget : (get : Action σ (World σ)) w = .ok w w := rfl
  unfold close
  simp only [hcontent]
  rw [Step.bind_ok hget]
  simp only [hretired, if_true]
  rfl

theorem close_file (hcontent : v.content = .file ref) (hlive : (w.handle ref.handle).retired = false) :
    v.close w = (do
      let _ ← World.onStore (FileStore.delete (w.handle ref.handle).path)
      World.retire ref.handle) w := by
  have hget : (get : Action σ (World σ)) w = .ok w w := rfl
  unfold close
  simp only [hcontent]
  rw [Step.bind_ok hget]
  simp only [hlive, Bool.false_eq_true, if_false]

theorem drop_inline (h : v.file? = none) : v.drop w = .ok () w := by
  unfold drop
  simp only [h]
  rfl

theorem drop_file (h : v.content = .file ref) : v.drop w = World.release ref.handle w := by
  unfold drop
  simp only [file?, h]

section Spilling

variable [Codec]

theorem spill_file (hcontent : v.content = .file ref) : v.spill db w = v.clone w := by
  unfold spill
  simp only [hcontent]

theorem spill_small {data : Bytes} {stamp : Option TableId} (hcontent : v.content = .inline data stamp)
    (hsmall : v.precision ≤ db.settings.inlineThreshold) : v.spill db w = .ok v w := by
  unfold spill
  simp only [hcontent, if_pos hsmall]
  rfl

/-- How a spill ends: the new value goes to the table, and is let go in any case. -/
def handOver (db : Database) (first : Value) (table : TableId) : Action σ Value := fun w =>
  match first.link db table w with
  | .ok linked w =>
    match first.drop w with
    | .ok _ w => .ok linked w
    | .error e w => .error e w
  | .error e w =>
    match first.drop w with
    | .ok _ w => .error e w
    | .error _ w => .error e w

/-- A value that is too large is made anew from its bytes, and handed over where its row has a stamp.
-/
theorem spill_eq {data : Bytes} {stamp : Option TableId} (hcontent : v.content = .inline data stamp)
    (hlarge : ¬v.precision ≤ db.settings.inlineThreshold) :
    v.spill (σ := σ) db = create db v.kind (.planned [.bytes data]) (some v.precision) >>= fun first =>
      match stamp with
      | none => pure first
      | some table => handOver db first table := by
  unfold spill
  simp only [hcontent, if_neg hlarge]
  rfl

end Spilling

variable [ReliableStore σ]

/-- A file that is there can be given a new name, and its handle to a new one. -/
theorem relocate_ok {path target : Path} (k : HandleId) (armed : Bool) (give : HandleId → Value)
    (hfile : fileAt? w.store path.components = some content)
    (hne : path.components ≠ target.components) :
    ∃ store, (do
        World.onStore (FileStore.rename path target)
        World.retire k
        return give (← World.newHandle target armed) : Action σ Value) w =
      .ok (give w.handles.length) { w with
        store
        handles := w.handles.modify k Handle.retire ++ [{ path := target, armed }] } ∧
      Moves path.components target.components w.store store := by
  obtain ⟨store, hrename, hthere, hleft, helse⟩ := rename_ok target hfile
  exact ⟨store, relocate_renamed k armed give hrename, hthere.trans hfile.symm, hleft hne, helse⟩

theorem moveTo_ok (v : Value) (table : TableId) (hlive : (w.handle ref.handle).retired = false)
    (hfile : fileAt? w.store (w.handle ref.handle).path.components = some content)
    (hne : (w.handle ref.handle).path.components ≠
      (db.naming.path ref.layout (.table table) ref.id).components) :
    ∃ store, moveTo db v ref table w =
      .ok (v.withFile { ref with owner := .table table, handle := w.handles.length }) { w with
        store
        handles := w.handles.modify ref.handle Handle.retire ++
          [.new (db.naming.path ref.layout (.table table) ref.id) (.table table)] } ∧
      Moves (w.handle ref.handle).path.components
        (db.naming.path ref.layout (.table table) ref.id).components w.store store := by
  obtain ⟨store, hrun, hmoves⟩ := relocate_ok ref.handle false
    (fun handle => v.withFile { ref with owner := .table table, handle }) hfile hne
  refine ⟨store, ?_, hmoves⟩
  unfold moveTo
  rw [Step.bind_ok (World.livePath_ok hlive)]
  exact hrun

/-- The copy has all of the file; when no id is found nothing is copied. -/
theorem copyTo_ok (db : Database) (v : Value) (table : TableId)
    (hlive : (w.handle ref.handle).retired = false)
    (hfile : fileAt? w.store (w.handle ref.handle).path.components = some content) :
    (∃ e w₁, db.allocate w = .error e w₁ ∧ copyTo db v ref table w = .error e w₁) ∨
    ∃ id w₁ store, db.allocate w = .ok id w₁ ∧
      copyTo db v ref table w =
        .ok (v.withFile { ref with
          id, owner := .table table, layout := db.layout, handle := w.handles.length })
        { w₁ with
          store
          handles := w₁.handles ++
            [.new (db.naming.path db.layout (.table table) id) (.table table)] } ∧
      Changes (db.naming.path db.layout (.table table) id).components (some content)
        w.store store := by
  unfold copyTo
  rw [Step.bind_ok (World.livePath_ok hlive)]
  cases halloc : db.allocate w with
  | error e w₁ =>
    refine Or.inl ⟨e, w₁, rfl, ?_⟩
    exact Step.bind_error halloc
  | ok id w₁ =>
    have hsame := db.allocate_sameFiles.1 halloc
    rw [← hsame.store_eq] at hfile
    obtain ⟨count, store, hcopy, hthere, helse⟩ :=
      copy_ok (db.naming.path db.layout (.table table) id) hfile
    rw [hsame.store_eq] at helse
    refine Or.inr ⟨id, w₁, store, rfl, ?_, hthere, helse⟩
    refine (Step.bind_ok halloc).trans ?_
    simp only [World.onStore_ok hcopy]
    rw [← hsame.handles_eq]
    rfl

theorem unlink_ok (hcontent : v.content = .file ref) (howner : ref.owner ≠ .temp)
    (hlive : (w.handle ref.handle).retired = false)
    (hserved : ¬(ref.layout = .sharded ∧ db.layout = .flat))
    (hfile : fileAt? w.store (w.handle ref.handle).path.components = some content)
    (hne : (w.handle ref.handle).path.components ≠
      (db.naming.path ref.layout .temp ref.id).components) :
    ∃ store, v.unlink db w =
      .ok (v.withFile { ref with owner := .temp, handle := w.handles.length }) { w with
        store
        handles := w.handles.modify ref.handle Handle.retire ++
          [.new (db.naming.path ref.layout .temp ref.id) .temp] } ∧
      Moves (w.handle ref.handle).path.components
        (db.naming.path ref.layout .temp ref.id).components w.store store := by
  obtain ⟨s₁, hdelete, -, helse⟩ := delete_ok (db.naming.path ref.layout .temp ref.id) w.store
  rw [← helse _ hne] at hfile
  obtain ⟨store, hrun, hmoves⟩ := relocate_ok (w := { w with store := s₁ }) ref.handle true
    (fun handle => v.withFile { ref with owner := .temp, handle }) hfile hne
  refine ⟨store, ?_, ?_, hmoves.left, fun r hr hr' => ?_⟩
  · rw [unlink_linked hcontent howner hlive hserved, Step.bind_ok (World.onStore_ok hdelete)]
    exact hrun
  · rw [hmoves.there]
    exact helse _ hne
  · rw [hmoves.elsewhere r hr hr']
    exact helse r hr'

/-- A file that is closed is gone, and its handle is retired. -/
theorem close_live (hcontent : v.content = .file ref) (hlive : (w.handle ref.handle).retired = false) :
    ∃ store, v.close w = .ok () { w with
        store
        handles := w.handles.modify ref.handle Handle.retire } ∧
      Changes (w.handle ref.handle).path.components none w.store store := by
  obtain ⟨store, hdelete, hgone, helse⟩ := delete_ok (w.handle ref.handle).path w.store
  refine ⟨store, ?_, hgone, helse⟩
  rw [close_file hcontent hlive, Step.bind_ok (World.onStore_ok hdelete)]
  rfl

/-- Letting go of a value works, and gives a retired handle no file back. -/
theorem drop_ok (hknown : ∀ ref, v.content = .file ref → w.Knows ref.handle) :
    ∃ w', v.drop w = .ok () w' ∧ ∀ ref, v.content = .file ref →
      (w'.handle ref.handle).retired = (w.handle ref.handle).retired := by
  unfold drop
  cases hcontent : v.content with
  | inline data stamp =>
    simp only [file?, hcontent]
    refine ⟨w, rfl, ?_⟩
    rintro ref ⟨⟩
  | file ref =>
    simp only [file?, hcontent]
    have hk := hknown ref hcontent
    by_cases hlast : (w.handle ref.handle).Discards
    · obtain ⟨store, hrelease, -, -⟩ := World.release_discards hk hlast
      refine ⟨_, hrelease, fun ref' heq => ?_⟩
      cases heq
      rw [World.handle_modify rfl hk, if_pos rfl]
      rfl
    · refine ⟨_, World.release_keeps hk hlast, fun ref' heq => ?_⟩
      cases heq
      rw [World.handle_modify rfl hk, if_pos rfl]
      rfl

/-- The kinds of text that a value without a file is made from are measured right. -/
theorem inline_whole {kind : Kind} {data : Bytes} (h : inline kind data = .ok v) :
    v.inlineBytes? = some data ∧ Held.Whole ⟨v, data⟩ := by
  have hmeasure : ∀ (k : Kind) (stamp : Option TableId), (k.allUnits data).flatten = data →
      Held.Whole ⟨{ kind := k, precision := (k.allUnits data).length,
                    content := .inline data stamp }, data⟩ := by
    intro k stamp hflat data' stamp' hcontent
    cases hcontent
    have hunits : k.units (k.allUnits data).length data = k.allUnits data := by
      rw [Kind.units_eq_take, List.take_length]
    refine ⟨?_, ?_⟩
    · show (k.units (k.allUnits data).length data).length = (k.allUnits data).length
      rw [hunits]
    · show (k.units (k.allUnits data).length data).flatten = data
      rw [hunits, hflat]
  cases kind with
  | binary =>
    cases h
    have hflat := (Kind.flatten_allUnits_iff .binary data).2 nofun
    rw [← Kind.length_allUnits_binary]
    exact ⟨rfl, hmeasure .binary none hflat⟩
  | character =>
    simp only [inline] at h
    split at h
    next => cases h
    next hdefect =>
      cases h
      have hflat := (Kind.flatten_allUnits_iff .character data).2 fun _ => hdefect
      have hlength : (Kind.character.allUnits data).length = Kind.character.count data :=
        Kind.length_allUnits fun _ => hdefect
      rw [show Utf8.characterCount data = _ from hlength.symm]
      exact ⟨rfl, hmeasure .character none hflat⟩

/-- A value that was just made has no file, or a temporary one of its own. -/
theorem create_new [Codec] [Codec.Inverts] {p : List Component} {kind : Kind} {source : Source σ}
    {text : Bytes} {ending : Option StreamError} {declared : Option Nat} {w' : World σ}
    (hsource : source.Supplies p w.store text ending)
    (hp : ∀ {id}, p ≠ (db.naming.path db.layout .temp id).components)
    (h : create db kind source declared w = .ok v w') (hcontent : v.content = .file ref) :
    ref.owner = .temp ∧ ref.layout = db.layout ∧ (w'.handle ref.handle).retired = false := by
  rcases create_outcome db kind hsource declared with
    ⟨m, hrun⟩ | ⟨e, hrun⟩ | ⟨-, ⟨e, w₁, -, hrun⟩ | ⟨id, w₁, halloc, hin⟩⟩
  · rw [h] at hrun
    cases hrun
    cases hcontent
  · rw [h] at hrun
    cases hrun
  · rw [h] at hrun
    cases hrun
  · rcases hin hp with ⟨-, store, stored, hrun, -⟩ | ⟨-, e, store, hrun, -⟩
    · rw [h] at hrun
      cases hrun
      cases hcontent
      have hhandles := (db.allocate_sameFiles.1 halloc).handles_eq
      refine ⟨rfl, rfl, ?_⟩
      dsimp only
      rw [← hhandles, World.handle_append_new rfl]
    · rw [h] at hrun
      cases hrun

end Value

section Acquiring

variable {s : Session σ} {act : Action σ Value} {v : Value} {w : World σ} {origin : Bytes}

theorem Session.acquire_ok (hrun : act s.world = .ok v w) : s.acquire act origin = s.hold ⟨v, origin⟩ w := by
  unfold Session.acquire
  rw [hrun]

theorem Session.acquire_error {e : ObjectError} (hrun : act s.world = .error e w) :
    s.acquire act origin = { s with world := w } := by
  unfold Session.acquire
  rw [hrun]

end Acquiring

variable [Codec] [FileStore σ] [ReliableStore σ]

def Transitions (db : Database) : Session σ → Session σ → Prop := Relation.ReflTransGen (Transition db)

/-- Custody is kept through any number of elementary changes. -/
theorem Transitions.kept {n : Naming} {db : Database} {s s' : Session σ} (h : Transitions db s s')
    (hopen : db.Opened n) (hk : Kept db n s) : Kept db n s' := by
  induction h with
  | refl => exact hk
  | tail _ hlast ih => exact hlast.kept hopen ih

/-- What is delivered in one piece, if that is not empty. -/
theorem Source.supplies_bytes (s : σ) {data : Bytes} (h : data ≠ []) :
    Supplies [] s (.planned [.bytes data]) data none := by
  have hplan : Delivery.outcome [.bytes data] = (data, none) := by
    simp only [Delivery.outcome, List.append_nil]
  have hgenuine : .bytes [] ∉ [Delivery.bytes data] := by simpa using h.symm
  have hsupplies := Supplies.planned (p := []) (s := s) hgenuine
  rwa [hplan] at hsupplies

namespace Session

variable {n : Naming} {db : Database} {s : Session σ} {h : Held} {v : Value} {w : World σ}

/-- Making a value comes down to elementary changes, and so do the other operations below. -/
theorem create_transitions [Codec.Inverts] {p : List Component} {kind : Kind} {source : Source σ}
    {text : Bytes} {ending : Option StreamError} (declared : Option Nat)
    (hsource : source.Supplies p s.world.store text ending)
    (hfits : Value.NeedsFile db kind source declared s.world → db.Fits s.world)
    (hp : db.Fits s.world → ∀ {id w₁}, db.allocate s.world = .ok id w₁ →
      p ≠ (db.naming.path db.layout .temp id).components) :
    Transitions db s (s.acquire (Value.create db kind source declared)
      (kind.units (declared.getD Value.unlimited) text).flatten) := by
  rcases Value.create_outcome db kind hsource declared with
    ⟨m, hrun⟩ | ⟨e, hrun⟩ | ⟨hneeds, ⟨e, w₁, halloc, hrun⟩ | ⟨id, w₁, halloc, hin⟩⟩
  · rw [acquire_ok hrun]
    refine .single (.inline rfl ?_)
    intro data stamp hcontent
    cases hcontent
    refine ⟨?_, ?_⟩
    · exact congrArg List.length (Kind.units_flatten kind m text)
    · exact congrArg List.flatten (Kind.units_flatten kind m text)
  · rw [acquire_error hrun]
    exact .refl
  · rw [acquire_error hrun]
    exact .single (.exhausted (hfits hneeds) halloc)
  · have hfit := hfits hneeds
    rcases hin (hp hfit halloc) with
      ⟨-, store, stored, hrun, hfile, hstores, helse⟩ | ⟨-, e, store, hrun, hgone, helse, -⟩
    · rw [acquire_ok hrun]
      exact .single (.make hfit halloc rfl ⟨hfile, helse⟩ hstores)
    · rw [acquire_error hrun]
      exact .single (.lost hfit halloc ⟨hgone, helse⟩)

theorem clone_transitions (hk : Kept db n s) (hmem : h ∈ s.held) :
    Transitions db s (s.acquire h.value.clone h.origin) := by
  cases hcontent : h.value.content with
  | inline data stamp =>
    have hfile : h.value.file? = none := by rw [Value.file?, hcontent]
    rw [acquire_ok (Value.clone_inline hfile)]
    exact .single (.inline hfile (hk.whole h (hk.held_made hmem)))
  | file ref =>
    rw [acquire_ok (Value.clone_file hcontent)]
    exact .single (.share hmem hcontent)

/-- The file of a value that is held and not retired is there, under the name that says what it is.
-/
theorem stored_of_held (hk : Kept db n s) (hmem : h ∈ s.held) {ref : ValueFile}
    (hcontent : h.value.content = .file ref)
    (hlive : (s.world.handle ref.handle).retired = false) :
    (s.world.handle ref.handle).path = n.path ref.layout ref.owner ref.id ∧
      n.Proper ref.layout ref.id ∧ s.world.Owns ref.handle ∧
      ∃ stored, fileAt? s.world.store (s.world.handle ref.handle).path.components = some stored ∧
        Stores ref.compressed stored h.origin := by
  have hb := hk.backed ⟨h, hk.held_made hmem, hcontent, rfl⟩
  have howns := hk.owns hmem hcontent hlive
  refine ⟨hb.path_eq, hb.proper, howns, ?_⟩
  rw [hb.path_eq]
  exact hb.stored howns

omit [Codec] in
/-- Another owner means another name. -/
theorem path_ne_of_owner (hopen : db.Opened n) {ref : ValueFile} {owner : Owner}
    (hproper : n.Proper ref.layout ref.id)
    (hserved : ¬(ref.layout = .sharded ∧ db.layout = .flat)) (howner : ref.owner ≠ owner) :
    (n.path ref.layout ref.owner ref.id).components ≠
      (db.naming.path ref.layout owner ref.id).components := by
  rw [hopen.path_eq hserved]
  intro heq
  obtain ⟨-, hsame, -⟩ := Naming.path_injective hproper hproper heq
  exact howner hsame

/-- Linking moves a temporary file, copies the file of another table, or takes one more hold. -/
theorem link_transitions (hopen : db.Opened n) (hk : Kept db n s) (hmem : h ∈ s.held)
    (table : TableId)
    (hfits : ∀ ref owner, h.value.content = .file ref →
      (s.world.handle ref.handle).retired = false → ¬(ref.layout = .sharded ∧ db.layout = .flat) →
      ref.owner = .table owner → owner ≠ table → db.Fits s.world) :
    Transitions db s (s.acquire (h.value.link db table) h.origin) := by
  cases hcontent : h.value.content with
  | inline data stamp =>
    have hwhole := hk.whole h (hk.held_made hmem)
    rw [acquire_ok (Value.link_inline hcontent table)]
    split
    · exact .single (.inline (by rw [Value.file?, hcontent]) hwhole)
    · refine .single (.inline rfl fun data' stamp' hcontent' => ?_)
      cases hcontent'
      exact hwhole _ _ hcontent
  | file ref =>
    by_cases hlive : (s.world.handle ref.handle).retired = false
    case neg =>
      rw [acquire_error (Value.link_retired hcontent table (Bool.eq_true_of_not_eq_false hlive))]
      exact .refl
    by_cases hserved : ref.layout = .sharded ∧ db.layout = .flat
    case pos =>
      rw [acquire_error (Value.link_unserved hcontent table hlive hserved)]
      exact .refl
    obtain ⟨hpath, hproper, -, stored, hfile, hstores⟩ := stored_of_held hk hmem hcontent hlive
    have hlink := Value.link_served hcontent table hlive hserved
    cases howner : ref.owner with
    | temp =>
      have hdiffers : ref.owner ≠ .table table := by rw [howner]; rintro ⟨⟩
      have hne := path_ne_of_owner hopen hproper hserved hdiffers
      rw [← hpath] at hne
      obtain ⟨store, hrun, hmoves⟩ := Value.moveTo_ok h.value table hlive hfile hne
      rw [howner] at hlink
      rw [acquire_ok (hlink.trans hrun)]
      exact .single (.move hmem hcontent hlive hserved hdiffers hmoves)
    | table owner =>
      rw [howner] at hlink
      by_cases hsame : owner = table
      · simp only [if_pos hsame] at hlink
        rw [acquire_ok (hlink.trans (Value.clone_file hcontent))]
        exact .single (.share hmem hcontent)
      · simp only [if_neg hsame] at hlink
        have hfit := hfits ref owner hcontent hlive hserved howner hsame
        rcases Value.copyTo_ok db h.value table hlive hfile with
          ⟨e, w₁, halloc, hcopy⟩ | ⟨id, w₁, store, halloc, hcopy, hchanges⟩
        · rw [acquire_error (hlink.trans hcopy)]
          exact .single (.exhausted hfit halloc)
        · rw [acquire_ok (hlink.trans hcopy)]
          exact .single (.make hfit halloc rfl hchanges hstores)

/-- Unlinking clears the temporary name and moves the file there. -/
theorem unlink_transitions (hopen : db.Opened n) (hk : Kept db n s) (hmem : h ∈ s.held) :
    Transitions db s (s.acquire (h.value.unlink db) h.origin) := by
  cases hcontent : h.value.content with
  | inline data stamp =>
    rw [acquire_ok (Value.unlink_inline hcontent)]
    exact .single (.inline (by rw [Value.file?, hcontent]) (hk.whole h (hk.held_made hmem)))
  | file ref =>
    by_cases hlive : (s.world.handle ref.handle).retired = false
    case neg =>
      rw [acquire_error (Value.unlink_retired hcontent (Bool.eq_true_of_not_eq_false hlive))]
      exact .refl
    by_cases hserved : ref.layout = .sharded ∧ db.layout = .flat
    case pos =>
      rw [acquire_error (Value.unlink_unserved hcontent hlive hserved)]
      exact .refl
    by_cases howner : ref.owner = .temp
    · have hrun := Value.unlink_temp hcontent howner hlive hserved
      rw [acquire_ok (hrun.trans (Value.clone_file hcontent))]
      exact .single (.share hmem hcontent)
    · obtain ⟨hpath, hproper, -, stored, hfile, -⟩ := stored_of_held hk hmem hcontent hlive
      have hne := path_ne_of_owner hopen hproper hserved howner
      rw [← hpath] at hne
      obtain ⟨store, hrun, hmoves⟩ := Value.unlink_ok hcontent howner hlive hserved hfile hne
      rw [acquire_ok hrun]
      exact .single (.move hmem hcontent hlive hserved howner hmoves)

theorem close_transitions (hmem : h ∈ s.held) : Transitions db s (s.run h.value.close) := by
  cases hcontent : h.value.content with
  | inline data stamp =>
    unfold run
    rw [Value.close_inline hcontent]
    exact .refl
  | file ref =>
    by_cases hlive : (s.world.handle ref.handle).retired = false
    · obtain ⟨store, hrun, hchanges⟩ := Value.close_live hcontent hlive
      unfold run
      rw [hrun]
      exact .single (.close hmem hcontent hlive hchanges)
    · unfold run
      rw [Value.close_retired hcontent (Bool.eq_true_of_not_eq_false hlive)]
      exact .refl

/-- With the last holder the file of an armed handle goes away. -/
theorem drop_transitions (hk : Kept db n s) {i : Nat} (hi : s.held[i]? = some h) :
    Transitions db s { s.run h.value.drop with held := s.held.eraseIdx i } := by
  cases hcontent : h.value.content with
  | inline data stamp =>
    have hfile : h.value.file? = none := by rw [Value.file?, hcontent]
    unfold run
    rw [Value.drop_inline hfile]
    exact .single (.letGo hi hfile)
  | file ref =>
    have hmade := hk.held_made (List.mem_of_getElem? hi)
    have hknown := (hk.backed ⟨h, hmade, hcontent, rfl⟩).known
    unfold run
    rw [Value.drop_file hcontent]
    by_cases hlast : (s.world.handle ref.handle).Discards
    · obtain ⟨store, hrelease, hgone, helse⟩ := World.release_discards hknown hlast
      rw [hrelease]
      exact .single (.release hi hcontent (fun h => absurd hlast h) fun _ => ⟨hgone, helse⟩)
    · rw [World.release_keeps hknown hlast]
      exact .single (.release hi hcontent (fun _ => rfl) fun h => absurd h hlast)

theorem convert_transitions [Codec.Inverts] (hopen : db.Opened n) (hk : Kept db n s) (hmem : h ∈ s.held)
    (kind : Kind) (hfits : ∀ r w, h.value.kind ≠ kind → h.value.reader s.world = .ok r w →
      Value.NeedsFile db kind (.stored r) none w → db.Fits s.world) :
    Transitions db s (s.acquire (h.value.convert db kind)
      (if h.value.kind = kind then h.origin else (kind.units Value.unlimited h.text).flatten)) := by
  by_cases hkind : h.value.kind = kind
  · have hrun : (h.value.convert db kind : Action σ Value) = h.value.clone := by
      unfold Value.convert
      rw [if_pos hkind]
    simp only [if_pos hkind, hrun]
    exact clone_transitions hk hmem
  simp only [if_neg hkind]
  have hconvert : (h.value.convert db kind : Action σ Value) =
      h.value.reader >>= fun r => Value.create db kind (.stored r) none := by
    unfold Value.convert
    rw [if_neg hkind]
  have hcreate : ∀ {r : ContentReader σ}, h.value.reader s.world = .ok r s.world →
      s.acquire (h.value.convert db kind) =
        s.acquire (Value.create db kind (.stored r) none) := by
    intro r hreader
    funext origin
    unfold acquire
    rw [hconvert, Step.bind_ok hreader]
  cases hcontent : h.value.content with
  | inline data stamp =>
    have hreader := Value.reader_inline (w := s.world) hcontent
    rw [hcreate hreader, Held.text_inline hcontent]
    exact create_transitions (p := []) none (.stored (.inline data)) (hfits _ _ hkind hreader)
      fun _ _ _ _ => db.naming.nil_ne_components_path _ _ _
  | file ref =>
    by_cases hlive : (s.world.handle ref.handle).retired = false
    case neg =>
      have hretired := Bool.eq_true_of_not_eq_false hlive
      have hrun : h.value.convert db kind s.world =
          .error (.useAfterClose (s.world.handle ref.handle).path) s.world := by
        rw [hconvert]
        refine Step.bind_error ?_
        unfold Value.reader
        simp only [hcontent]
        rw [Step.bind_error (World.livePath_error hretired)]
      rw [acquire_error hrun]
      exact .refl
    obtain ⟨hpath, hproper, howns, stored, hfile, hstores⟩ := stored_of_held hk hmem hcontent hlive
    obtain ⟨r, hreader, hholds, -⟩ := Value.reader_ok hcontent hlive hfile hstores
    rw [hcreate hreader, Held.text_file hcontent]
    refine create_transitions none (.stored hholds) (hfits _ _ hkind hreader) ?_
    intro hfit id w₁ halloc heq
    obtain ⟨hproper', hfresh, -⟩ := hk.fresh hopen hfit halloc
    rw [hpath, hopen.path_new] at heq
    obtain ⟨hlayout, -, hid⟩ := Naming.path_injective hproper hproper' heq
    exact hfresh ⟨h, hk.held_made hmem, hcontent, rfl⟩ howns hlayout hid

/-- A value that was just made can be linked without a search for an id. -/
theorem link_new (hopen : db.Opened n) (hk : Kept db n s) (hmem : h ∈ s.held)
    (hnew : ∀ ref, h.value.content = .file ref →
      ref.owner = .temp ∧ ref.layout = db.layout ∧ (s.world.handle ref.handle).retired = false)
    (table : TableId) :
    ∃ linked w, h.value.link db table s.world = .ok linked w ∧
      ∀ ref, h.value.content = .file ref → (w.handle ref.handle).retired = true := by
  cases hcontent : h.value.content with
  | inline data stamp =>
    exact ⟨_, _, Value.link_inline hcontent table, fun _ heq => nomatch heq⟩
  | file ref =>
    obtain ⟨howner, hlayout, hlive⟩ := hnew ref hcontent
    have hserved : ¬(ref.layout = .sharded ∧ db.layout = .flat) := by
      rw [hlayout]
      exact db.serves_own
    obtain ⟨hpath, hproper, -, stored, hfile, -⟩ := stored_of_held hk hmem hcontent hlive
    have hdiffers : ref.owner ≠ .table table := by rw [howner]; nofun
    have hne := path_ne_of_owner hopen hproper hserved hdiffers
    rw [← hpath] at hne
    obtain ⟨store, hrun, -⟩ := Value.moveTo_ok h.value table hlive hfile hne
    have hlink := Value.link_served hcontent table hlive hserved
    rw [howner] at hlink
    refine ⟨_, _, hlink.trans hrun, fun ref' heq => ?_⟩
    cases heq
    have hknown := (hk.backed ⟨h, hk.held_made hmem, hcontent, rfl⟩).known
    rw [World.handle_modify_append rfl hknown hknown, if_pos rfl]
    rfl

/-- A value that was made, linked and let go again leaves the linked one behind. -/
theorem relink_transitions (hopen : db.Opened n) {first : Held} (hk : Kept db n (s.hold first w))
    (hfirst : s.held ⊆ s.made)
    (hnew : ∀ ref, first.value.content = .file ref →
      ref.owner = .temp ∧ ref.layout = db.layout ∧ (w.handle ref.handle).retired = false)
    (table : TableId) :
    ∃ linked w₂ w₃, first.value.link db table w = .ok linked w₂ ∧
      first.value.drop w₂ = .ok () w₃ ∧
      Transitions db (s.hold first w) (s.hold ⟨linked, first.origin⟩ w₃) := by
  have hmem : first ∈ (s.hold first w).held := List.mem_append_right _ (List.mem_singleton_self _)
  obtain ⟨linked, w₂, hlink, hretired⟩ := link_new hopen hk hmem hnew table
  have hlinked := link_transitions hopen hk hmem table fun ref owner hcontent _ _ howner _ => by
    rw [(hnew ref hcontent).1] at howner
    cases howner
  rw [acquire_ok hlink] at hlinked
  have hk₂ := hlinked.kept hopen hk
  have hi : ((s.hold first w).hold ⟨linked, first.origin⟩ w₂).held[s.held.length]? = some first := by
    simp [hold]
  obtain ⟨w₃, hdrop, hsame⟩ := Value.drop_ok (v := first.value) (w := w₂) fun ref hcontent =>
    (hk₂.backed ⟨first, hk₂.held_made (List.mem_of_getElem? hi), hcontent, rfl⟩).known
  refine ⟨linked, w₂, w₃, hlink, hdrop, hlinked.trans ?_⟩
  have hdropped := drop_transitions hk₂ hi
  have hheld : ((s.hold first w).hold ⟨linked, first.origin⟩ w₂).held.eraseIdx s.held.length =
      s.held ++ [⟨linked, first.origin⟩] := by
    simp [hold, List.eraseIdx_append_of_length_le]
  rw [hheld] at hdropped
  unfold run at hdropped
  rw [show first.value.drop ((s.hold first w).hold ⟨linked, first.origin⟩ w₂).world = _ from hdrop]
    at hdropped
  let last : Held := ⟨linked, first.origin⟩
  have hmade : s.made ++ [last] ⊆ s.made ++ [first] ++ [last] := by
    intro h' hmem'
    rcases List.mem_append.1 hmem' with hold | hnew
    · exact List.mem_append_left _ (List.mem_append_left _ hold)
    · exact List.mem_append_right _ hnew
  have hheld' : s.held ++ [last] ⊆ s.made ++ [last] :=
    Session.hold_subset (w := w) hfirst
  refine hdropped.tail (Transition.forget hmade hheld' ?_)
  -- The value that is gone has lost its file to the linked one.
  rintro ref origin ⟨h', hmem', hcontent, horigin⟩ howns
  rcases List.mem_append.1 hmem' with hold | hlast
  · rcases List.mem_append.1 hold with hold | hgone
    · exact ⟨h', List.mem_append_left _ hold, hcontent, horigin⟩
    · obtain rfl := List.mem_singleton.1 hgone
      refine absurd howns (World.not_owns_of_retired ?_)
      exact (hsame ref hcontent).trans (hretired ref hcontent)
  · exact ⟨h', List.mem_append_right _ hlast, hcontent, horigin⟩

/-- A spill makes a file, hands it over and lets go of what it has made. -/
theorem spill_transitions [Codec.Inverts] (hopen : db.Opened n) (hk : Kept db n s) (hmem : h ∈ s.held)
    (hfits : ∀ data stamp, h.value.content = .inline data stamp →
      db.settings.inlineThreshold < h.value.precision →
      Value.NeedsFile db h.value.kind (.planned [.bytes data]) (some h.value.precision) s.world →
      db.Fits s.world) :
    Transitions db s (s.acquire (h.value.spill db) h.text) := by
  have hmade := hk.held_made hmem
  cases hcontent : h.value.content with
  | file ref =>
    rw [acquire_ok ((Value.spill_file hcontent).trans (Value.clone_file hcontent)),
      Held.text_file hcontent]
    exact .single (.share hmem hcontent)
  | inline data stamp =>
    obtain ⟨hlength, hflat⟩ := hk.whole h hmade _ _ hcontent
    have hfile : h.value.file? = none := by rw [Value.file?, hcontent]
    rw [Held.text_inline hcontent]
    by_cases hsmall : h.value.precision ≤ db.settings.inlineThreshold
    · rw [acquire_ok (Value.spill_small hcontent hsmall)]
      exact .single (.inline hfile (hk.whole h hmade))
    -- The content is delivered in one piece, which is not empty since it has units.
    have hlarge := Nat.lt_of_not_le hsmall
    have hdata : data ≠ [] := by
      intro hnil
      rw [hnil, Kind.units_nil, List.length_nil] at hlength
      omega
    have hsource := Source.supplies_bytes s.world.store hdata
    have hp : ∀ {id}, [] ≠ (db.naming.path db.layout .temp id).components :=
      db.naming.nil_ne_components_path _ _ _
    have hcreated := create_transitions (some h.value.precision) hsource
      (hfits _ _ hcontent hlarge) fun _ _ _ _ => hp
    simp only [Option.getD_some, hflat] at hcreated
    cases hrun : Value.create db h.value.kind (.planned [.bytes data])
        (some h.value.precision) s.world with
    | error e w =>
      rw [acquire_error hrun] at hcreated
      rw [Value.spill_eq hcontent hsmall, acquire_error (Step.bind_error hrun)]
      exact hcreated
    | ok first w =>
      rw [acquire_ok hrun] at hcreated
      cases stamp with
      | none =>
        have hend : h.value.spill db s.world = .ok first w := by
          rw [Value.spill_eq hcontent hsmall]
          exact Step.bind_ok hrun
        rw [acquire_ok hend]
        exact hcreated
      | some table =>
        have hnew := fun ref (hcontent : first.content = .file ref) =>
          Value.create_new hsource hp hrun hcontent
        obtain ⟨linked, w₂, w₃, hlink, hdrop, hrest⟩ :=
          relink_transitions hopen (hcreated.kept hopen hk) hk.held_made hnew table
        have hend : h.value.spill db s.world = .ok linked w₃ := by
          rw [Value.spill_eq hcontent hsmall]
          refine (Step.bind_ok hrun).trans ?_
          simp only [Value.handOver, hlink, hdrop]
        rw [acquire_ok hend]
        exact hcreated.trans hrest

/-- Every operation is a series of elementary changes. -/
theorem step_transitions [Codec.Inverts] (hopen : db.Opened n) (hk : Kept db n s) (e : Event)
    (hfits : s.Allocates db e → db.Fits s.world) : Transitions db s (s.step db e) := by
  have hheld : ∀ (i : Nat) (act : Held → Session σ),
      (∀ h, s.held[i]? = some h → Transitions db s (act h)) → Transitions db s (s.onHeld i act) := by
    intro i act hact
    unfold onHeld
    split
    next h hi => exact hact h hi
    next => exact .refl
  cases e with
  | create kind plan declared =>
    exact create_transitions (p := []) declared (.planned plan.genuine) hfits fun _ _ _ _ =>
      db.naming.nil_ne_components_path _ _ _
  | inline kind data =>
    simp only [step]
    split
    next v hrun =>
      obtain ⟨hbytes, hwhole⟩ := Value.inline_whole hrun
      exact .single (.inline (Value.file?_of_inlineBytes? hbytes) hwhole)
    next => exact .refl
  | clone i => exact hheld i _ fun h hi => clone_transitions hk (List.mem_of_getElem? hi)
  | link i table =>
    refine hheld i _ fun h hi => link_transitions hopen hk (List.mem_of_getElem? hi) table ?_
    intro ref owner hcontent hlive hserved howner hne
    exact hfits ⟨h, ref, owner, hi, hcontent, hlive, hserved, howner, hne⟩
  | unlink i => exact hheld i _ fun h hi => unlink_transitions hopen hk (List.mem_of_getElem? hi)
  | close i => exact hheld i _ fun h hi => close_transitions (List.mem_of_getElem? hi)
  | convert i kind =>
    refine hheld i _ fun h hi => convert_transitions hopen hk (List.mem_of_getElem? hi) kind ?_
    intro r w hkind hreader hneeds
    exact hfits ⟨h, r, w, hi, hkind, hreader, hneeds⟩
  | spill i =>
    refine hheld i _ fun h hi => spill_transitions hopen hk (List.mem_of_getElem? hi) ?_
    intro data stamp hcontent hlarge hneeds
    exact hfits ⟨h, data, stamp, hi, hcontent, hlarge, hneeds⟩
  | drop i => exact hheld i _ fun h hi => drop_transitions hk hi

/-- Custody is kept over whole runs. -/
theorem Reaches.kept [Codec.Inverts] {first : Session σ} (h : Reaches db first s) (hopen : db.Opened n)
    (hk : Kept db n first) : Kept db n s := by
  induction h with
  | start => exact hk
  | step e _ hfits ih => exact (step_transitions hopen ih e hfits).kept hopen ih

end Session

end LargeObjects
