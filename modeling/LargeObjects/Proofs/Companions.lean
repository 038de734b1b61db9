import Mathlib
import LargeObjects.Proofs.Filling
import LargeObjects.Proofs.Operations
import LargeObjects.Proofs.Peers
import LargeObjects.Proofs.Titles

/-! Operations on values in two processes with the same files. They end with the same value or the same
failure and leave the same files, if what looks for an id finds the directories of the tree alike. -/
namespace LargeObjects

open Step

structure Database.Suits (db : Database) (g : Ground) (title : Name) : Prop where
  on : db.naming.On g title
  searches : db.Searches
  radix : 2 ≤ db.naming.fanout

def Database.ListedAlike (db : Database) (s : MemoryStore) (d : Disk) : Prop :=
  db.layout = .sharded → ∀ id, ListsAlike s d (db.naming.shardDirectory id)

def Database.Spares (db : Database) (g : Ground) (S : Nat → Prop) (w : World MemoryStore) (d : Disk) :
    Prop :=
  ∀ {id w₁ names m}, db.allocate w = .ok id w₁ →
    g.Spells (db.naming.path db.layout .temp id) names → S m → d.numberAt? g.start names ≠ some m

theorem Database.Searches.scansTree {db : Database} (h : db.Searches) : db.ScansTree := by
  rintro maxProbes hscan
  rcases h with ⟨-, hlayout⟩ | ⟨⟨place, hcounter⟩, -⟩
  · exact hlayout
  · rw [hcounter] at hscan
    cases hscan

namespace Peers

variable {g : Ground} {w : World MemoryStore} {w' : World Disk} {path target : Path}

theorem rename (h : Peers g w w') (hpath : g.Holds path) (htarget : g.Holds target) :
    Agree (Peers g) Eq (World.onStore (FileStore.rename path target) w)
      (World.onStore (FileStore.rename path target) w') := by
  obtain ⟨names, hseat, hspells⟩ := hpath
  obtain ⟨names', hseat', hspells'⟩ := htarget
  exact h.onStore (h.twins.rename hseat hspells hseat' hspells')

theorem copy (h : Peers g w w') (hpath : g.Holds path) (htarget : g.Holds target)
    (hne : path.components ≠ target.components) :
    Agree (Peers g) Eq (World.onStore (FileStore.copy path target) w)
      (World.onStore (FileStore.copy path target) w') := by
  obtain ⟨names, hseat, hspells⟩ := hpath
  obtain ⟨names', hseat', hspells'⟩ := htarget
  refine h.onStore (h.twins.copy hseat hspells hseat' hspells' ?_)
  rintro rfl
  exact hne (hspells.components_eq.trans hspells'.components_eq.symm)

end Peers

namespace Value

variable {g : Ground} {db : Database} {title : Name} {w : World MemoryStore} {w' : World Disk}

/-- An empty file is open in both stores, and nothing has been written to it. -/
theorem filling_of_create {s : MemoryStore} {d : Disk} {p : Path} {names : List Name}
    (h : Twins g s d) (hseat : g.Seat names) (hp : g.Spells p names) : ∃ d',
      FileStore.create p d = .ok d.writers.length d' ∧
      Filling g names d.writers.length ((d.numberAt? g.start names).getD d.contents.length)
        (s.put p []) d' ∧
      ∀ m < d.contents.length, d.numberAt? g.start names ≠ some m → d'.content m = d.content m := by
  obtain ⟨n, d', hcreate, hopened, hwriters⟩ := h.houses.create_ok hseat hp
  rw [← hopened.number_eq]
  have hlt := hopened.edited.houses.number_lt hopened.edited.here
  have hwriter : d'.writers[d.writers.length]? = some { number := n } := by
    rw [hwriters, List.getElem?_concat_length]
  have hstands : d'.Stands d.writers.length n [] [] := ⟨hwriter, hopened.content_self, hlt⟩
  have hflush : d'.flushHeld d.writers.length = d' := by
    rw [Disk.flushHeld, hstands.heldBy_eq]
    exact if_pos rfl
  have htwins := h.put hseat hp hopened.edited fun m hm hne => hopened.content_ne hm hne
  rw [hopened.content_self] at htwins
  refine ⟨d', hcreate, ⟨?_, hopened.edited.here, _, _, hstands⟩, fun m hm hother => ?_⟩
  · rw [hflush]
    exact htwins
  · refine hopened.content_ne hm ?_
    rintro rfl
    rw [hopened.number_eq] at hm hother
    cases hnumber : d.numberAt? g.start names with
    | none =>
      rw [hnumber] at hm
      exact absurd hm (Nat.lt_irrefl _)
    | some m =>
      rw [hnumber] at hother
      exact hother rfl

/-- A temporary file that is open for writing. -/
theorem openTemp_run {σ : Type} [FileStore σ] {db : Database} {v v₁ : World σ} {id : ObjectId}
    {writer : FileStore.Writer σ} {store : σ} (hallocate : db.allocate v = .ok id v₁)
    (hcreate : FileStore.create (db.naming.path db.layout .temp id) v₁.store = .ok writer store) :
    db.openTemp v = .ok (id, v₁.handles.length, writer)
      { v₁ with
        store
        handles := v₁.handles ++ [{ path := db.naming.path db.layout .temp id, armed := true }] } := by
  unfold Database.openTemp
  rw [bind_ok hallocate, bind_ok (World.onStore_ok hcreate)]
  rfl

/-- Both have one more holder of a value. -/
theorem clone_agree (h : Peers g w w') (v : Value) : Agree (Peers g) Eq (v.clone w) (v.clone w') := by
  cases hcontent : v.content with
  | inline data stamp =>
    have hfile : v.file? = none := by rw [file?, hcontent]
    rw [clone_inline hfile, clone_inline hfile]
    exact .ok rfl h
  | file ref =>
    have hretain := h.retain ref.handle
    rw [clone_file hcontent, clone_file hcontent]
    cases hretain with
    | ok _ h' => exact .ok rfl h'

theorem drop_agree (h : Peers g w w') (v : Value) : Agree (Peers g) Eq (v.drop w) (v.drop w') := by
  cases hcontent : v.content with
  | inline data stamp =>
    have hfile : v.file? = none := by rw [file?, hcontent]
    rw [drop_inline hfile, drop_inline hfile]
    exact .ok rfl h
  | file ref =>
    rw [drop_file hcontent, drop_file hcontent]
    exact h.release ref.handle

/-- Both give a file a new name and a handle there. -/
theorem relocate_agree (h : Peers g w w') {path target : Path} (hpath : g.Holds path)
    (htarget : g.Holds target) (k : HandleId) (armed : Bool) (give : HandleId → Value) :
    Agree (Peers g) Eq
      ((do
        World.onStore (FileStore.rename path target)
        World.retire k
        return give (← World.newHandle target armed) : Action MemoryStore Value) w)
      ((do
        World.onStore (FileStore.rename path target)
        World.retire k
        return give (← World.newHandle target armed) : Action Disk Value) w') := by
  refine (h.rename hpath htarget).bind ?_
  rintro - - v v' - hrenamed
  refine (hrenamed.retire k).bind ?_
  rintro - - u u' - hretired
  refine (hretired.newHandle htarget armed).bind ?_
  rintro handle - x x' rfl hnew
  exact .ok rfl hnew

theorem moveTo_agree (h : Peers g w w') (hsuits : db.Suits g title) (v : Value) (ref : ValueFile)
    (table : TableId) : Agree (Peers g) Eq (moveTo db v ref table w) (moveTo db v ref table w') := by
  unfold moveTo
  refine (h.livePath ref.handle).bind ?_
  rintro path - u u' ⟨rfl, rfl, hlive⟩ hu
  refine relocate_agree hu ?_ (hsuits.on.holds _ _ _) _ _ fun handle =>
    v.withFile { ref with owner := .table table, handle }
  exact h.holds_of_live hlive

/-- A copy goes to another name than that of the file, so both have the file and the copy. -/
theorem copyTo_agree (h : Peers g w w') (hsuits : db.Suits g title)
    (hlisted : db.ListedAlike w.store w'.store) (v : Value) {ref : ValueFile}
    (hpath : (w.handle ref.handle).path = db.naming.path ref.layout ref.owner ref.id)
    {table : TableId} (howner : ref.owner ≠ .table table) :
    Agree (Peers g) Eq (copyTo db v ref table w) (copyTo db v ref table w') := by
  unfold copyTo
  cases hretired : (w.handle ref.handle).retired with
  | true =>
    rw [bind_error (World.livePath_error hretired),
      bind_error (World.livePath_error (h.handle_eq ref.handle ▸ hretired)), ← h.handle_eq]
    exact .error h
  | false =>
    rw [bind_ok (World.livePath_ok hretired),
      bind_ok (World.livePath_ok (h.handle_eq ref.handle ▸ hretired)), ← h.handle_eq, hpath]
    have hallocate := h.allocate hsuits.on hsuits.searches hlisted
    refine (hallocate.mono (fun hat => hat.peers) fun hid => hid).bind ?_
    rintro id _ u u' rfl hu
    have htarget := hsuits.on.holds db.layout (.table table) id
    have hcopy := hu.copy (hsuits.on.holds ref.layout ref.owner ref.id) htarget fun hsame =>
      howner (Naming.path_inj hsuits.radix hsame).2.1
    dsimp only
    generalize World.onStore (FileStore.copy _ (db.naming.path db.layout (.table table) id)) u = r
      at hcopy ⊢
    generalize World.onStore (FileStore.copy _ (db.naming.path db.layout (.table table) id)) u' = r'
      at hcopy ⊢
    cases hcopy with
    | ok _ hcopied =>
      have hnew := hcopied.newHandle htarget false
      dsimp only
      generalize World.newHandle (σ := MemoryStore) _ false _ = r at hnew ⊢
      generalize World.newHandle (σ := Disk) _ false _ = r' at hnew ⊢
      cases hnew with
      | ok hhandle hnew =>
        subst hhandle
        exact .ok rfl hnew
      | error hnew => exact .error hnew
    | error hfailed =>
      have hdiscard := hfailed.discard htarget
      dsimp only
      generalize World.discard (σ := MemoryStore) _ _ = r at hdiscard ⊢
      generalize World.discard (σ := Disk) _ _ = r' at hdiscard ⊢
      cases hdiscard with
      | ok _ hleft => exact .error hleft
      | error hleft => exact .error hleft

/-- Both make a table the owner, or refuse alike. -/
theorem link_agree (h : Peers g w w') (hsuits : db.Suits g title) {v : Value}
    (hcalls : w.Calls db.naming v) (table : TableId)
    (hlisted : ∀ ref owner, v.content = .file ref → (w.handle ref.handle).retired = false →
      ¬(ref.layout = .sharded ∧ db.layout = .flat) → ref.owner = .table owner → owner ≠ table →
      db.ListedAlike w.store w'.store) :
    Agree (Peers g) Eq (v.link db table w) (v.link db table w') := by
  cases hcontent : v.content with
  | inline data stamp =>
    rw [link_inline hcontent, link_inline hcontent]
    exact .ok rfl h
  | file ref =>
    have hsame := h.handle_eq ref.handle
    cases hretired : (w.handle ref.handle).retired with
    | true =>
      rw [link_retired hcontent table hretired, link_retired hcontent table (hsame ▸ hretired), hsame]
      exact .error h
    | false =>
      by_cases hrefused : ref.layout = .sharded ∧ db.layout = .flat
      · rw [link_unserved hcontent table hretired hrefused,
          link_unserved hcontent table (hsame ▸ hretired) hrefused]
        exact .error h
      rw [link_served hcontent table hretired hrefused,
        link_served hcontent table (hsame ▸ hretired) hrefused]
      cases howner : ref.owner with
      | temp => exact moveTo_agree h hsuits v ref table
      | table owner =>
        dsimp only
        by_cases htable : owner = table
        · rw [if_pos htable, if_pos htable]
          exact clone_agree h v
        · rw [if_neg htable, if_neg htable]
          refine copyTo_agree h hsuits (hlisted ref owner hcontent hretired hrefused howner htable) v
            (hcalls ref hcontent).2 ?_
          rw [howner]
          exact fun heq => htable (Owner.table.inj heq)

theorem unlink_agree (h : Peers g w w') (hsuits : db.Suits g title) (v : Value) :
    Agree (Peers g) Eq (v.unlink db w) (v.unlink db w') := by
  cases hcontent : v.content with
  | inline data stamp =>
    rw [unlink_inline hcontent, unlink_inline hcontent]
    exact .ok rfl h
  | file ref =>
    have hsame := h.handle_eq ref.handle
    cases hretired : (w.handle ref.handle).retired with
    | true =>
      rw [unlink_retired hcontent hretired, unlink_retired hcontent (hsame ▸ hretired), hsame]
      exact .error h
    | false =>
      by_cases hrefused : ref.layout = .sharded ∧ db.layout = .flat
      · rw [unlink_unserved hcontent hretired hrefused,
          unlink_unserved hcontent (hsame ▸ hretired) hrefused]
        exact .error h
      by_cases howner : ref.owner = .temp
      · rw [unlink_temp hcontent howner hretired hrefused,
          unlink_temp hcontent howner (hsame ▸ hretired) hrefused]
        exact clone_agree h v
      · rw [unlink_linked hcontent howner hretired hrefused,
          unlink_linked hcontent howner (hsame ▸ hretired) hrefused, ← hsame]
        have htemp := hsuits.on.holds ref.layout .temp ref.id
        refine (h.delete htemp).bind ?_
        rintro - - u u' - hu
        exact relocate_agree hu (h.holds_of_live hretired) htemp _ _ fun handle =>
          v.withFile { ref with owner := .temp, handle }

theorem close_agree (h : Peers g w w') (v : Value) : Agree (Peers g) Eq (v.close w) (v.close w') := by
  cases hcontent : v.content with
  | inline data stamp =>
    rw [close_inline hcontent, close_inline hcontent]
    exact .ok rfl h
  | file ref =>
    have hsame := h.handle_eq ref.handle
    cases hretired : (w.handle ref.handle).retired with
    | true =>
      rw [close_retired hcontent hretired, close_retired hcontent (hsame ▸ hretired)]
      exact .ok rfl h
    | false =>
      rw [close_file hcontent hretired, close_file hcontent (hsame ▸ hretired), ← hsame]
      refine (h.delete (h.holds_of_live hretired)).bind ?_
      rintro - - u u' - hu
      exact hu.retire ref.handle

/-- Where the temporary file of an id that is found is not there yet, it is not one that is read. -/
theorem spares_of_roomy (h : Peers g w w') (hsuits : db.Suits g title) (hroomy : db.Roomy w)
    {S : Nat → Prop} (hold : ∀ m, S m → ∃ names, g.Seat names ∧
      w'.store.numberAt? g.start names = some m) : db.Spares g S w w'.store := by
  intro id w₁ names m hallocate hspells hm hnumber
  obtain ⟨names', hseat', hnumber'⟩ := hold m hm
  obtain ⟨names₀, hseat₀, hspells₀⟩ := hsuits.on.holds db.layout .temp id
  obtain rfl : names₀ = names :=
    Ground.place_injective (hspells₀.components_eq.symm.trans hspells.components_eq)
  have hfree : w.store.at? (db.naming.path db.layout .temp id).components = none :=
    Database.temp_free_of_allocate hsuits.searches.scansTree hroomy hallocate
  rw [h.twins.at?_eq hseat₀ hspells₀, hnumber] at hfree
  cases hfree

/-- The new value goes to a table and is let go, in both. -/
theorem handOver_agree (h : Peers g w w') (hsuits : db.Suits g title) {first : Value}
    (hcalls : w.Calls db.naming first) (howner : ∀ ref, first.content = .file ref → ref.owner = .temp)
    (table : TableId) : Agree (Peers g) Eq (handOver db first table w) (handOver db first table w') := by
  have hlink := link_agree h hsuits hcalls table fun ref owner hcontent _ _ hlinked _ => by
    rw [howner ref hcontent] at hlinked
    cases hlinked
  unfold handOver
  generalize first.link db table w = r at hlink ⊢
  generalize first.link db table w' = r' at hlink ⊢
  cases hlink with
  | ok hlinked hu =>
    subst hlinked
    rename_i u u'
    have hdrop := drop_agree hu first
    dsimp only
    generalize first.drop u = r at hdrop ⊢
    generalize first.drop u' = r' at hdrop ⊢
    cases hdrop with
    | ok _ hx => exact .ok rfl hx
    | error hx => exact .error hx
  | error hu =>
    rename_i u u'
    have hdrop := drop_agree hu first
    dsimp only
    generalize first.drop u = r at hdrop ⊢
    generalize first.drop u' = r' at hdrop ⊢
    cases hdrop with
    | ok _ hx => exact .error hx
    | error hx => exact .error hx

variable [Codec] {intake : Intake MemoryStore} {intake' : Intake Disk}

/-- A value with a file of its own comes to be in both, or fails to for the same reason. -/
theorem createInFile_agree (h : Peers g w w') (hsuits : db.Suits g title)
    (hlisted : db.ListedAlike w.store w'.store) (first : Bytes) (count remaining : Nat) {S : Nat → Prop}
    (hintakes : Intakes S w'.store intake intake') (hold : ∀ m, S m → m < w'.store.contents.length)
    (hspares : db.Spares g S w w'.store) :
    Agree (Peers g) Eq (createInFile db first count remaining intake w)
      (createInFile db first count remaining intake' w') := by
  have hallocate := h.allocate hsuits.on hsuits.searches hlisted
  cases hmemory : db.allocate w with
  | error e w₁ =>
    rw [hmemory] at hallocate
    generalize hdisk : db.allocate w' = r at hallocate
    cases hallocate with
    | error h₁ =>
      have hfail : ∀ {σ : Type} [FileStore σ] {v v₁ : World σ} {i : Intake σ},
          db.allocate v = .error e v₁ → createInFile db first count remaining i v = .error e v₁ :=
        fun hrun => bind_error (bind_error hrun)
      rw [hfail hmemory, hfail hdisk]
      exact .error h₁.peers
  | ok id w₁ =>
    rw [hmemory] at hallocate
    generalize hdisk : db.allocate w' = r at hallocate
    cases hallocate with
    | ok hid h₁ =>
      subst hid
      rename_i w₁'
      obtain ⟨names, hseat, hspells⟩ := hsuits.on.holds db.layout .temp id
      obtain ⟨d, hcreate, hfilling, hsame⟩ := filling_of_create h.twins hseat hspells
      have hopen := openTemp_run hmemory (by rw [h₁.memory]; rfl)
      have hopen' := openTemp_run hdisk (by rw [h₁.disk]; exact hcreate)
      have hpeers : Peers g { w₁ with handles := w₁.handles ++
          [{ path := db.naming.path db.layout .temp id, armed := true }] }
          { w₁' with handles := w₁'.handles ++
            [{ path := db.naming.path db.layout .temp id, armed := true }] } := by
        have hnew := h₁.peers.newHandle ⟨names, hseat, hspells⟩ true
        cases hnew with
        | ok _ hnew => exact hnew
      -- What the source reads is not what is written.
      have hopened : Intakes (· ≠ (w'.store.numberAt? g.start names).getD w'.store.contents.length) d
          intake intake' := hintakes.mono (fun m hm => ?_) fun m hm =>
            hsame m (hold m hm) (hspares hmemory hspells hm)
      · have hfill := fillFile_agree hseat hspells db.settings first remaining hopened hfilling
        unfold createInFile
        rw [bind_ok hopen, bind_ok hopen']
        dsimp only
        rw [← hintakes.kind_eq, ← h₁.peers.handles_eq]
        rw [← h₁.peers.handles_eq] at hpeers
        generalize fillFile (σ := MemoryStore) db.settings (db.naming.path db.layout .temp id) first
          remaining intake _ = filled at hfill ⊢
        generalize fillFile (σ := Disk) db.settings w'.store.writers.length first remaining intake' d =
          filled' at hfill ⊢
        cases hfill with
        | ok htotal hfilling' =>
          subst htotal
          exact .ok rfl (hpeers.withStore (hfilling'.close (db.naming.path db.layout .temp id)))
        | error hfilling' =>
          have hclosed := hpeers.withStore (hfilling'.close (db.naming.path db.layout .temp id))
          have hrelease := hclosed.release w₁.handles.length
          dsimp only at hrelease ⊢
          generalize World.release (σ := MemoryStore) w₁.handles.length _ = r at hrelease ⊢
          generalize World.release (σ := Disk) w₁.handles.length _ = r' at hrelease ⊢
          cases hrelease with
          | ok _ h₂ => exact .error h₂
          | error h₂ => exact .error h₂
      · have hlt := hold m hm
        have hspared := hspares hmemory hspells hm
        cases hnumber : w'.store.numberAt? g.start names with
        | none => exact Nat.ne_of_lt hlt
        | some n =>
          rw [hnumber] at hspared
          exact fun heq => hspared (congrArg some heq.symm)

structure Sources (S : Nat → Prop) (d : Disk) (source : Source MemoryStore) (source' : Source Disk) :
    Prop where
  gives : ∃ text ending, source.Gives MemoryStore.Left text ending ∧
    source'.Gives (Disk.Left S d) text ending
  old : ∀ m, S m → m < d.contents.length

theorem Sources.bytes (S : Nat → Prop) (d : Disk) (data : Bytes) (hold : ∀ m, S m → m < d.contents.length) :
    Sources S d (.planned [.bytes data]) (.planned [.bytes data]) :=
  ⟨⟨data, none, Source.gives_bytes _ data, Source.gives_bytes _ data⟩, hold⟩

/-- Both make the same of a source. -/
theorem create_agree (h : Peers g w w') (hsuits : db.Suits g title) (kind : Kind)
    {source : Source MemoryStore} {source' : Source Disk} (declared : Option Nat) {S : Nat → Prop}
    (hsources : Sources S w'.store source source')
    (hneeds : NeedsFile db kind source declared w →
      db.ListedAlike w.store w'.store ∧ db.Spares g S w w'.store) :
    Agree (Peers g) Eq (create db kind source declared w) (create db kind source' declared w') := by
  obtain ⟨text, ending, hgives, hgives'⟩ := hsources.gives
  have hintakes : Intakes S w'.store { kind, source } { kind, source := source' } :=
    ⟨rfl, text, ending, ⟨fun _ => rfl, text, rfl, hgives⟩, ⟨fun _ => rfl, text, rfl, hgives'⟩⟩
  unfold NeedsFile at hneeds
  unfold create
  dsimp only at hneeds ⊢
  generalize ChunkSize.next (declared.getD unlimited) db.settings.inlineThreshold
    (db.settings.compressionFor kind).isSome = size at hneeds ⊢
  rcases hintakes.take w.store size with
    ⟨⟨first, count⟩, next, next', hmemory, hdisk, hnext, -⟩ | ⟨e, next, next', hmemory, hdisk⟩
  · simp only [hmemory, hdisk]
    by_cases hsmall : count ≤ db.settings.inlineThreshold
    · simp only [if_pos hsmall]
      exact .ok rfl h
    · simp only [if_neg hsmall]
      obtain ⟨hlisted, hspares⟩ := hneeds ⟨first, count, _, hmemory, Nat.lt_of_not_le hsmall⟩
      exact createInFile_agree h hsuits hlisted first count _ hnext hsources.old hspares
  · simp only [hmemory, hdisk]
    exact .error h

/-- A value is opened for reading in both, and its file is the only one that is read. -/
theorem reader_agree (h : Peers g w w') (v : Value) :
    Agree (fun u u' => u = w ∧ u' = w')
      (fun c c' => ∃ S, Sources S w'.store (.stored c) (.stored c') ∧
        ∀ m, S m → ∃ names, g.Seat names ∧ w'.store.numberAt? g.start names = some m)
      (v.reader w) (v.reader w') := by
  unfold reader
  cases v.content with
  | inline data stamp =>
    exact .ok ⟨fun _ => False, ⟨⟨data, none, .stored (.inline data), .stored (.inline data)⟩, nofun⟩,
      nofun⟩ ⟨rfl, rfl⟩
  | file ref =>
    dsimp only
    cases hretired : (w.handle ref.handle).retired with
    | true =>
      rw [bind_error (World.livePath_error hretired),
        bind_error (World.livePath_error (h.handle_eq ref.handle ▸ hretired)), ← h.handle_eq]
      exact .error ⟨rfl, rfl⟩
    | false =>
      rw [bind_ok (World.livePath_ok hretired),
        bind_ok (World.livePath_ok (h.handle_eq ref.handle ▸ hretired)), ← h.handle_eq]
      obtain ⟨names, hseat, hspells⟩ := h.holds_of_live hretired
      have hopen := h.twins.openRead hseat hspells
      generalize hmemory : FileStore.openRead (w.handle ref.handle).path w.store = r at hopen
      generalize hdisk : FileStore.openRead (w.handle ref.handle).path w'.store = r' at hopen
      cases hopen with
      | error hsame =>
        obtain ⟨rfl, rfl⟩ := hsame
        rw [bind_error (World.onStore_error hmemory), bind_error (World.onStore_error hdisk)]
        exact .error ⟨rfl, rfl⟩
      | ok hleft hsame =>
        obtain ⟨rfl, rfl⟩ := hsame
        obtain ⟨n, left, hnumber, hr, hr'⟩ := hleft
        rw [bind_ok (World.onStore_ok hmemory), bind_ok (World.onStore_ok hdisk)]
        have hstart := ContentReader.start_agree (s := w.store) hr hr' ref.compressed
        unfold World.onStore
        dsimp only
        generalize ContentReader.start _ ref.compressed w.store = r at hstart ⊢
        generalize ContentReader.start _ ref.compressed w'.store = r' at hstart ⊢
        cases hstart with
        | error hsame =>
          obtain ⟨rfl, rfl⟩ := hsame
          exact .error ⟨rfl, rfl⟩
        | ok hgives hsame =>
          obtain ⟨rfl, rfl⟩ := hsame
          obtain ⟨text, ending, hc, hc'⟩ := hgives
          refine .ok ⟨(· = n), ⟨⟨text, ending, .stored hc, .stored hc'⟩, ?_⟩, ?_⟩ ⟨rfl, rfl⟩
          · rintro m rfl
            exact h.twins.houses.number_lt hnumber
          · rintro m rfl
            exact ⟨names, hseat, hnumber⟩

/-- Both make the same value of another kind, when it does not get the file that is read. -/
theorem convert_agree (h : Peers g w w') (hsuits : db.Suits g title) (v : Value) (kind : Kind)
    (hneeds : ∀ c u, v.kind ≠ kind → v.reader w = .ok c u → NeedsFile db kind (.stored c) none u →
      db.ListedAlike w.store w'.store ∧ db.Roomy w) :
    Agree (Peers g) Eq (v.convert db kind w) (v.convert db kind w') := by
  unfold convert
  by_cases hkind : v.kind = kind
  · rw [if_pos hkind, if_pos hkind]
    exact clone_agree h v
  rw [if_neg hkind, if_neg hkind]
  have hreader := reader_agree h v
  generalize hmemory : v.reader w = r at hreader
  generalize hdisk : v.reader w' = r' at hreader
  cases hreader with
  | error hsame =>
    obtain ⟨rfl, rfl⟩ := hsame
    rw [bind_error hmemory, bind_error hdisk]
    exact .error h
  | ok hopened hsame =>
    obtain ⟨rfl, rfl⟩ := hsame
    obtain ⟨S, hsources, hold⟩ := hopened
    rw [bind_ok hmemory, bind_ok hdisk]
    refine create_agree h hsuits kind none hsources fun hfile => ?_
    obtain ⟨hlisted, hroomy⟩ := hneeds _ _ hkind hmemory hfile
    exact ⟨hlisted, spares_of_roomy h hsuits hroomy hold⟩

/-- A value that is too large to go without a file gets one in both. -/
theorem spill_agree (h : Peers g w w') (hsuits : db.Suits g title) (v : Value)
    (hlisted : ∀ data stamp, v.content = .inline data stamp →
      db.settings.inlineThreshold < v.precision →
      NeedsFile db v.kind (.planned [.bytes data]) (some v.precision) w →
      db.ListedAlike w.store w'.store) :
    Agree (Peers g) Eq (v.spill db w) (v.spill db w') := by
  cases hcontent : v.content with
  | file ref =>
    rw [spill_file hcontent, spill_file hcontent]
    exact clone_agree h v
  | inline data stamp =>
    by_cases hsmall : v.precision ≤ db.settings.inlineThreshold
    · rw [spill_small hcontent hsmall, spill_small hcontent hsmall]
      exact .ok rfl h
    rw [spill_eq hcontent hsmall, spill_eq hcontent hsmall]
    have hcreate := create_agree h hsuits v.kind (some v.precision)
      (Sources.bytes (fun _ => False) w'.store data nofun) fun hfile =>
        ⟨hlisted data stamp hcontent (Nat.lt_of_not_le hsmall) hfile, fun _ _ hnone => hnone.elim⟩
    have hcreates := create_creates db v.kind (.planned [.bytes data]) (some v.precision) w
    generalize hmemory : create db v.kind (.planned [.bytes data]) (some v.precision) w = r
      at hcreate hcreates
    generalize hdisk : create db v.kind (.planned [.bytes data]) (some v.precision) w' = r' at hcreate
    cases hcreate with
    | error hu =>
      rw [bind_error hmemory, bind_error hdisk]
      exact .error hu
    | ok hfirst hu =>
      subst hfirst
      rw [bind_ok hmemory, bind_ok hdisk]
      cases stamp with
      | none => exact .ok rfl hu
      | some table =>
        exact handOver_agree hu hsuits hcreates.calls (fun ref hfile => hcreates.owner_eq hfile) table

end Value

end LargeObjects
