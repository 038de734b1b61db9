import Mathlib
import LargeObjects.Proofs.Frames
import LargeObjects.Proofs.Stocktaking

/-! One and the same program over a store in memory and over a file system. As long as no directory of
the tree is left without files when an id is looked for, it is told the same at every call and leaves
the same files. -/
namespace LargeObjects

open Step Disk

inductive Call where
  | deed (d : Deed)
  | inventory
  /-- The first octets of the content of a value. -/
  | read (i count : Nat)

inductive Answer where
  | value (v : Value) (path : Option Path)
  | done
  | report (r : RemovalReport)
  | inventory (i : Inventory)
  | content (octets : Bytes)

section Answers

variable {σ α : Type}

def Answer.ofValue (v : Value) (w : World σ) : Answer := .value v (v.path? w)

def World.heard (w : World σ) (act : Action σ α) (tell : α → World σ → Answer) :
    Except ObjectError Answer :=
  match act w with
  | .ok a w' => .ok (tell a w')
  | .error e _ => .error e

variable [Codec] [FileStore σ]

def Value.firstBytes (v : Value) (count : Nat) : Action σ Bytes := do
  let c ← v.reader
  fun w =>
    match ContentReader.readUpTo count (c, w.store) with
    | .ok octets (_, store) => .ok octets { w with store }
    | .error e (_, store) => .error (.stream e) { w with store }

namespace Session

def told (db : Database) (s : Session σ) : Event → Option (Except ObjectError Answer)
  | .create kind plan declared =>
    some (s.world.heard (Value.create db kind (.planned plan.deliveries) declared) Answer.ofValue)
  | .inline kind data =>
    match Value.inline kind data with
    | .ok v => some (.ok (.ofValue v s.world))
    | .error e => some (.error (.corruption e))
  | .clone i => s.held[i]?.map fun h => s.world.heard h.value.clone Answer.ofValue
  | .link i table => s.held[i]?.map fun h => s.world.heard (h.value.link db table) Answer.ofValue
  | .unlink i => s.held[i]?.map fun h => s.world.heard (h.value.unlink db) Answer.ofValue
  | .close i => s.held[i]?.map fun h => s.world.heard h.value.close fun _ _ => .done
  | .convert i kind => s.held[i]?.map fun h => s.world.heard (h.value.convert db kind) Answer.ofValue
  | .spill i => s.held[i]?.map fun h => s.world.heard (h.value.spill db) Answer.ofValue
  | .drop i => s.held[i]?.map fun h => s.world.heard h.value.drop fun _ _ => .done

def answer (db : Database) (s : Session σ) : Call → Option (Except ObjectError Answer)
  | .deed (.work e) => s.told db e
  | .deed (.attach kind table id precision compressed) =>
    some (s.world.heard (Value.attach db kind table id precision compressed) Answer.ofValue)
  | .deed (.sweep table) => some (s.world.heard (db.removeTable table) fun r _ => .report r)
  | .deed .purge => some (s.world.heard db.purgeTemp fun r _ => .report r)
  | .inventory => some (s.world.heard db.inventory fun i _ => .inventory i)
  | .read i count =>
    s.held[i]?.map fun h => s.world.heard (h.value.firstBytes count) fun octets _ => .content octets

def serve (db : Database) (s : Session σ) : Call → Session σ
  | .deed d => s.perform db d
  | .inventory => { s with world := after db.inventory s.world }
  | .read i count =>
    s.onHeld i fun h => { s with world := after (h.value.firstBytes count) s.world }

def answers (db : Database) : Session σ → List Call → List (Option (Except ObjectError Answer))
  | _, [] => []
  | s, c :: rest => s.answer db c :: answers db (s.serve db c) rest

end Session

end Answers

/-- A search for an id in a tree finds files at or below each of its directories, and an id for a value
that is read from another file fits a word. -/
def Session.Level [Codec] (db : Database) (s : Session MemoryStore) (d : Disk) : Call → Prop
  | .deed (.work e) => s.Allocates db e → (db.layout = .sharded → d.Populated db.naming.shardRoot) ∧
    ∀ i kind, e = .convert i kind → db.Roomy s.world
  | _ => True

def Session.StaysLevel [Codec] (db : Database) : Session MemoryStore → Session Disk → List Call → Prop
  | _, _, [] => True
  | s, s', c :: rest => s.Level db s'.world.store c ∧ StaysLevel db (s.serve db c) (s'.serve db c) rest

section Reading

variable [Codec] {σ : Type} [FileStore σ] {s : σ} {Left : FileStore.Reader σ → Bytes → Prop}

/-- The first octets are those of the text, unless the text ends too early and in a failure. -/
theorem ContentReader.readUpTo_eq (law : Readable s Left) {c : ContentReader σ} {text : Bytes}
    {ending : Option StreamError} (hc : c.Gives Left text ending) (count : Nat) :
    ((Gathering.Stops (some count) text ∨ ending = none) ∧
      ∃ c', readUpTo count (c, s) = .ok (text.take (min count text.length)) (c', s)) ∨
    ¬Gathering.Stops (some count) text ∧ ∃ e c', ending = some e ∧
      readUpTo count (c, s) = .error e (c', s) := by
  have hleft : (c, s).2 = s ∧ (c, s).1.Gives Left text ending := ⟨rfl, hc⟩
  rcases Gathering.fill_eq (serves_of_readable law) (Gathering.sound_ofCapacity 0) hleft
      (show Gathering.share (some count) text < count + 1 from Nat.lt_succ_of_le (Nat.min_le_left _ _)) with
    ⟨hend, gathered, ⟨c', _⟩, hfill, -, hbytes, rfl, -⟩ | ⟨hstops, e, ⟨c', _⟩, hending, hfill, rfl⟩
  · rw [Gathering.bytes_ofCapacity, List.nil_append] at hbytes
    refine Or.inl ⟨hend, c', ?_⟩
    unfold readUpTo
    rw [bind_ok hfill, hbytes]
    rfl
  · refine Or.inr ⟨hstops, e, c', hending, ?_⟩
    unfold readUpTo
    rw [bind_error hfill]

end Reading

namespace Value

variable {g : Ground} {db : Database} {title : Name} {w : World MemoryStore} {w' : World Disk}

/-- Both read the same. -/
theorem firstBytes_agree [Codec] (h : Peers g w w') (v : Value) (count : Nat) :
    Agree (fun u u' => u = w ∧ u' = w') Eq (v.firstBytes count w) (v.firstBytes count w') := by
  unfold firstBytes
  refine (reader_agree h v).bind ?_
  rintro c c' u u' ⟨S, hsources, -⟩ ⟨rfl, rfl⟩
  obtain ⟨text, ending, hgives, hgives'⟩ := hsources.gives
  cases hgives with
  | stored hc =>
    cases hgives' with
    | stored hc' =>
      rcases ContentReader.readUpTo_eq u.store.readable hc count with
        ⟨hend, next, hrun⟩ | ⟨hstops, e, next, hending, hrun⟩
      · rcases ContentReader.readUpTo_eq (Disk.readable S u'.store) hc' count with
          ⟨-, next', hrun'⟩ | ⟨hstops', e', next', hending', -⟩
        · rw [hrun, hrun']
          exact .ok rfl ⟨rfl, rfl⟩
        · rw [hending'] at hend
          exact absurd hend (not_or.2 ⟨hstops', nofun⟩)
      · rcases ContentReader.readUpTo_eq (Disk.readable S u'.store) hc' count with
          ⟨hend', next', -⟩ | ⟨-, e', next', hending', hrun'⟩
        · rw [hending] at hend'
          exact absurd hend' (not_or.2 ⟨hstops, nofun⟩)
        · obtain rfl : e = e' := Option.some.inj (hending.symm.trans hending')
          rw [hrun, hrun']
          exact .error ⟨rfl, rfl⟩

/-- A value is attached in both under the layout that its file has. -/
theorem attach_agree (h : Peers g w w') (hon : db.naming.On g title) (kind : Kind) (table : TableId)
    (id : ObjectId) (precision : Nat) (compressed : Bool) :
    Agree (Peers g) Eq (attach db kind table id precision compressed w)
      (attach db kind table id precision compressed w') := by
  by_cases hid : id.word = 0
  · rw [attach_zero db kind table precision compressed w hid,
      attach_zero db kind table precision compressed w' hid]
    exact .error h
  · have hfile : ∀ layout, FileStore.isFile (db.naming.path layout (.table table) id) w.store =
        FileStore.isFile (db.naming.path layout (.table table) id) w'.store := by
      intro layout
      obtain ⟨names, hseat, hspells⟩ := hon.holds layout (.table table) id
      exact h.twins.isFile_eq hseat hspells
    have hlayout : attachLayout db table id w.store = attachLayout db table id w'.store := by
      unfold attachLayout
      rw [hfile, hfile]
    have hnew := h.newHandle (hon.holds (attachLayout db table id w'.store) (.table table) id) false
    rw [attach_ok db kind table precision compressed w hid,
      attach_ok db kind table precision compressed w' hid, hlayout, h.handles_eq]
    unfold World.newHandle at hnew
    rw [h.handles_eq] at hnew
    cases hnew with
    | ok _ hpeers => exact .ok rfl hpeers

end Value

/-- Without directories that have lost all their files, both list the tree alike. -/
theorem Database.listedAlike_of_populated {g : Ground} {db : Database} {title : Name} {s : MemoryStore}
    {d : Disk} (h : Twins g s d) (hon : db.naming.On g title)
    (hpopulated : db.layout = .sharded → d.Populated db.naming.shardRoot) : db.ListedAlike s d := by
  intro hlayout id
  have hway := hon.way id
  have hnames : ∀ t ∈ db.naming.lane title id, IsName t := fun t ht => (hon.isName_lane ht).1
  have hroot := hon.way_shardRoot
  have hroots : ∀ t ∈ [title ++ Naming.directorySuffix.toList], IsName t := fun t ht =>
    hnames t (List.mem_cons.2 (Or.inl (List.mem_singleton.1 ht)))
  unfold Naming.lane at hway hnames
  rw [List.append_cons] at hway
  refine Ground.list_of_populated h (hpopulated hlayout) ?_ ?_ ?_ hway ?_ ?_ ?_
  · rw [hon.shardRoot_eq, Ground.components_path hroots]
  · rw [hon.shardRoot_eq]
    exact hroot.objection
  · rw [hon.shardRoot_eq]
    exact Ground.spelling_path_ne hroots
  · rw [hon.shardDirectory_eq, Ground.components_path fun t ht => (hon.isName_lane ht).1]
    unfold Naming.lane
    rw [List.append_cons]
  · rw [hon.shardDirectory_eq]
    exact (hon.way id).objection
  · rw [hon.shardDirectory_eq]
    exact Ground.spelling_path_ne fun t ht => (hon.isName_lane ht).1

theorem World.handles_after_onStore {σ α : Type} (act : Step StoreError σ α) (w : World σ) :
    (after (World.onStore act) w).handles = w.handles := by
  unfold after World.onStore
  cases act w.store <;> rfl

structure Session.Alike (g : Ground) (n : Naming) (s : Session MemoryStore) (s' : Session Disk) : Prop where
  peers : Peers g s.world s'.world
  held_eq : s.held = s'.held
  titled : s.Titled n

structure Session.Concur (g : Ground) (t : Session MemoryStore) (t' : Session Disk)
    (told told' : Option (Except ObjectError Answer)) : Prop where
  peers : Peers g t.world t'.world
  held_eq : t.held = t'.held
  told_eq : told = told'

namespace Session

variable {g : Ground} {db : Database} {title : Name} {s : Session MemoryStore} {s' : Session Disk}

section Acting

variable {n : Naming}

theorem concur_acquire (h : s.Alike g n s') {act : Action MemoryStore Value} {act' : Action Disk Value}
    (hact : Agree (Peers g) Eq (act s.world) (act' s'.world)) (origin : Bytes) :
    Concur g (s.acquire act origin) (s'.acquire act' origin)
      (some (s.world.heard act Answer.ofValue)) (some (s'.world.heard act' Answer.ofValue)) := by
  unfold acquire World.heard
  generalize act s.world = r at hact
  generalize act' s'.world = r' at hact
  cases hact with
  | ok hvalue hpeers =>
    subst hvalue
    refine ⟨hpeers, ?_, ?_⟩
    · show s.held ++ _ = s'.held ++ _
      rw [h.held_eq]
    · dsimp only
      unfold Answer.ofValue Value.path?
      simp only [hpeers.handle_eq]
  | error hpeers => exact ⟨hpeers, h.held_eq, rfl⟩

theorem concur_run (h : s.Alike g n s') {act : Action MemoryStore Unit} {act' : Action Disk Unit}
    (hact : Agree (Peers g) Eq (act s.world) (act' s'.world)) :
    Concur g (s.run act) (s'.run act') (some (s.world.heard act fun _ _ => .done))
      (some (s'.world.heard act' fun _ _ => .done)) := by
  unfold run World.heard
  generalize act s.world = r at hact
  generalize act' s'.world = r' at hact
  cases hact with
  | ok _ hpeers => exact ⟨hpeers, h.held_eq, rfl⟩
  | error hpeers => exact ⟨hpeers, h.held_eq, rfl⟩

/-- What changes nothing but files or nothing at all. -/
theorem concur_after {α : Type} (h : s.Alike g n s') {act : Action MemoryStore α} {act' : Action Disk α}
    (hact : Agree (Peers g) Eq (act s.world) (act' s'.world)) (tell : α → Answer) :
    Concur g { s with world := after act s.world } { s' with world := after act' s'.world }
      (some (s.world.heard act fun a _ => tell a)) (some (s'.world.heard act' fun a _ => tell a)) := by
  unfold after World.heard
  generalize act s.world = r at hact
  generalize act' s'.world = r' at hact
  cases hact with
  | ok hanswer hpeers =>
    subst hanswer
    exact ⟨hpeers, h.held_eq, rfl⟩
  | error hpeers => exact ⟨hpeers, h.held_eq, rfl⟩

/-- Where nothing is held there is nothing to do. -/
theorem concur_onHeld (h : s.Alike g n s') (i : Nat) {act : Held → Session MemoryStore}
    {act' : Held → Session Disk} {tell tell' : Held → Except ObjectError Answer}
    (hact : ∀ x, s.held[i]? = some x → Concur g (act x) (act' x) (some (tell x)) (some (tell' x))) :
    Concur g (s.onHeld i act) (s'.onHeld i act') (s.held[i]?.map tell) (s'.held[i]?.map tell') := by
  have hsame := h.held_eq
  cases hi : s.held[i]? with
  | none =>
    have hi' : s'.held[i]? = none := hsame ▸ hi
    rw [onHeld_none hi, onHeld_none hi', hi']
    exact ⟨h.peers, h.held_eq, rfl⟩
  | some x =>
    have hi' : s'.held[i]? = some x := hsame ▸ hi
    rw [onHeld_some hi, onHeld_some hi', hi']
    exact hact x hi

end Acting

section Serving

variable [Codec]

/-- Each operation does the same in both. -/
theorem concur_step (h : s.Alike g db.naming s') (hsuits : db.Suits g title) (e : Event)
    (hlevel : s.Level db s'.world.store (.deed (.work e))) :
    Concur g (s.step db e) (s'.step db e) (s.told db e) (s'.told db e) := by
  have hlisted : s.Allocates db e → db.ListedAlike s.world.store s'.world.store := fun hallocates =>
    Database.listedAlike_of_populated h.peers.twins hsuits.on (hlevel hallocates).1
  cases e with
  | create kind plan declared =>
    have hsources : Value.Sources (fun _ => False) s'.world.store (.planned plan.deliveries)
        (.planned plan.deliveries) :=
      ⟨⟨_, _, .planned plan.genuine, .planned plan.genuine⟩, nofun⟩
    exact concur_acquire h (Value.create_agree h.peers hsuits kind declared hsources fun hneeds =>
      ⟨hlisted hneeds, fun _ _ hnone => hnone.elim⟩) _
  | inline kind data =>
    simp only [step, told]
    cases Value.inline kind data with
    | ok v =>
      refine ⟨h.peers, ?_, ?_⟩
      · show s.held ++ _ = s'.held ++ _
        rw [h.held_eq]
      · dsimp only
        unfold Answer.ofValue Value.path?
        simp only [h.peers.handle_eq]
    | error e => exact ⟨h.peers, h.held_eq, rfl⟩
  | clone i => exact concur_onHeld h i fun x _ => concur_acquire h (Value.clone_agree h.peers x.value) _
  | link i table =>
    refine concur_onHeld h i fun x hx => concur_acquire h ?_ _
    refine Value.link_agree h.peers hsuits (h.titled x (List.mem_of_getElem? hx)) table ?_
    intro ref owner hcontent hlive hserved howner hne
    exact hlisted ⟨x, ref, owner, hx, hcontent, hlive, hserved, howner, hne⟩
  | unlink i =>
    exact concur_onHeld h i fun x _ => concur_acquire h (Value.unlink_agree h.peers hsuits x.value) _
  | close i => exact concur_onHeld h i fun x _ => concur_run h (Value.close_agree h.peers x.value)
  | convert i kind =>
    refine concur_onHeld h i fun x hx => concur_acquire h ?_ _
    refine Value.convert_agree h.peers hsuits x.value kind fun c u hkind hreader hneeds => ?_
    have hallocates : s.Allocates db (.convert i kind) := ⟨x, c, u, hx, hkind, hreader, hneeds⟩
    exact ⟨hlisted hallocates, (hlevel hallocates).2 i kind rfl⟩
  | spill i =>
    refine concur_onHeld h i fun x hx => concur_acquire h ?_ _
    refine Value.spill_agree h.peers hsuits x.value fun data stamp hcontent hlarge hneeds => ?_
    exact hlisted ⟨x, data, stamp, hx, hcontent, hlarge, hneeds⟩
  | drop i =>
    refine concur_onHeld h i fun x _ => ?_
    have hrun := concur_run h (Value.drop_agree h.peers x.value)
    refine ⟨hrun.peers, ?_, hrun.told_eq⟩
    show s.held.eraseIdx i = s'.held.eraseIdx i
    rw [h.held_eq]

/-- So does each call. -/
theorem concur_serve (h : s.Alike g db.naming s') (hsuits : db.Suits g title) (c : Call)
    (hlevel : s.Level db s'.world.store c) :
    Concur g (s.serve db c) (s'.serve db c) (s.answer db c) (s'.answer db c) := by
  cases c with
  | deed d =>
    cases d with
    | work e => exact concur_step h hsuits e hlevel
    | attach kind table id precision compressed =>
      exact concur_acquire h (Value.attach_agree h.peers hsuits.on kind table id precision compressed) _
    | sweep table => exact concur_after h (h.peers.removeOwned hsuits.on (.table table)) .report
    | purge => exact concur_after h (h.peers.removeOwned hsuits.on .temp) .report
  | inventory => exact concur_after h (h.peers.inventory hsuits.on) .inventory
  | read i count =>
    refine concur_onHeld h i fun x _ => ?_
    refine concur_after h ?_ .content
    refine (Value.firstBytes_agree h.peers x.value count).mono ?_ fun heq => heq
    rintro u u' ⟨rfl, rfl⟩
    exact h.peers

/-- Values keep the names of their files through every call. -/
theorem Alike.titled_serve (h : s.Alike g db.naming s') (c : Call) : (s.serve db c).Titled db.naming := by
  cases c with
  | deed d => exact h.titled.perform d
  | inventory =>
    have hsame : (after db.inventory s.world).handles = s.world.handles := World.handles_after_onStore _ _
    exact h.titled.later (Handle.stay_of_eq hsame) fun _ hmem => hmem
  | read i count =>
    show (s.onHeld i _).Titled db.naming
    cases hi : s.held[i]? with
    | none =>
      rw [onHeld_none hi]
      exact h.titled
    | some x =>
      rw [onHeld_some hi]
      have hread := Value.firstBytes_agree h.peers x.value count
      have hsame : after (x.value.firstBytes count) s.world = s.world := by
        unfold after
        generalize x.value.firstBytes count s.world = r at hread ⊢
        generalize x.value.firstBytes count s'.world = r' at hread
        cases hread with
        | ok _ hstate => exact hstate.1
        | error hstate => exact hstate.1
      rw [hsame]
      exact h.titled

/-- Both stay alike through calls. -/
theorem Alike.next (h : s.Alike g db.naming s') (hsuits : db.Suits g title) (c : Call)
    (hlevel : s.Level db s'.world.store c) : (s.serve db c).Alike g db.naming (s'.serve db c) := by
  have hconcur := concur_serve h hsuits c hlevel
  exact ⟨hconcur.peers, hconcur.held_eq, h.titled_serve c⟩

/-- Programs are told the same and leave the same files. -/
theorem Alike.answers_eq (h : s.Alike g db.naming s') (hsuits : db.Suits g title) (calls : List Call)
    (hlevel : StaysLevel db s s' calls) : s.answers db calls = s'.answers db calls ∧
      (calls.foldl (serve db) s).Alike g db.naming (calls.foldl (serve db) s') := by
  induction calls generalizing s s' with
  | nil => exact ⟨rfl, h⟩
  | cons c rest ih =>
    obtain ⟨hfirst, hrest⟩ := hlevel
    obtain ⟨hanswers, hafter⟩ := ih (h.next hsuits c hfirst) hrest
    refine ⟨?_, hafter⟩
    unfold answers
    rw [hanswers, (concur_serve h hsuits c hfirst).told_eq]

/-- A database is opened alike over two stores without files, or refused alike. As long as no directory
of its tree is left without files when an id is looked for, all that a program is told is the same, and
so are the files at any time and the values that are held. -/
theorem stores_interchangeable {base : Path} {settings : Settings}
    (hon : (Naming.mk base settings.fanout).On g title) (entropy : Entropy) :
    let w : World MemoryStore := { store := default, entropy }
    let w' : World Disk := { store := default, entropy }
    (∃ e u u', Database.openAt base settings w = .error e u ∧
      Database.openAt base settings w' = .error e u' ∧ Twins g u.store u'.store) ∨
    ∃ db u u', Database.openAt base settings w = .ok db u ∧
      Database.openAt base settings w' = .ok db u' ∧
      ∀ calls, StaysLevel db { world := u } { world := u' } calls →
        answers db { world := u } calls = answers db { world := u' } calls ∧
        let s := calls.foldl (serve db) { world := u }
        let s' := calls.foldl (serve db) { world := u' }
        Twins g s.world.store s'.world.store ∧ s.held = s'.held := by
  intro w w'
  have hpeers : Peers g w w' := ⟨Twins.empty g, rfl, rfl, rfl, nofun⟩
  have hopen := hpeers.openAt hon
  generalize Database.openAt base settings w = r at hopen ⊢
  generalize Database.openAt base settings w' = r' at hopen ⊢
  cases hopen with
  | error hu => exact Or.inl ⟨_, _, _, rfl, rfl, hu.twins⟩
  | ok hdb hu =>
    obtain ⟨rfl, hsuits⟩ := hdb
    rename_i db u u'
    refine Or.inr ⟨db, u, u', rfl, rfl, fun calls hlevel => ?_⟩
    have hstart : Alike g db.naming { world := u } { world := u' } := ⟨hu, rfl, nofun⟩
    obtain ⟨hanswers, hafter⟩ := hstart.answers_eq hsuits calls hlevel
    exact ⟨hanswers, hafter.peers.twins, hafter.held_eq⟩

end Serving

def binaryTree : Database where
  settings := { inlineThreshold := 0, fanout := 2 }
  naming := ⟨.ofString "d/b", 2⟩
  allocator := .scan 1024

def oneOctet : Call := .deed (.work (.create .binary ⟨[.bytes [97]], by decide⟩ none))

def directoryD : Ground where
  top := .ofString "d"
  names := [['d']]
  stated := by decide
  objection := by decide
  leads := by decide
  usable t ht := by
    rw [List.mem_singleton.1 ht]
    exact ⟨⟨by decide, by decide, by decide, by decide⟩, by decide⟩

/-- One octet is made into a file of its own, counted and read. -/
theorem stores_interchangeable_small :
    binaryTree.naming.On directoryD ['b'] ∧
    StaysLevel binaryTree { world := { store := default } } { world := { store := default } }
      [oneOctet, .inventory, .read 0 1] ∧
    answers binaryTree ({ world := { store := default } } : Session MemoryStore)
        [oneOctet, .inventory, .read 0 1] =
      answers binaryTree ({ world := { store := default } } : Session Disk)
        [oneOctet, .inventory, .read 0 1] := by
  have hon : binaryTree.naming.On directoryD ['b'] :=
    Naming.Sited.on_of_brief ⟨by decide, by decide, by decide, by decide, by decide⟩
      ⟨by decide, by decide⟩ (by decide)
  have hlevel : StaysLevel binaryTree { world := { store := default } } { world := { store := default } }
      [oneOctet, .inventory, .read 0 1] := by
    refine ⟨fun _ => ⟨fun _ r hroot => ?_, nofun⟩, trivial, trivial, trivial⟩
    -- There is no tree yet.
    cases hroot
  refine ⟨hon, hlevel, ?_⟩
  rcases @stores_interchangeable directoryD ['b'] Frame.codec (.ofString "d/b") binaryTree.settings
      hon {} with
    ⟨e, u, u', hopen, -⟩ | ⟨db, u, u', hopen, hopen', hcalls⟩
  · cases hopen
  · cases hopen
    cases hopen'
    exact (hcalls _ hlevel).1

def Answer.number? : Option (Except ObjectError Answer) → Option UInt32
  | some (.ok (.value v _)) => v.objectId?.map (·.word)
  | _ => none

/-- Two values are made, the second of which gets a directory of its own, and are let go. In memory the
directory is gone with its file; on a file system it stays, and takes up the first place. -/
theorem empty_directory_tells_stores_apart :
    let calls := [oneOctet, oneOctet, .deed (.work (.drop 0)), .deed (.work (.drop 0)), oneOctet]
    Database.openAt (.ofString "d/b") binaryTree.settings ({ store := default } : World MemoryStore) =
      .ok binaryTree { store := default } ∧
    Database.openAt (.ofString "d/b") binaryTree.settings ({ store := default } : World Disk) =
      .ok binaryTree { store := default } ∧
    (answers binaryTree ({ world := { store := default } } : Session MemoryStore) calls).map
      Answer.number? = [some 1, some 3, none, none, some 1] ∧
    (answers binaryTree ({ world := { store := default } } : Session Disk) calls).map
      Answer.number? = [some 1, some 3, none, none, some 3] :=
  ⟨rfl, rfl, by decide +kernel, by decide +kernel⟩

end Session

end LargeObjects
