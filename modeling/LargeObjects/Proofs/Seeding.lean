import Mathlib
import LargeObjects.Proofs.DiskFolders
import LargeObjects.Proofs.Frames
import LargeObjects.Proofs.Reattaching
import LargeObjects.Proofs.Reserving

/-! Databases with flat names that are opened over files that are there. The ids go on after those of
the files, so what is made and linked from then on takes no name that something has. -/
namespace LargeObjects

open Step LocalStore FolderStore

variable {σ : Type} [FileStore σ] [LocalStore σ] [FolderStore σ]

namespace Session

variable {o : Opening σ} {bound : UInt32} {needs : Prop} {s s' : Session σ} {e : Event}

structure Guarded (o : Opening σ) (bound : UInt32) (s : Session σ) : Prop where
  guards : o.Guards bound s.world
  owns : ∀ h ∈ s.held, o.Owns s.world h.value

theorem Guarded.knowing (h : s.Guarded o bound) : s.Knowing :=
  fun x hx ref hcontent => (h.owns x hx ref hcontent).knows

structure Proceeds (o : Opening σ) (needs : Prop) (bound : UInt32) (s s' : Session σ) : Prop where
  advances : o.Advances needs bound s.world s'.world
  held : ∀ h ∈ s'.held, h ∈ s.held ∨ o.Owns s'.world h.value

theorem proceeds_idle (h : o.Guards bound s.world) (hnone : ¬needs) : Proceeds o needs bound s s :=
  ⟨.idle h hnone, fun _ => Or.inl⟩

theorem proceeds_acquire {act : Action σ Value} (origin : Bytes)
    (h : o.Yields needs bound s.world (act s.world)) :
    Proceeds o needs bound s (s.acquire act origin) := by
  cases hrun : act s.world with
  | error e w =>
    rw [hrun] at h
    rw [acquire_error hrun]
    cases h with | error hadvances => exact ⟨hadvances, fun _ => Or.inl⟩
  | ok v w =>
    rw [hrun] at h
    rw [acquire_ok hrun]
    cases h with | ok hadvances howns =>
    refine ⟨hadvances, fun x hmem => ?_⟩
    rcases List.mem_append.1 hmem with hold | hnew
    · exact Or.inl hold
    · rw [List.mem_singleton.1 hnew]
      exact Or.inr howns

theorem proceeds_onHeld {i : Nat} {act : Held → Session σ} (h : o.Guards bound s.world)
    (hnone : s.held[i]? = none → ¬needs)
    (hsome : ∀ x, s.held[i]? = some x → Proceeds o needs bound s (act x)) :
    Proceeds o needs bound s (s.onHeld i act) := by
  cases hi : s.held[i]? with
  | none =>
    rw [onHeld_none hi]
    exact proceeds_idle h (hnone hi)
  | some x =>
    rw [onHeld_some hi]
    exact hsome x hi

omit [FileStore σ] [LocalStore σ] [FolderStore σ] in
theorem run_eq (s : Session σ) (act : Action σ Unit) :
    s.run act = { s with world := after act s.world } := by
  unfold run after
  cases act s.world <;> rfl

variable [Codec] [QuietStore σ]

/-- Whatever an operation does, and whether or not it goes through, what was found is guarded. -/
theorem Guarded.proceeds (h : s.Guarded o bound) (e : Event)
    (hfits : s.Allocates o.db e → o.db.Fits s.world) :
    Proceeds o (s.Allocates o.db e) bound s (s.step o.db e) := by
  have howns {i : Nat} {x : Held} (hi : s.held[i]? = some x) : o.Owns s.world x.value :=
    h.owns x (List.mem_of_getElem? hi)
  cases e with
  | create kind plan declared => exact proceeds_acquire _ (h.guards.create kind _ declared hfits)
  | inline kind data =>
    simp only [step]
    split
    next v hv =>
      refine ⟨.idle h.guards not_false, fun x hmem => ?_⟩
      rcases List.mem_append.1 hmem with hold | hnew
      · exact Or.inl hold
      · rw [List.mem_singleton.1 hnew]
        exact Or.inr (Opening.owns_inline (Value.file?_of_inlineBytes? (Value.inline_whole hv).1))
    next => exact proceeds_idle h.guards not_false
  | clone i =>
    refine proceeds_onHeld h.guards (fun _ => not_false) fun x hi => ?_
    exact proceeds_acquire _ (h.guards.clone (howns hi))
  | link i table =>
    refine proceeds_onHeld h.guards ?_ fun x hi => ?_
    · rintro hi ⟨_, _, _, hx, -⟩
      cases hi.symm.trans hx
    have hlink := h.guards.link (howns hi) table (by
      rintro ⟨ref, owner, hcontent, hlive, howner, hne⟩
      exact hfits ⟨x, ref, owner, hi, hcontent, hlive, (howns hi ref hcontent).served, howner, hne⟩)
    refine proceeds_acquire _ (hlink.mono ?_)
    rintro ⟨y, ref, owner, hy, hcontent, hlive, -, howner, hne⟩
    cases hi.symm.trans hy
    exact ⟨ref, owner, hcontent, hlive, howner, hne⟩
  | unlink i =>
    refine proceeds_onHeld h.guards (fun _ => not_false) fun x hi => ?_
    exact proceeds_acquire _ (h.guards.unlink (howns hi))
  | close i =>
    refine proceeds_onHeld h.guards (fun _ => not_false) fun x hi => ?_
    rw [run_eq]
    exact ⟨.idle (h.guards.close (howns hi)) not_false, fun _ => Or.inl⟩
  | convert i kind =>
    refine proceeds_onHeld h.guards ?_ fun x hi => ?_
    · rintro hi ⟨_, _, _, hx, -⟩
      cases hi.symm.trans hx
    have hconvert := h.guards.convert (howns hi) kind (by
      rintro ⟨r, w, hkind, hrun, hneeds⟩
      exact hfits ⟨x, r, w, hi, hkind, hrun, hneeds⟩)
    refine proceeds_acquire _ (hconvert.mono ?_)
    rintro ⟨y, r, w, hy, hkind, hrun, hneeds⟩
    cases hi.symm.trans hy
    exact ⟨r, w, hkind, hrun, hneeds⟩
  | spill i =>
    refine proceeds_onHeld h.guards ?_ fun x hi => ?_
    · rintro hi ⟨_, _, _, hx, -⟩
      cases hi.symm.trans hx
    have hspill := h.guards.spill (howns hi) (by
      rintro ⟨data, stamp, hcontent, hlarge, hneeds⟩
      exact hfits ⟨x, data, stamp, hi, hcontent, hlarge, hneeds⟩)
    refine proceeds_acquire _ (hspill.mono ?_)
    rintro ⟨y, data, stamp, hy, hcontent, hlarge, hneeds⟩
    cases hi.symm.trans hy
    exact ⟨data, stamp, hcontent, hlarge, hneeds⟩
  | drop i =>
    refine proceeds_onHeld h.guards (fun _ => not_false) fun x hi => ?_
    rw [run_eq]
    exact ⟨.idle (h.guards.drop (howns hi)) not_false, fun _ hmem =>
      Or.inl (List.mem_of_mem_eraseIdx hmem)⟩

/-- One operation later the ids that may be in use are more, and with them is the one that the operation
was given. -/
theorem Guarded.step (h : s.Guarded o bound) (e : Event)
    (hfits : s.Allocates o.db e → o.db.Fits s.world) :
    ∃ bound', bound ≤ bound' ∧ (s.step o.db e).Guarded o bound' ∧
      (s.Allocates o.db e → ∀ id w, o.db.allocate s.world = .ok id w → id.word < bound') := by
  obtain ⟨⟨bound', hle, hguards, hids⟩, hheld⟩ := h.proceeds e hfits
  have hlasts := (step_carries h.knowing o.db e).lasts
  refine ⟨bound', hle, ⟨hguards, fun x hx => ?_⟩, hids⟩
  rcases hheld x hx with hold | howns
  · exact (h.owns x hold).lasts hlasts
  · exact howns

theorem Guarded.reaches (h : s.Guarded o bound) (hreaches : Reaches o.db s s') :
    ∃ bound', bound ≤ bound' ∧ s'.Guarded o bound' := by
  induction hreaches with
  | start => exact ⟨bound, UInt32.le_refl bound, h⟩
  | step e _ hfits ih =>
    obtain ⟨bound₁, hle, hguarded⟩ := ih
    obtain ⟨bound₂, hle', hguarded', -⟩ := hguarded.step e hfits
    exact ⟨bound₂, UInt32.le_trans hle hle', hguarded'⟩

end Session

/-- The path that the file of a value has once the value is linked with a table, where that takes a rename
or a copy. -/
inductive Value.Goal (db : Database) (v : Value) (table : TableId) (w : World σ) : Path → Prop
  | moved {ref : ValueFile} : v.content = .file ref → (w.handle ref.handle).retired = false →
    ref.owner = .temp → Goal db v table w (db.naming.path ref.layout (.table table) ref.id)
  | copied {ref : ValueFile} {owner : TableId} {id : ObjectId} {w' : World σ} :
    v.content = .file ref → (w.handle ref.handle).retired = false → ref.owner = .table owner →
    owner ≠ table → db.allocate w = .ok id w' →
    Goal db v table w (db.naming.path db.layout (.table table) id)

inductive Session.Links [Codec] (db : Database) (s : Session σ) : Event → Value → TableId → World σ → Prop
  | link {i : Nat} {table : TableId} {x : Held} : s.held[i]? = some x →
    Links db s (.link i table) x.value table s.world
  | spill {i : Nat} {data : Bytes} {table : TableId} {x : Held} {first : Value} {w : World σ} :
    s.held[i]? = some x → x.value.content = .inline data (some table) →
    db.settings.inlineThreshold < x.value.precision →
    Value.create db x.value.kind (.planned [.bytes data]) (some x.value.precision) s.world =
      .ok first w →
    Links db s (.spill i) first table w

omit [LocalStore σ] [FolderStore σ] in
/-- Once the value is linked, that is where its file is. -/
theorem Value.Goal.path?_link {db : Database} {v u : Value} {table : TableId} {w w' : World σ} {p : Path}
    (h : v.Goal db table w p) (hlink : v.link db table w = .ok u w') : u.path? w' = some p := by
  have hserved : ∀ ref, v.content = .file ref → (w.handle ref.handle).retired = false →
      ¬(ref.layout = .sharded ∧ db.layout = .flat) := by
    intro ref hcontent hlive hrefused
    rw [link_unserved hcontent table hlive hrefused] at hlink
    cases hlink
  cases h with
  | @moved ref hcontent hlive htemp =>
    rw [link_served hcontent table hlive (hserved ref hcontent hlive), htemp] at hlink
    dsimp only [moveTo] at hlink
    rw [bind_ok (World.livePath_ok hlive)] at hlink
    cases hrename : FileStore.rename (w.handle ref.handle).path
        (db.naming.path ref.layout (.table table) ref.id) w.store with
    | error e s =>
      rw [bind_error (World.onStore_error hrename)] at hlink
      cases hlink
    | ok _ s =>
      rw [relocate_renamed ref.handle false
        (fun handle => v.withFile { ref with owner := .table table, handle }) hrename] at hlink
      cases hlink
      show some (World.handle _ w.handles.length).path = _
      rw [World.handle_modify_append_new (w := w) rfl]
  | @copied ref owner id w₁ hcontent hlive howner hne halloc =>
    rw [link_served hcontent table hlive (hserved ref hcontent hlive), howner] at hlink
    dsimp only at hlink
    rw [if_neg hne, copyTo_found v table hlive halloc] at hlink
    cases hcopy : FileStore.copy (w.handle ref.handle).path
        (db.naming.path db.layout (.table table) id) w₁.store with
    | error e s =>
      rw [hcopy] at hlink
      cases hlink
    | ok count s =>
      rw [hcopy] at hlink
      cases hlink
      show some (World.handle _ w₁.handles.length).path = _
      rw [World.handle_append_new (w := w₁) rfl]
      rfl

section Goals

variable {o : Opening σ} {bound : UInt32} {w : World σ} {v : Value} {table : TableId} {p : Path}
  {s : Session σ} {e : Event}

/-- Where linking puts a file, there is nothing. -/
theorem Opening.Guards.goal_clear (h : o.Guards bound w) (hv : o.Owns w v)
    (hfits : v.NeedsCopy table w → o.db.Fits w) (hgoal : v.Goal o.db table w p) :
    FileStore.isFile p w.store = false ∧ FileStore.isDirectory p w.store = false := by
  cases hgoal with
  | moved hcontent hlive htemp =>
    have hown := hv _ hcontent
    obtain ⟨hstart, hlt, hclear⟩ := h.live (hown.live hlive)
    rw [hown.path]
    exact h.clear hstart (Allocator.ne_last_of_lt hlt) (hclear _ (by rw [htemp]; nofun))
  | copied hcontent hlive howner hne halloc =>
    rcases h.allocate (hfits ⟨_, _, hcontent, hlive, howner, hne⟩) with
      ⟨id, counters, hfound, hle, hfresh, hlt, -⟩ | ⟨e, counters, hnone, -⟩
    · cases hfound.symm.trans halloc
      rw [o.path_eq]
      exact h.clear hfresh.start_le (Allocator.ne_last_of_lt hlt) (hfresh.fileIn?_eq _)
    · cases hnone.symm.trans halloc

theorem Session.Guarded.goal_clear [Codec] [QuietStore σ] (h : s.Guarded o bound)
    (hfits : s.Allocates o.db e → o.db.Fits s.world) (hlinks : s.Links o.db e v table w)
    (hgoal : v.Goal o.db table w p) :
    FileStore.isFile p w.store = false ∧ FileStore.isDirectory p w.store = false := by
  cases hlinks with
  | @link i _ x hi =>
    have howns := h.owns x (List.mem_of_getElem? hi)
    exact h.guards.goal_clear howns (fun ⟨ref, owner, hcontent, hlive, howner, hne⟩ =>
      hfits ⟨x, ref, owner, hi, hcontent, hlive, (howns ref hcontent).served, howner, hne⟩) hgoal
  | @spill i data _ x _ _ hi hcontent hlarge hrun =>
    have hcreate := h.guards.create x.value.kind (.planned [.bytes data]) (some x.value.precision)
      fun hneeds => hfits ⟨x, data, some table, hi, hcontent, hlarge, hneeds⟩
    rw [hrun] at hcreate
    cases hcreate with | ok hadvances howns =>
    obtain ⟨bound', -, hguards, -⟩ := hadvances
    refine hguards.goal_clear howns (fun ⟨ref, owner, hfile, _, howner, _⟩ => ?_) hgoal
    cases (Value.owner_of_create hrun hfile).symm.trans howner

end Goals

section Opened

variable {base : Path} {settings : Settings} {db : Database} {w₀ w : World σ}

omit [LocalStore σ] [FolderStore σ] in
/-- Opening a database with flat names makes a counter that goes on after what was listed. -/
theorem Database.openAt_seeded (hlayout : settings.layout = .flat)
    (hopen : Database.openAt base settings w₀ = .ok db w) :
    db.layout = .flat ∧ db.allocator = .counter w₀.counters.length ∧ ∃ entries s,
      FileStore.list db.naming.flatDirectory w₀.store = .ok entries s ∧
      w = { w₀ with
        store := s
        counters := w₀.counters ++ [
          let highest := Allocator.highestFlat db.naming entries
          max (if highest = Allocator.lastWord then highest else highest + 1) 1] } := by
  obtain ⟨-, allocator, rfl, hseed⟩ := Database.openAt_eq_ok hopen
  rw [hlayout] at hseed
  obtain ⟨rfl, hlisted⟩ := Allocator.afterHighest_eq_ok hseed
  exact ⟨hlayout, rfl, hlisted⟩

/-- What was found when a database was opened is guarded from then on, and the ids go on after the ids
that were found. -/
theorem Opening.exists_of_openAt [QuietStore σ] (hlayout : settings.layout = .flat)
    (hopen : Database.openAt base settings w₀ = .ok db w) (hnested : db.naming.Nested)
    (hsane : Sane w₀.store) (hsettled : Settled db.naming.flatDirectory w₀.store) :
    ∃ o : Opening σ, o.db = db ∧ o.store = w₀.store ∧
      (∀ t owner id, Taken o.dir w₀.store t → db.naming.parseFlat? t = some (owner, id) →
        id.word < o.start ∨ o.start = Allocator.lastWord) ∧ o.Guards o.start w := by
  obtain ⟨hflat, hcounter, entries, s, hlist, rfl⟩ := Database.openAt_seeded hlayout hopen
  obtain rfl : w₀.store = s := (QuietStore.list_keeps _ _).symm.trans (after_ok hlist)
  let highest := Allocator.highestFlat db.naming entries
  let start := max (if highest = Allocator.lastWord then highest else highest + 1) 1
  have hbelow : ∀ t owner id, Taken db.naming.flatDirectory w₀.store t →
      db.naming.parseFlat? t = some (owner, id) → id.word < start ∨ start = Allocator.lastWord := by
    intro t owner id htaken hread
    obtain ⟨entry, hmem, hname⟩ :=
      listed hsane (Naming.flatDirectory_of_lead hnested.name hnested.lead).2.1 hlist htaken
    have hfound : entry.fileName?.bind db.naming.parseFlat? = some (owner, id) := by
      rw [hname]
      exact hread
    exact Naming.lt_seed (Naming.le_highestFlat hmem hfound)
  have hfree : ∀ owner (id : ObjectId), start ≤ id.word → id.word ≠ Allocator.lastWord →
      ¬Taken db.naming.flatDirectory w₀.store (db.naming.flatName owner id) := by
    intro owner id hle hne htaken
    rcases hbelow _ owner id htaken ((db.naming.parseFlat?_flat_iff owner id).2 hnested.name) with
      hlt | hlast
    · exact UInt32.not_le.2 hlt hle
    · exact hne (UInt32.le_antisymm (Allocator.le_last id.word) (hlast ▸ hle))
  let o : Opening σ := {
    db, start, flat := hflat, counts := hcounter, nested := hnested, free := hfree
    place := w₀.counters.length
    first := w₀.handles.length
    store := w₀.store }
  have hnolive : ∀ {k owner id}, ¬o.Live { w₀ with counters := w₀.counters ++ [start] } k owner id :=
    fun hlive => Nat.not_le.2 hlive.knows hlive.first_le
  refine ⟨o, rfl, rfl, hbelow, hsane, hsettled, Or.inl List.getElem?_concat_length, UInt32.le_refl _,
    Nat.le_refl _, fun _ => Iff.rfl, fun _ _ => rfl, fun owner id hle hne => ?_,
    fun hlive => absurd hlive hnolive, fun hlive => absurd hlive hnolive⟩
  by_contra hfile
  exact hfree owner id hle hne (Or.inl (Option.isSome_iff_ne_none.2 hfile))

/-- A database with flat names is opened over any store, in a directory that is there or that names alone
lead to from one that is there, as they do in memory. Then, as long as words are enough for the ids,
every file that was found in the directory keeps its content, whatever operations come and whether or
not they go through. An id that is looked for is greater than those that were found under flat names,
temporary or not, and less than all that come later. Where linking gives a file a new name or copies it to,
there is nothing. -/
theorem Session.found_files_guarded [Codec] [QuietStore σ] {s : Session σ}
    (hlayout : settings.layout = .flat) (hopen : Database.openAt base settings w₀ = .ok db w)
    (hnested : db.naming.Nested) (hsane : Sane w₀.store) (hsettled : Settled db.naming.flatDirectory w₀.store)
    (hreaches : Reaches db { world := w } s) :
    let dir := db.naming.flatDirectory
    (∀ t, (fileIn? dir w₀.store t).isSome →
      fileIn? dir s.world.store t = fileIn? dir w₀.store t) ∧
    ∀ e, (s.Allocates db e → db.Fits s.world) →
      (s.Allocates db e → ∀ id w₁, db.allocate s.world = .ok id w₁ →
        (∀ t owner found, Taken dir w₀.store t → db.naming.parseFlat? t = some (owner, found) →
          found.word < id.word) ∧
        ∀ s' e', Reaches db (s.step db e) s' → s'.Allocates db e' → db.Fits s'.world →
          ∀ id' w₂, db.allocate s'.world = .ok id' w₂ → id.word < id'.word) ∧
      ∀ v table w₁ goal, s.Links db e v table w₁ → v.Goal db table w₁ goal →
        FileStore.isFile goal w₁.store = false ∧ FileStore.isDirectory goal w₁.store = false := by
  obtain ⟨o, rfl, hstore, hbelow, hguards⟩ :=
    Opening.exists_of_openAt hlayout hopen hnested hsane hsettled
  have hfirst : Guarded o o.start { world := w } := ⟨hguards, nofun⟩
  obtain ⟨bound, hle, hguarded⟩ := hfirst.reaches hreaches
  -- What an allocation answers is at the bound or above it, and not the last word.
  have hanswer : ∀ {bound : UInt32} {s : Session σ}, s.Guarded o bound → o.db.Fits s.world →
      ∀ {id w₁}, o.db.allocate s.world = .ok id w₁ → bound ≤ id.word ∧ id.word ≠ Allocator.lastWord := by
    intro bound s hguarded hfits id w₁ halloc
    rcases hguarded.guards.allocate hfits with ⟨id', counters, hfound, hfrom, -, hlt, -⟩ |
      ⟨e, counters, hnone, -⟩
    · cases hfound.symm.trans halloc
      exact ⟨hfrom, Allocator.ne_last_of_lt hlt⟩
    · cases hnone.symm.trans halloc
  intro dir
  refine ⟨fun t ht => ?_, fun e hfits => ⟨fun hneeds id w₁ halloc => ⟨?_, ?_⟩, ?_⟩⟩
  · rw [← hstore] at ht ⊢
    exact hguarded.guards.kept t ht
  · intro t owner found htaken hread
    obtain ⟨hfrom, hne⟩ := hanswer hguarded (hfits hneeds) halloc
    rcases hbelow t owner found htaken hread with hlt | hlast
    · exact UInt32.lt_of_lt_of_le hlt (UInt32.le_trans hle hfrom)
    · have hend := UInt32.le_trans hle hfrom
      rw [hlast] at hend
      exact absurd (UInt32.le_antisymm (Allocator.le_last id.word) hend) hne
  · intro s' e' hlater hneeds' hfits' id' w₂ halloc'
    obtain ⟨bound₁, -, hstep, hids⟩ := hguarded.step e hfits
    obtain ⟨bound₂, hle₂, hguarded'⟩ := hstep.reaches hlater
    have hlt := hids hneeds id w₁ halloc
    exact UInt32.lt_of_lt_of_le hlt (UInt32.le_trans hle₂ (hanswer hguarded' hfits' halloc').1)
  · intro v table w₁ goal hlinks hgoal
    exact hguarded.goal_clear hfits hlinks hgoal

def Disk.having (p : Path) (content : Bytes) : Disk :=
  match FileStore.create p (default : Disk) with
  | .ok w d => FileStore.close w (after (FileStore.write w content) d)
  | .error _ d => d

theorem Disk.tree_having (p : Path) (content : Bytes) : (Disk.having p content).Tree := by
  have hcreated := Disk.Tree.default.run (.create p)
  unfold Disk.having
  cases hcreate : FileStore.create p (default : Disk) with
  | ok w d =>
    rw [show (Request.create p).run (default : Disk) = d from after_ok hcreate] at hcreated
    exact (hcreated.run (.write w content)).run (.close w)
  | error e d =>
    rw [show (Request.create p).run (default : Disk) = d from after_error hcreate] at hcreated
    exact hcreated

namespace Session

def freshValue (id : ObjectId) : Value where
  kind := .binary
  precision := 3
  content := .file { id, owner := .temp, compressed := false, layout := .flat, handle := 0 }

/-- What it takes to link such a value. -/
theorem links_fresh (s : Session Disk) (db : Database) (id : ObjectId) (table : TableId)
    (hheld : s.held.map (·.value) = [freshValue id]) (hlive : (s.world.handle 0).retired = false) :
    ∃ v, s.Links db (.link 0 table) v table s.world ∧
      v.Goal db table s.world (db.naming.path .flat (.table table) id) := by
  obtain ⟨x, hx, hvalue⟩ := List.map_eq_singleton_iff.1 hheld
  have hi : s.held[0]? = some x := by rw [hx]; rfl
  have hcontent : x.value.content = .file _ := congrArg Value.content hvalue
  exact ⟨x.value, .link hi, .moved hcontent hlive rfl⟩

def foundWorld : World Disk where
  store := .having (flatDatabase.naming.flatPath (.table ⟨6⟩) ⟨1⟩) [9]

def reopenedSession : Session Disk :=
  ({ world := { foundWorld with counters := [2] } } : Session Disk).step flatDatabase
    (.create .binary threeOctets none)

/-- A table has a file already when a database is opened next to it, and then a value is made. -/
theorem found_files_guarded_reopened :
    flatSettings.layout = .flat ∧ Database.openAt ⟨['d', '/', 'b']⟩ flatSettings foundWorld =
      .ok flatDatabase { foundWorld with counters := [2] } ∧
    flatDatabase.naming.Nested ∧ foundWorld.store.Tree ∧
    Disk.Settled flatDatabase.naming.flatDirectory foundWorld.store ∧
    Reaches flatDatabase { world := { foundWorld with counters := [2] } } reopenedSession ∧
    Disk.fileIn? flatDatabase.naming.flatDirectory reopenedSession.world.store
      "b.6.1.lob.db".toList = some [9] ∧
    ∃ v, reopenedSession.Links flatDatabase (.link 0 ⟨6⟩) v ⟨6⟩ reopenedSession.world ∧
      FileStore.isFile (flatDatabase.naming.flatPath (.table ⟨6⟩) ⟨2⟩) reopenedSession.world.store =
        false := by
  have hopen : Database.openAt ⟨['d', '/', 'b']⟩ flatSettings foundWorld =
      .ok flatDatabase { foundWorld with counters := [2] } := rfl
  have hnested : flatDatabase.naming.Nested :=
    ⟨⟨by decide, by decide, by decide, by decide⟩, by decide⟩
  have htree : foundWorld.store.Tree :=
    Disk.tree_having (flatDatabase.naming.flatPath (.table ⟨6⟩) ⟨1⟩) [9]
  have hsettled : Disk.Settled flatDatabase.naming.flatDirectory foundWorld.store :=
    ⟨[], [['d']], 1, by decide, rfl⟩
  have hreaches : Reaches flatDatabase { world := { foundWorld with counters := [2] } } reopenedSession :=
    .step _ .start fun _ => show (2 : UInt32) ≠ 0 by decide
  obtain ⟨hkept, hrest⟩ := found_files_guarded rfl hopen hnested htree hsettled hreaches
  have hfound : Disk.fileIn? flatDatabase.naming.flatDirectory foundWorld.store
      "b.6.1.lob.db".toList = some [9] := rfl
  have hsame := hkept "b.6.1.lob.db".toList (Option.isSome_of_eq_some hfound)
  have hfits : flatDatabase.Fits reopenedSession.world :=
    show reopenedSession.world.counters.getD 0 0 ≠ 0 by decide +kernel
  obtain ⟨v, hlinks, hgoal⟩ := links_fresh reopenedSession flatDatabase ⟨2⟩ ⟨6⟩
    (by decide +kernel) (by decide +kernel)
  have hclear := (hrest (.link 0 ⟨6⟩) fun _ => hfits).2 v ⟨6⟩ _ _ hlinks hgoal
  exact ⟨rfl, hopen, hnested, htree, hsettled, hreaches, hsame.trans hfound, v, hlinks, hclear.1⟩

def strayWorld : World Disk where
  store := .having (.ofString "b.6.1.lob.db") [9]

def strayDatabase : Database where
  settings := flatSettings
  naming := ⟨(Path.ofString "x/..").join ['b'], 256⟩
  allocator := .counter 0

def straySession : Session Disk :=
  ({ world := { strayWorld with counters := [1] } } : Session Disk).step strayDatabase
    (.create .binary threeOctets none)

/-- Over a directory that is missing and is left again by two dots, a flat file is found only once the
directory is made. Its id is given out again, and linking overwrites it. -/
theorem stray_file_overwritten :
    Database.openAt ((Path.ofString "x/..").join ['b']) flatSettings strayWorld =
      .ok strayDatabase { strayWorld with counters := [1] } ∧
    strayDatabase.naming.Nested ∧ strayWorld.store.Tree ∧
    strayDatabase.naming.parseFlat? "b.6.1.lob.db".toList = some (.table ⟨6⟩, ⟨1⟩) ∧
    Reaches strayDatabase { world := { strayWorld with counters := [1] } } straySession ∧
    straySession.held.map (·.value.objectId?) = [some ⟨1⟩] ∧
    (∃ v goal, straySession.Links strayDatabase (.link 0 ⟨6⟩) v ⟨6⟩ straySession.world ∧
      v.Goal strayDatabase ⟨6⟩ straySession.world goal ∧
      FileStore.isFile goal straySession.world.store = true) ∧
    strayDatabase.Fits straySession.world ∧
    contentAt? strayWorld.store (.ofString "b.6.1.lob.db") = some [9] ∧
    contentAt? (straySession.step strayDatabase (.link 0 ⟨6⟩)).world.store
      (.ofString "b.6.1.lob.db") = some [1, 2, 3] := by
  have hreaches : Reaches strayDatabase { world := { strayWorld with counters := [1] } } straySession :=
    .step _ .start fun _ => show (1 : UInt32) ≠ 0 by decide
  have hfits : strayDatabase.Fits straySession.world :=
    show straySession.world.counters.getD 0 0 ≠ 0 by decide +kernel
  obtain ⟨v, hlinks, hgoal⟩ := links_fresh straySession strayDatabase ⟨1⟩ ⟨6⟩
    (by decide +kernel) (by decide +kernel)
  exact ⟨rfl, ⟨⟨by decide, by decide, by decide, by decide⟩, by decide⟩,
    Disk.tree_having (.ofString "b.6.1.lob.db") [9], by decide, hreaches, by decide +kernel,
    ⟨v, _, hlinks, hgoal, by decide +kernel⟩, hfits, by decide +kernel, by decide +kernel⟩

end Session

end Opened

end LargeObjects
