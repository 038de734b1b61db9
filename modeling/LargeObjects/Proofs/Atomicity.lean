import Mathlib
import LargeObjects.Proofs.Coverage
import LargeObjects.Proofs.Freshness
import LargeObjects.Proofs.Outcomes

/-! Operations that fail. Wherever the failure comes from, custody of the files lasts, and where what
an operation has made can be deleted again, it leaves the files as they were. -/
namespace LargeObjects

open ReliableStore FallibleStore Step

namespace World

variable {σ : Type} [FileStore σ] [FallibleStore σ] {w w' : World σ}

/-- The handles are as they were, and so is every file that was there. If what is made can be
deleted, there is no other file either. -/
structure Unharmed (w w' : World σ) : Prop where
  handles_eq : ∃ more, w'.handles = w.handles ++ more
  file_eq : ∀ q, (fileAt? w.below.store q).isSome ∨ Cleans w.store →
    fileAt? w'.below.store q = fileAt? w.below.store q

theorem Unharmed.of_near (hnear : Near [] w.store w'.store) (hhandles : w'.handles = w.handles) :
    w.Unharmed w' :=
  ⟨⟨[], by rw [hhandles, List.append_nil]⟩, fun q _ => hnear.file_eq q⟩

/-- A file that is new is deleted again. -/
theorem Unharmed.of_discard (hlooks : w.Looks w') {path : Path} {s : σ}
    (hnear : Near [path.components] w'.store s)
    (hnone : fileAt? w.below.store path.components = none) (more : List Handle) :
    w.Unharmed { w' with
      store := after (FileStore.delete path) s
      handles := w'.handles ++ more } := by
  refine ⟨⟨more, by rw [hlooks.handles_eq]⟩, fun q hq => ?_⟩
  by_cases hpath : q = path.components
  · rw [hpath] at hq ⊢
    rw [hnone] at hq ⊢
    rcases hq with hsome | hcleans
    · cases hsome
    · exact hcleans.gone (hlooks.looked.later.trans hnear.later) hnone
  · have hq' : q ∉ [path.components] := fun h => hpath (List.mem_singleton.1 h)
    calc fileAt? (FallibleStore.below (after (FileStore.delete path) s)) q
        = fileAt? (FallibleStore.below s) q := FallibleStore.elsewhere (.delete path) s hq'
      _ = fileAt? (FallibleStore.below w'.store) q := hnear.elsewhere q hq'
      _ = fileAt? (FallibleStore.below w.store) q := by rw [hlooks.looked.below_eq]

end World

namespace Value

variable {σ : Type} [FileStore σ] [FallibleStore σ] {db : Database} {needs : Prop} {owner : Owner}
  {v : Value} {w w' : World σ} {e : ObjectError}

theorem Creates.unharmed (h : Creates db needs owner w (.error e w'))
    (hlayout : db.layout = .sharded) (hmild : Mild w.store) (hroomy : needs → db.Roomy w.below) :
    w.Unharmed w' := by
  cases h with
  | looked hlooks => exact .of_near (hlooks.looked.near []) hlooks.handles_eq
  | uncreated _ hfinds hcreate =>
    have hlooked := hfinds.looks.looked
    have hnear := (hmild.later hlooked.later).create_files hcreate
    exact .of_near ((hlooked.near []).trans hnear) hfinds.looks.handles_eq
  | @abandoned _ id _ _ _ hneeds hfinds hnear =>
    have hfree := Database.free_of_allocate hlayout (hroomy hneeds) hfinds.found
    refine .of_discard hfinds.looks hnear ?_ _
    rw [hlayout]
    exact hfree.file_eq_none owner

theorem Relinks.unharmed (h : Relinks db needs v w (.error e w')) (hlayout : db.layout = .sharded)
    (hmild : Mild w.store) (hroomy : needs → db.Roomy w.below) : w.Unharmed w' := by
  cases h with
  | creates h => exact h.unharmed hlayout hmild hroomy
  | unmoved _ hrename => exact .of_near (hmild.rename_files hrename) rfl

theorem Spills.unharmed (h : Spills db needs v w (.error e w')) (hlayout : db.layout = .sharded)
    (hmild : Mild w.store) (hroomy : needs → db.Roomy w.below) : w.Unharmed w' := by
  cases h with
  | relinks h => exact h.unharmed hlayout hmild hroomy
  | unmoved hneeds hfinds hnear hrename =>
    have hfree := Database.free_of_allocate hlayout (hroomy hneeds) hfinds.found
    have hlater := hfinds.looks.looked.later.trans hnear.later
    have hunmoved := (hmild.later hlater).rename_files hrename
    refine .of_discard hfinds.looks (hnear.trans (hunmoved.mono (List.nil_subset _))) ?_ _
    rw [hlayout]
    exact hfree.file_eq_none .temp

/-- A file that cannot be deleted stays. -/
theorem close_unharmed (h : v.close w = .error e w') (hmild : Mild w.store) : w.Unharmed w' := by
  rcases close_cases v w with hrun | ⟨ref, -, -, ⟨cause, s, hdelete, hrun⟩ | ⟨found, s, -, hrun⟩⟩
  · rw [hrun] at h
    cases h
  · rw [hrun] at h
    cases h
    exact .of_near (hmild.delete_files hdelete) rfl
  · rw [hrun] at h
    cases h

end Value

section Custody

variable [Codec] {σ : Type} [FileStore σ] [ReliableStore σ] {n : Naming} {db : Database} {s : Session σ}

/-- Custody lasts while the handles and the files that they have stay. -/
theorem Kept.undisturbed (hk : Kept db n s) (hscan : ∀ place, db.allocator ≠ .counter place)
    {w' : World σ} {more : List Handle} (hhandles : w'.handles = s.world.handles ++ more)
    (hfile : ∀ {ref origin}, s.Uses ref origin → s.world.Owns ref.handle →
      fileAt? w'.store (n.path ref.layout ref.owner ref.id).components =
        fileAt? s.world.store (n.path ref.layout ref.owner ref.id).components) :
    Kept db n { s with world := w' } := by
  have hold : ∀ {k}, s.world.Knows k → w'.handle k = s.world.handle k :=
    World.handle_append_old hhandles
  -- No handle changes, so custody may be said to change at one that is not there.
  refine hk.change (k := s.world.handles.length)
    ⟨fun j _ hj => ⟨hj.of_append hhandles, hold hj⟩, fun hu ho _ => hfile hu ho⟩
    (fun hu heq => absurd heq (hk.not_new hu)) hk.held_made (fun hu => ?_) fun hplace => ?_
  · rw [hold (hk.backed hu).known]
    exact hk.counted hu
  · exact absurd hplace (hscan _)

omit [Codec] [FileStore σ] [ReliableStore σ] in
theorem Database.Opened.scans (h : db.Opened n) (hlayout : db.layout = .sharded) (place : Nat) :
    db.allocator ≠ .counter place := by
  cases h with
  | tree => nofun
  | flat hflat => cases hflat.symm.trans hlayout

end Custody

namespace Session

section Failures

variable [Codec] {σ : Type} [FileStore σ] [FallibleStore σ]

def below (s : Session σ) : Session (Base σ) := { world := s.world.below, held := s.held, made := s.made }

def Fails (db : Database) (s : Session σ) : Event → World σ → Prop
  | .create kind plan declared, w' =>
    ∃ e, Value.create db kind (.planned plan.deliveries) declared s.world = .error e w'
  | .link i table, w' => ∃ h e, s.held[i]? = some h ∧ h.value.link db table s.world = .error e w'
  | .close i, w' => ∃ h e, s.held[i]? = some h ∧ h.value.close s.world = .error e w'
  | .convert i kind, w' =>
    ∃ h e, s.held[i]? = some h ∧ h.value.convert db kind s.world = .error e w'
  | .spill i, w' => ∃ h e, s.held[i]? = some h ∧ h.value.spill db s.world = .error e w'
  | .inline _ _, _ | .clone _, _ | .unlink _, _ | .drop _, _ => False

/-- What operations lead to when calls on the store may fail. Between operations it can change which
calls will. -/
inductive Endures (db : Database) (first : Session σ) : Session σ → Prop
  | start : Endures db first first
  | weather {s : Session σ} {t : σ} : Endures db first s →
    FallibleStore.below t = FallibleStore.below s.world.store →
    Endures db first { s with world := { s.world with store := t } }
  | step {s : Session σ} (e : Event) : Endures db first s → Mild s.world.store →
    (s.below.Allocates db e → db.Fits s.below.world) → Endures db first (s.step db e)

variable {n : Naming} {db : Database} {s : Session σ} {w' : World σ} {e : Event}

omit [Codec] [FileStore σ] [FallibleStore σ] in
theorem onHeld_some {i : Nat} {h : Held} (hi : s.held[i]? = some h) (act : Held → Session σ) :
    s.onHeld i act = act h := by
  unfold onHeld
  rw [hi]

omit [Codec] [FileStore σ] [FallibleStore σ] in
theorem onHeld_none {i : Nat} (hi : s.held[i]? = none) (act : Held → Session σ) :
    s.onHeld i act = s := by
  unfold onHeld
  rw [hi]

omit [Codec] in
/-- A value that is acquired is acquired beneath as well. -/
theorem acquire_below {act : Action σ Value} {act' : Action (Base σ) Value} (origin : Bytes)
    (hmirrors : ∀ {v w}, act s.world = .ok v w → act' s.world.below = .ok v w.below) :
    (s.acquire act origin).below = s.below.acquire act' origin ∨
      ∃ e w', act s.world = .error e w' := by
  cases hrun : act s.world with
  | ok v w =>
    left
    rw [acquire_ok hrun, acquire_ok (s := s.below) (hmirrors hrun)]
    rfl
  | error e w' => exact Or.inr ⟨e, w', rfl⟩

omit [Codec] in
theorem onHeld_acquire_below {i : Nat} {f : Held → Action σ Value} {f' : Held → Action (Base σ) Value}
    {origin : Held → Bytes}
    (hmirrors : ∀ h v w, f h s.world = .ok v w → f' h s.world.below = .ok v w.below) :
    (s.onHeld i fun h => s.acquire (f h) (origin h)).below =
        s.below.onHeld i (fun h => s.below.acquire (f' h) (origin h)) ∨
      ∃ w' h e, s.held[i]? = some h ∧ f h s.world = .error e w' := by
  cases hi : s.held[i]? with
  | none =>
    rw [onHeld_none hi, onHeld_none (s := s.below) hi]
    exact Or.inl rfl
  | some h =>
    rw [onHeld_some hi, onHeld_some (s := s.below) hi]
    rcases acquire_below (origin h) (hmirrors h _ _) with hsame | ⟨e, w', hrun⟩
    · exact Or.inl hsame
    · exact Or.inr ⟨w', h, e, rfl, hrun⟩

omit [FallibleStore σ] in
/-- An operation that fails changes no value. -/
theorem Fails.step_eq (h : s.Fails db e w') : s.step db e = { s with world := w' } := by
  cases e with
  | create kind plan declared =>
    obtain ⟨err, hrun⟩ := h
    exact acquire_error hrun
  | link | convert | spill =>
    obtain ⟨h, err, hi, hrun⟩ := h
    exact (onHeld_some hi _).trans (acquire_error hrun)
  | close i =>
    obtain ⟨h, err, hi, hrun⟩ := h
    refine (onHeld_some hi _).trans ?_
    simp only [run, hrun]
  | inline | clone | unlink | drop => cases h

section Kept

theorem kept_of_unharmed (hopen : db.Opened n) (hlayout : db.layout = .sharded)
    (hk : Kept db n s.below) (h : s.world.Unharmed w') : Kept db n { s with world := w' }.below := by
  obtain ⟨more, hhandles⟩ := h.handles_eq
  refine hk.undisturbed (hopen.scans hlayout) hhandles fun hu ho => h.file_eq _ (Or.inl ?_)
  obtain ⟨stored, hfile, -⟩ := (hk.backed hu).stored ho
  exact Option.isSome_iff_exists.2 ⟨stored, hfile⟩

/-- An unlinking that fails may have deleted what was at the temporary name, which is no file of a
handle. -/
theorem kept_of_unlink_error (hopen : db.Opened n) (hlayout : db.layout = .sharded)
    (hk : Kept db n s.below) (hmild : Mild s.world.store) {h : Held} (hmem : h ∈ s.held)
    {e : ObjectError} (hrun : h.value.unlink db s.world = .error e w') :
    Kept db n { s with world := w' }.below := by
  have hunlinks := Value.unlink_unlinks db h.value s.world
  rw [hrun] at hunlinks
  cases hunlinks with
  | relinks hrelinks =>
    exact kept_of_unharmed hopen hlayout hk (hrelinks.unharmed hlayout hmild False.elim)
  | undeleted hdelete =>
    exact kept_of_unharmed hopen hlayout hk (.of_near (hmild.delete_files hdelete) rfl)
  | @deleted ref found t _ hcontent hlive howner hdelete hrelinks =>
    have hdeleted := Near.run (.delete (db.naming.path ref.layout .temp ref.id)) (after_ok hdelete)
    have hrest := hrelinks.unharmed hlayout (hmild.later hdeleted.later) False.elim
    obtain ⟨more, hhandles⟩ := hrest.handles_eq
    refine hk.undisturbed (hopen.scans hlayout) hhandles fun {ref' origin'} hu ho => ?_
    have huses : s.below.Uses ref h.origin := ⟨h, hk.held_made hmem, hcontent, rfl⟩
    have hserved : ¬(ref.layout = .sharded ∧ db.layout = .flat) := by
      rintro ⟨-, hflat⟩
      rw [hlayout] at hflat
      cases hflat
    -- A handle with that file would be the one that is being unlinked, which has another owner.
    have hpath : (n.path ref'.layout ref'.owner ref'.id).components ∉
        Request.places target (.delete (db.naming.path ref.layout .temp ref.id) : Request σ) := by
      intro hplace
      have heq := List.mem_singleton.1 hplace
      rw [hopen.path_eq hserved] at heq
      obtain ⟨hsame, htemp, hid⟩ :=
        Naming.path_injective (hk.backed hu).proper (hk.backed huses).proper heq
      have hhandle := hk.apart hu huses ho (hk.owns (s := s.below) hmem hcontent hlive) hsame hid
      obtain ⟨rfl, -⟩ := hk.shared hu huses hhandle
      exact howner htemp
    have hbefore := hdeleted.elsewhere _ hpath
    obtain ⟨stored, hfile, -⟩ := (hk.backed hu).stored ho
    have hthere := hbefore.trans hfile
    exact (hrest.file_eq _ (Or.inl (Option.isSome_iff_exists.2 ⟨stored, hthere⟩))).trans hbefore

/-- A value that is let go takes its file along or leaves it without a handle. -/
theorem kept_of_drop (hk : Kept db n s.below) {i : Nat} {h : Held} (hi : s.held[i]? = some h) :
    Kept db n { s.run h.value.drop with held := s.held.eraseIdx i }.below := by
  cases hcontent : h.value.content with
  | inline data stamp =>
    have hfile : h.value.file? = none := by rw [Value.file?, hcontent]
    simp only [run, Value.drop_inline hfile]
    exact hk.letGo hi hfile
  | file ref =>
    have hmem := List.mem_of_getElem? hi
    have hknown := (hk.backed ⟨h, hk.held_made hmem, hcontent, rfl⟩).known
    by_cases hlast : (s.world.handle ref.handle).Discards
    · have hrun := (Value.drop_file hcontent).trans (World.release_last (w := s.world) hknown hlast)
      simp only [run, hrun]
      -- Whether or not the file could be deleted, it has no handle any more.
      refine hk.release hi hcontent (fun hkeeps => absurd hlast hkeeps) fun _ q hq => ?_
      exact FallibleStore.elsewhere (.delete _) s.world.store fun h => hq (List.mem_singleton.1 h)
    · have hrun := (Value.drop_file hcontent).trans (World.release_keeps (w := s.world) hknown hlast)
      simp only [run, hrun]
      exact hk.release hi hcontent (fun _ => rfl) fun h => absurd h hlast

end Kept

/-- An operation that makes, gives or closes a value goes as it goes beneath, or fails. -/
theorem step_below (db : Database) (s : Session σ) (e : Event) : (∃ i, e = .unlink i) ∨
    (∃ i, e = .drop i) ∨ (s.step db e).below = s.below.step db e ∨
      ∃ w', s.Fails db e w' := by
  cases e with
  | unlink i => exact Or.inl ⟨i, rfl⟩
  | drop i => exact Or.inr (Or.inl ⟨i, rfl⟩)
  | inline kind data =>
    refine Or.inr (Or.inr (Or.inl ?_))
    simp only [step]
    cases Value.inline kind data <;> rfl
  | create kind plan declared =>
    refine Or.inr (Or.inr ?_)
    have hcreate := Value.echoes_create db kind (.planned plan.deliveries : Source σ) declared
    rcases acquire_below _ fun hrun => (hcreate.ok hrun).2 with hsame | ⟨err, w', hrun⟩
    · exact Or.inl hsame
    · exact Or.inr ⟨w', err, hrun⟩
  | clone i =>
    refine Or.inr (Or.inr (Or.inl ?_))
    rcases onHeld_acquire_below (s := s) fun h _ _ hrun =>
      ((Value.echoes_clone h.value).ok hrun).2 with hsame | ⟨w', h, err, -, hrun⟩
    · exact hsame
      -- A value can always be given another holder.
    · obtain ⟨w₁, hok⟩ := Value.clone_ok h.value s.world
      rw [hok] at hrun
      cases hrun
  | link i table =>
    exact Or.inr (Or.inr (onHeld_acquire_below fun h _ _ hrun =>
      ((Value.echoes_link db h.value table).ok hrun).2))
  | convert i kind =>
    exact Or.inr (Or.inr (onHeld_acquire_below fun h _ _ hrun =>
      ((Value.echoes_convert db h.value kind).ok hrun).2))
  | spill i =>
    exact Or.inr (Or.inr (onHeld_acquire_below fun h _ _ =>
      (Value.spill_spills db h.value s.world).2))
  | close i =>
    refine Or.inr (Or.inr ?_)
    simp only [step]
    cases hi : s.held[i]? with
    | none =>
      rw [onHeld_none hi, onHeld_none (s := s.below) hi]
      exact Or.inl rfl
    | some h =>
      rw [onHeld_some hi, onHeld_some (s := s.below) hi]
      cases hrun : h.value.close s.world with
      | ok _ w' =>
        have hbase := ((Value.echoes_close h.value).ok hrun).2
        simp only [run, hrun]
        rw [show h.value.close s.below.world = _ from hbase]
        exact Or.inl rfl
      | error err w' => exact Or.inr ⟨w', h, err, hi, hrun⟩

theorem Fails.unharmed (h : s.Fails db e w') (hlayout : db.layout = .sharded)
    (hmild : Mild s.world.store) (hroomy : s.below.Allocates db e → db.Roomy s.below.world) :
    s.world.Unharmed w' := by
  cases e with
  | create kind plan declared =>
    obtain ⟨err, hrun⟩ := h
    have hcreates := Value.create_creates db kind (.planned plan.deliveries) declared s.world
    rw [hrun] at hcreates
    exact hcreates.unharmed hlayout hmild hroomy
  | link i table =>
    obtain ⟨h, err, hi, hrun⟩ := h
    have hrelinks := Value.link_relinks db h.value table s.world
    rw [hrun] at hrelinks
    refine hrelinks.unharmed hlayout hmild ?_
    rintro ⟨ref, owner, hcontent, hneeds⟩
    exact hroomy ⟨h, ref, owner, hi, hcontent, hneeds⟩
  | close i =>
    obtain ⟨h, err, -, hrun⟩ := h
    exact Value.close_unharmed hrun hmild
  | convert i kind =>
    obtain ⟨h, err, hi, hrun⟩ := h
    have hrelinks := Value.convert_relinks db h.value kind s.world
    rw [hrun] at hrelinks
    refine hrelinks.unharmed hlayout hmild ?_
    rintro ⟨c, w₁, hneeds⟩
    exact hroomy ⟨h, c, w₁, hi, hneeds⟩
  | spill i =>
    obtain ⟨h, err, hi, hrun⟩ := h
    have hspills := (Value.spill_spills db h.value s.world).1
    rw [hrun] at hspills
    refine hspills.unharmed hlayout hmild ?_
    rintro ⟨data, stamp, hcontent, hneeds⟩
    exact hroomy ⟨h, data, stamp, hi, hcontent, hneeds⟩
  | inline | clone | unlink | drop => cases h

theorem kept_of_step [Codec.Inverts] (hopen : db.Opened n) (hlayout : db.layout = .sharded)
    (hk : Kept db n s.below) (hmild : Mild s.world.store)
    (hfits : s.below.Allocates db e → db.Fits s.below.world) :
    Kept db n (s.step db e).below := by
  rcases step_below db s e with ⟨i, rfl⟩ | ⟨i, rfl⟩ | hsame | ⟨w', hfails⟩
  · simp only [step]
    cases hi : s.held[i]? with
    | none => rwa [onHeld_none hi]
    | some h =>
      rw [onHeld_some hi]
      rcases acquire_below (s := s) h.origin fun hrun =>
        ((Value.echoes_unlink db h.value).ok hrun).2 with hsame | ⟨err, w', hrun⟩
      · have hbase := step_transitions hopen hk (.unlink i) hfits
        simp only [step, onHeld_some (s := s.below) hi] at hbase
        rw [hsame]
        exact hbase.kept hopen hk
      · rw [acquire_error hrun]
        exact kept_of_unlink_error hopen hlayout hk hmild (List.mem_of_getElem? hi) hrun
  · simp only [step]
    cases hi : s.held[i]? with
    | none => rwa [onHeld_none hi]
    | some h =>
      rw [onHeld_some hi]
      exact kept_of_drop hk hi
  · rw [hsame]
    exact (step_transitions hopen hk e hfits).kept hopen hk
  · rw [hfails.step_eq]
    exact kept_of_unharmed hopen hlayout hk
      (hfails.unharmed hlayout hmild fun hneeds => (hfits hneeds).roomy)

/-- Custody lasts over whole runs, whatever calls fail in them. -/
theorem Endures.kept [Codec.Inverts] {first : Session σ} (h : Endures db first s) (hopen : db.Opened n)
    (hlayout : db.layout = .sharded) (hk : Kept db n first.below) : Kept db n s.below := by
  -- Custody is about the base alone, so changes of what will fail do not touch it.
  induction h with
  | start => exact hk
  | @weather s t _ hsame ih =>
    have hbelow : { s with world := { s.world with store := t } }.below = s.below :=
      congrArg (fun t => { s.below with world := { s.below.world with store := t } }) hsame
    rw [hbelow]
    exact ih
  | step e _ hmild hfits ih => exact kept_of_step hopen hlayout ih hmild hfits

/-- A run in a tree, with failing calls on the store throughout. When an operation of it that makes,
gives or closes a value fails, the same files are there as before, with the same content. All
handles are as they were, and the values that had their files can still be read. -/
theorem failed_step_keeps_files [Codec.Inverts] {base : Path} {settings : Settings} {w₀ w : World σ}
    (hlayout : settings.layout = .sharded) (hopen : Database.openAt base settings w₀ = .ok db w)
    (hreaches : Endures db { world := w } s) (hmild : Mild s.world.store)
    (hcleans : Cleans s.world.store) (hfits : s.below.Allocates db e → db.Fits s.below.world)
    (hfails : s.Fails db e w') :
    s.step db e = { s with world := w' } ∧
    (∀ path : Path, fileAt? w'.below.store path.components =
      fileAt? s.world.below.store path.components) ∧
    (∀ k, s.world.Knows k → w'.handle k = s.world.handle k) ∧
    ∀ h ∈ s.held, ∀ ref, h.value.content = .file ref →
      (s.world.handle ref.handle).retired = false →
      (w'.handle ref.handle).retired = false ∧
        h.value.readBytes w'.below = .ok h.origin w'.below := by
  obtain ⟨rfl, -, hopened, hsharded, hscan⟩ := Database.openAt_tree hlayout hopen
  have hk := hreaches.kept hopened hsharded (kept_start fun hplace => absurd hplace (hscan _))
  have hunharmed := hfails.unharmed hsharded hmild fun hneeds => (hfits hneeds).roomy
  obtain ⟨more, hhandles⟩ := hunharmed.handles_eq
  have hold : ∀ k, s.world.Knows k → w'.handle k = s.world.handle k :=
    fun k => World.handle_append_old hhandles
  have hk' := kept_of_unharmed hopened hsharded hk hunharmed
  refine ⟨hfails.step_eq, fun path => hunharmed.file_eq _ (Or.inr hcleans), hold, ?_⟩
  intro h hmem ref hcontent hlive
  have hmade := hk.held_made hmem
  have hsame := hold _ (hk.backed ⟨h, hmade, hcontent, rfl⟩).known
  have hlive' : (w'.handle ref.handle).retired = false := by rwa [hsame]
  exact ⟨hlive', readBytes_of_owns hk' hmade hcontent (hk'.owns hmem hcontent hlive')⟩

end Failures

def quietWorld : World (Faulty MemoryStore) := { store := { store := default } }

def quietSession : Session (Faulty MemoryStore) :=
  ({ world := quietWorld : Session (Faulty MemoryStore) }.step smallDatabase
    (.create .binary threeOctets none)).step smallDatabase (.link 0 ⟨6⟩)

def troubledSession : Session (Faulty MemoryStore) :=
  { quietSession with world := { quietSession.world with store := { quietSession.world.store with
      faults := [{
        operation := .copy
        path := smallDatabase.naming.path .sharded (.table ⟨6⟩) ⟨1⟩
        after := true }] } } }

/-- A value is made and given to a table. When copies of its file start to fail after they are
complete, giving it to another table fails, and all files are as they were. -/
theorem failed_step_keeps_files_troubled : ∃ w', troubledSession.Fails smallDatabase (.link 1 ⟨7⟩) w' ∧
    (∀ path : Path, fileAt? w'.below.store path.components =
      fileAt? troubledSession.world.below.store path.components) ∧
    ∃ h ∈ troubledSession.held, h.value.readBytes w'.below = .ok [1, 2, 3] w'.below := by
  have hquiet : ∀ t : Faulty MemoryStore, t.faults = [] → Mild t := by
    intro t hnone
    refine Faulty.mild mild_memory fun f hmem => ?_
    rw [hnone] at hmem
    cases hmem
  have hreaches : Endures smallDatabase { world := quietWorld } quietSession := by
    refine .step _ (.step _ .start (hquiet _ rfl) fun _ => ?_) (hquiet _ rfl) fun _ => ?_
    · exact fits_of_place 0 1 rfl (by decide)
    · exact fits_of_place 0 2 rfl (by decide)
  have htroubled : Endures smallDatabase { world := quietWorld } troubledSession :=
    .weather (t := troubledSession.world.store) hreaches rfl
  have hmild : Mild troubledSession.world.store := by
    refine Faulty.mild mild_memory fun f hmem _ => ?_
    rw [List.mem_singleton.1 hmem]
  have hcleans : Cleans troubledSession.world.store := by
    refine Faulty.cleans (cleans_memory _) fun f hmem hdelete => ?_
    rw [List.mem_singleton.1 hmem] at hdelete
    cases hdelete
  have hopen : Database.openAt ⟨['d', '/', 'b']⟩ smallSettings quietWorld =
      .ok smallDatabase quietWorld := rfl
  obtain ⟨w', hfails⟩ : ∃ w', troubledSession.Fails smallDatabase (.link 1 ⟨7⟩) w' :=
    ⟨_, _, _, rfl, rfl⟩
  obtain ⟨-, hfiles, -, hread⟩ := failed_step_keeps_files rfl hopen htroubled hmild hcleans
    (fun _ => fits_of_place 0 2 rfl (by decide)) hfails
  obtain ⟨h, hmem, ref, hcontent, hlive, horigin⟩ : ∃ h ∈ troubledSession.held, ∃ ref,
      h.value.content = .file ref ∧ (troubledSession.world.handle ref.handle).retired = false ∧
      h.origin = [1, 2, 3] :=
    ⟨_, List.mem_cons_of_mem _ List.mem_cons_self, _, rfl, rfl, rfl⟩
  have hback := (hread h hmem ref hcontent hlive).2
  rw [horigin] at hback
  exact ⟨w', hfails, hfiles, h, hmem, hback⟩

end Session

end LargeObjects
