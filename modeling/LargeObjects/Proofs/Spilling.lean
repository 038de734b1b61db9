import Mathlib
import LargeObjects.Proofs.Coverage
import LargeObjects.Proofs.Outcomes
import LargeObjects.Proofs.Relinking
import LargeObjects.Proofs.Standing

/-! Moving a value that is too large to go without a file into one. Kind, precision, content and table stay
the same, and one file is new. A value that is not too large stays as it is, and so does one that was
moved already. -/
namespace LargeObjects

open ReliableStore

section Spill

variable {σ : Type} [FileStore σ] [ReliableStore σ]

/-- A new file that moves on to a place that is free as well is new there. -/
theorem Changes.moved {p q : List Component} {content : Bytes} {s s' s'' : σ}
    (h : Changes p (some content) s s') (hfree : fileAt? s p = none) (hmoves : Moves p q s' s'') :
    Changes q (some content) s s'' := by
  refine ⟨hmoves.there.trans h.there, fun r hr => ?_⟩
  by_cases hp : r = p
  · rw [hp, hmoves.left, hfree]
  · rw [hmoves.elsewhere r hp hr, h.elsewhere r hp]

namespace Value

variable [Codec] {db : Database} {v v' : Value} {data : Bytes} {stamp : Option TableId} {w w' : World σ}

/-- A value without a file that is too large is made anew from what it holds. -/
theorem create_of_inline [Codec.Inverts] (hmeasured : v.Measured data)
    (hready : db.Ready v.kind data w) (hfree : db.FindsFree w)
    (hlarge : db.settings.inlineThreshold < v.precision) :
    ∃ first w₁, create db v.kind (.planned [.bytes data]) (some v.precision) w = .ok first w₁ ∧
      Made db v.kind data w first w₁ := by
  have hunits : v.kind.units ((some v.precision).getD unlimited) data = v.kind.allUnits data := by
    rw [Option.getD_some, hmeasured.precision_eq, Kind.units_eq_take, List.take_length]
  have hdata : data ≠ [] := by
    rintro rfl
    rw [hmeasured.precision_eq, Kind.allUnits, Kind.units_nil] at hlarge
    exact absurd hlarge (Nat.not_lt_zero _)
  -- As many units are declared as there are, so none can be lacking.
  have hsource := Source.supplies_bytes w.store hdata
  rcases create_all hsource hunits hready hfree (Or.inl rfl) with ⟨-, hmade⟩ | ⟨hlacks, -⟩
  · exact hmade
  · refine absurd (Or.inl ?_) hlacks
    rw [hunits, Option.getD_some, hmeasured.precision_eq]

structure Housed (db : Database) (v : Value) (data : Bytes) (owner : Owner) (w : World σ) (v' : Value)
    (w' : World σ) : Prop where
  kind_eq : v'.kind = v.kind
  precision_eq : v'.precision = v.precision
  bears : v'.Bears data w'
  file : ∃ ref stored, v'.InPlace db ref w' ∧ ref.layout = db.layout ∧ ref.owner = owner ∧
    fileAt? w.store (db.naming.path db.layout owner ref.id).components = none ∧
    Changes (db.naming.path db.layout owner ref.id).components (some stored) w.store w'.store
  handle_eq : ∀ k, w.Knows k → w'.handle k = w.handle k

/-- A value whose file is new and has a new handle is housed. -/
theorem housed_of_new {owner : Owner} {id : ObjectId} {compressed : Bool} {handles : List Handle}
    {stored : Bytes} (hkind : v'.kind = v.kind) (hprecision : v'.precision = v.precision)
    (hcontent : v'.content = .file
      { id, owner, compressed, layout := db.layout, handle := handles.length })
    (hhandles : w'.handles = handles ++ [.new (db.naming.path db.layout owner id) owner])
    (hold : ∃ more, handles = w.handles ++ more) (hstores : Stores compressed stored data)
    (hfree : fileAt? w.store (db.naming.path db.layout owner id).components = none)
    (hchanges : Changes (db.naming.path db.layout owner id).components (some stored) w.store w'.store) :
    Housed db v data owner w v' w' := by
  obtain ⟨more, rfl⟩ := hold
  have hnew : w'.handle (w.handles ++ more).length = .new (db.naming.path db.layout owner id) owner :=
    World.handle_append_new (w := { w with handles := w.handles ++ more }) hhandles
  refine ⟨hkind, hprecision, ?_, ?_, fun k hk => ?_⟩
  · refine (bears_file hcontent).2 ⟨by rw [hnew]; rfl, stored, ?_, hstores⟩
    rw [hnew]
    exact hchanges.there
  · refine ⟨_, stored, ⟨hcontent, db.serves_own, ?_, ?_, ?_, ?_⟩, rfl, rfl, hfree, hchanges⟩
    · rw [hnew]
      rfl
    · rw [hnew]
      rfl
    · rw [hnew]
      rfl
    · exact Option.isSome_of_mem hchanges.there
  · rw [List.append_assoc] at hhandles
    exact World.handle_append_old hhandles hk

theorem Made.housed (h : Made db v.kind data w v' w') (hmeasured : v.Measured data)
    (hfree : db.FindsFree w) (hlarge : db.settings.inlineThreshold < v.precision) :
    Housed db v data .temp w v' w' := by
  have hflat := (Kind.flatten_allUnits_iff v.kind data).2 hmeasured.text
  cases h with
  | inline hsmall =>
    rw [← hmeasured.precision_eq] at hsmall
    exact absurd hlarge (Nat.not_lt.2 hsmall)
  | file _ halloc hchanges hstores =>
    rw [hflat] at hstores
    exact housed_of_new rfl hmeasured.precision_eq.symm rfl (filed_handles halloc _ 1 _)
      ⟨[], (List.append_nil _).symm⟩ hstores (hfree halloc) hchanges

/-- What was just made in a tree can be given to a table, whose file it is then. -/
theorem Made.handOver (h : Made db v.kind data w v' w') (hmeasured : v.Measured data)
    (hlayout : db.layout = .sharded) (hroomy : db.Roomy w)
    (hlarge : db.settings.inlineThreshold < v.precision) (table : TableId) :
    ∃ linked w₂, handOver db v' table w' = .ok linked w₂ ∧
      Housed db v data (.table table) w linked w₂ := by
  have hflat := (Kind.flatten_allUnits_iff v.kind data).2 hmeasured.text
  cases h with
  | inline hsmall =>
    rw [← hmeasured.precision_eq] at hsmall
    exact absurd hlarge (Nat.not_lt.2 hsmall)
  | @file id w₁ store stored _ halloc hchanges hstores =>
    rw [hflat] at hstores
    have hfree := (Database.free_of_allocate hlayout hroomy halloc).file_eq_none
    rw [← hlayout] at hfree
    have hne := db.naming.components_path_ne db.layout id (show Owner.temp ≠ .table table from nofun)
    obtain ⟨s', hrename, hthere, hleft, helse⟩ :=
      rename_ok (db.naming.path db.layout (.table table) id) hchanges.there
    have hmoves : Moves (db.naming.path db.layout .temp id).components
        (db.naming.path db.layout (.table table) id).components store s' :=
      ⟨hthere.trans hchanges.there.symm, hleft hne, helse⟩
    have hhandles := (db.allocate_sameFiles.1 halloc).handles_eq
    rw [← hhandles]
    refine ⟨_, _, handOver_ok rfl hrename, ?_⟩
    -- The temporary handle stays behind without a holder, ahead of the new one.
    let gone := (Handle.new (db.naming.path db.layout .temp id) .temp).retire.letGo
    have hlength : (w₁.handles ++ [gone]).length = w₁.handles.length + 1 :=
      List.length_append
    have hold : w₁.handles ++ [gone] = w.handles ++ [gone] := congrArg (· ++ [gone]) hhandles
    refine housed_of_new rfl hmeasured.precision_eq.symm ?_ ?_ ⟨[gone], hold⟩ hstores (hfree _)
      (hchanges.moved (hfree _) hmoves)
    · rw [hlength]
      rfl
    · rw [List.append_assoc]
      rfl

theorem Housed.spill_again {owner : Owner} (h : Housed db v data owner w v' w') :
    ∃ w'', v'.spill db w' = .ok v' w'' ∧ w''.store = w'.store := by
  obtain ⟨ref, stored, hplace, -⟩ := h.file
  exact ⟨_, (spill_file hplace.content_eq).trans (clone_file hplace.content_eq), rfl⟩

theorem Housed.extends_world {owner : Owner} (h : Housed db v data owner w v' w') : w.Extends w' := by
  obtain ⟨ref, stored, -, -, -, hfree, hchanges⟩ := h.file
  exact ⟨h.handle_eq, hchanges.file_eq hfree⟩

/-- A value that is too large comes to have a file of its table's, or of nobody's without a table. -/
theorem spill_housed [Codec.Inverts] (hcontent : v.content = .inline data stamp)
    (hmeasured : v.Measured data) (hlayout : db.layout = .sharded) (hready : db.Ready v.kind data w)
    (hroomy : db.Roomy w) (hlarge : db.settings.inlineThreshold < v.precision) :
    ∃ v' w', v.spill db w = .ok v' w' ∧ Housed db v data (Owner.ofTable? stamp) w v' w' := by
  have hfree : db.FindsFree w := fun halloc =>
    Database.temp_free_of_allocate (fun _ _ => hlayout) hroomy halloc
  obtain ⟨first, w₁, hcreate, hmade⟩ := create_of_inline hmeasured hready hfree hlarge
  rw [spill_eq hcontent (Nat.not_le.2 hlarge), Step.bind_ok hcreate]
  cases stamp with
  | none => exact ⟨first, w₁, rfl, hmade.housed hmeasured hfree hlarge⟩
  | some table => exact hmade.handOver hmeasured hlayout hroomy hlarge table

/-- Moving a value out of a tree's rows, with any codec whose decoder inverts its encoder. Kind,
precision, content and table are the same afterwards. A value that is not larger than the threshold
stays as it is, and nothing happens. A larger one gets a file, the only one that is new: under the name
for its table, if it has one, and else as a temporary file that goes away with the value. No file and no
handle that was there has changed. Doing it again gives the same value, and no file changes. -/
theorem spill_exact [Codec.Inverts] (hcontent : v.content = .inline data stamp)
    (hmeasured : v.Measured data) (hlayout : db.layout = .sharded) (hready : db.Ready v.kind data w)
    (hroomy : db.Roomy w) :
    ∃ v' w', v.spill db w = .ok v' w' ∧
      v'.kind = v.kind ∧ v'.precision = v.precision ∧ v'.table? = v.table? ∧
      v'.readBytes w' = .ok data w' ∧ w.Extends w' ∧
      (v'.isInline ↔ v.precision ≤ db.settings.inlineThreshold) ∧
      (v.precision ≤ db.settings.inlineThreshold → v' = v ∧ w' = w) ∧
      (db.settings.inlineThreshold < v.precision → ∃ ref stored, v'.InPlace db ref w' ∧
        ref.layout = .sharded ∧ ref.owner = Owner.ofTable? stamp ∧
        v'.isLinked = stamp.isSome ∧ v'.isAutoDelete w' = stamp.isNone ∧
        fileAt? w.store (db.naming.path .sharded ref.owner ref.id).components = none ∧
        Changes (db.naming.path .sharded ref.owner ref.id).components (some stored)
          w.store w'.store) ∧
      ∃ w'', v'.spill db w' = .ok v' w'' ∧ w''.store = w'.store := by
  rcases Nat.lt_or_ge db.settings.inlineThreshold v.precision with hlarge | hsmall
  · obtain ⟨v', w', hrun, hhoused⟩ := spill_housed hcontent hmeasured hlayout hready hroomy hlarge
    obtain ⟨ref, stored, hplace, href, howner, hfree, hchanges⟩ := hhoused.file
    rw [hlayout] at href hfree hchanges
    rw [← howner] at hfree hchanges
    have hfile : v'.file? = some ref := by rw [file?, hplace.content_eq]
    refine ⟨v', w', hrun, hhoused.kind_eq, hhoused.precision_eq, ?_, hhoused.bears.readBytes_eq,
      hhoused.extends_world, ?_, fun hsmall => absurd hlarge (Nat.not_lt.2 hsmall),
      fun _ => ⟨ref, stored, hplace, href, howner, ?_, ?_, hfree, hchanges⟩, hhoused.spill_again⟩
    · simp only [table?, hplace.content_eq, hcontent, howner]
      cases stamp <;> rfl
    · refine iff_of_false (fun hinline => ?_) (Nat.not_le.2 hlarge)
      rw [isInline, hfile] at hinline
      cases hinline
    · rw [isLinked, hfile, Option.any_some, howner]
      cases stamp <;> rfl
    · rw [hplace.isAutoDelete_eq, howner]
      cases stamp <;> rfl
  · have hrun : v.spill db w = .ok v w := spill_small hcontent hsmall
    have hinline : v.isInline := by rw [isInline, file?, hcontent]; rfl
    exact ⟨v, w, hrun, rfl, rfl, rfl, readBytes_inline hcontent, .refl w, iff_of_true hinline hsmall,
      fun _ => ⟨rfl, rfl⟩, fun hlarge => absurd hlarge (Nat.not_lt.2 hsmall), w, hrun, rfl⟩

end Value

end Spill

namespace Value

open Session

def stampedSession : Session MemoryStore :=
  ({ world := emptyWorld : Session MemoryStore }.step packedDatabase
    (.inline .character [0x61, 0xC3, 0xA9, 0x62])).step packedDatabase (.link 0 ⟨6⟩)

/-- Three characters are more than the threshold of two, so that they get a file of the table's, which
is compressed. -/
theorem spill_exact_stamped :
    let data : Bytes := [0x61, 0xC3, 0xA9, 0x62]
    let w := stampedSession.world
    Codec.Inverts ∧
    ∃ v : Value, v.content = .inline data (some ⟨6⟩) ∧ v.Measured data ∧
      packedDatabase.layout = .sharded ∧ packedDatabase.Ready v.kind data w ∧ packedDatabase.Roomy w ∧
      ∃ v' w', v.spill packedDatabase w = .ok v' w' ∧ v'.precision = 3 ∧
        v'.readBytes w' = .ok data w' ∧ v'.table? = some ⟨6⟩ ∧ v'.isLinked ∧
        v'.isAutoDelete w' = false := by
  intro data w
  have hreaches : Reaches packedDatabase { world := emptyWorld } stampedSession := by
    refine .step _ (.step _ .start nofun) ?_
    rintro ⟨h, ref, owner, hheld, hfile, -⟩
    cases hheld
    cases hfile
  have hkept : Kept packedDatabase packedDatabase.naming { world := emptyWorld } := kept_start nofun
  obtain ⟨h, hmem, hkind, hprecision, htext, hcontent⟩ : ∃ h ∈ stampedSession.held,
      h.value.kind = .character ∧ h.value.precision = 3 ∧ h.text = data ∧
      h.value.content = .inline data (some ⟨6⟩) :=
    ⟨_, List.mem_cons_of_mem _ List.mem_cons_self, rfl, rfl, rfl, rfl⟩
  have hmeasured := (hreaches.intact (.tree rfl) hkept nofun h hmem fun ref hfile => by
    rw [hcontent] at hfile
    cases hfile).toMeasured
  rw [htext] at hmeasured
  have hready : packedDatabase.Ready h.value.kind data w :=
    ⟨by decide, fun _ => ⟨_, _, rfl⟩⟩
  have hroomy : packedDatabase.Roomy w := (fits_of_place 0 1 rfl (by decide)).roomy
  obtain ⟨v', w', hrun, -, hthree, htable, hread, -, -, -, hfile, -⟩ :=
    spill_exact hcontent hmeasured rfl hready hroomy
  have hlarge : packedDatabase.settings.inlineThreshold < h.value.precision := by
    rw [hprecision]
    decide
  obtain ⟨-, -, -, -, -, hlinked, hauto, -, -⟩ := hfile hlarge
  have hstamp : h.value.table? = some ⟨6⟩ := by rw [table?, hcontent]
  rw [hstamp] at htable
  exact ⟨Frame.inverts, h.value, hcontent, hmeasured, rfl, hready, hroomy, v', w', hrun,
    hthree.trans hprecision, hread, htable, hlinked, hauto⟩

end Value

end LargeObjects
