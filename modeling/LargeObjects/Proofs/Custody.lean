import Mathlib
import LargeObjects.Proofs.Counting
import LargeObjects.Proofs.Reading
import LargeObjects.Proofs.Sessions

/-! Who has which file. A handle that is not retired has a file to itself, under the name that says
what it is, and counts the values that hold it. -/
namespace LargeObjects

open ReliableStore

variable {σ : Type}

/-- A database as it is opened over some naming: with a tree it scans for ids, and with flat names,
which no fanout shapes, it counts. -/
inductive Database.Opened (n : Naming) : Database → Prop
  | tree {settings : Settings} {maxProbes : UInt32} (layout_eq : settings.layout = .sharded) :
    Opened n { settings, naming := n, allocator := .scan maxProbes }
  | flat {settings : Settings} {naming : Naming} {place : Nat} (layout_eq : settings.layout = .flat)
    (base_eq : naming.base = n.base) : Opened n { settings, naming, allocator := .counter place }

namespace Database.Opened

variable {n : Naming} {db : Database}

/-- The files that a database serves have the same names in all databases over one naming. -/
theorem path_eq (h : db.Opened n) {layout : Layout}
    (hserved : ¬(layout = .sharded ∧ db.layout = .flat)) (owner : Owner) (id : ObjectId) :
    db.naming.path layout owner id = n.path layout owner id := by
  cases h with
  | tree => rfl
  | flat hlayout hbase =>
    cases layout with
    | sharded => exact absurd ⟨rfl, hlayout⟩ hserved
    | flat =>
      simp only [Naming.path, Naming.flatPath]
      rw [hbase]

theorem path_new (h : db.Opened n) (owner : Owner) (id : ObjectId) :
    db.naming.path db.layout owner id = n.path db.layout owner id :=
  h.path_eq db.serves_own owner id

end Database.Opened

def World.Owns (w : World σ) (k : HandleId) : Prop :=
  (w.handle k).retired = false ∧ ((w.handle k).armed = true → 0 < (w.handle k).holders)

theorem World.not_owns_of_retired {w : World σ} {k : HandleId} (h : (w.handle k).retired = true) :
    ¬w.Owns k := by
  rintro ⟨hlive, -⟩
  rw [h] at hlive
  cases hlive

/-- A handle that the last holder has let go of has its file no more. -/
theorem World.not_owns_of_discards {w w' : World σ} {k : HandleId} (h : (w.handle k).Discards)
    (hafter : w'.handle k = (w.handle k).letGo) : ¬w'.Owns k := by
  rintro ⟨-, hheld⟩
  rw [hafter] at hheld
  obtain ⟨hzero, hauto⟩ := h
  have hpos := hheld (Handle.isAutoDelete_iff.1 hauto).1
  omega

namespace Session

variable {s : Session σ} {h : Held} {ref : ValueFile} {w : World σ}

def Uses (s : Session σ) (ref : ValueFile) (origin : Bytes) : Prop :=
  ∃ h ∈ s.made, h.value.content = .file ref ∧ h.origin = origin

def holders (s : Session σ) (k : HandleId) : Nat :=
  s.held.countP fun h => h.value.file?.any (·.handle = k)

theorem hold_subset (hs : s.held ⊆ s.made) : (s.hold h w).held ⊆ (s.hold h w).made := by
  intro h' hmem
  rcases List.mem_append.1 hmem with hold | hnew
  · exact List.mem_append_left _ (hs hold)
  · exact List.mem_append_right _ hnew

theorem uses_hold {ref' : ValueFile} {origin : Bytes} (hcontent : h.value.content = .file ref) :
    (s.hold h w).Uses ref' origin ↔ s.Uses ref' origin ∨ ref' = ref ∧ origin = h.origin := by
  unfold Uses hold
  constructor
  · rintro ⟨h', hmem, hfile, horigin⟩
    rcases List.mem_append.1 hmem with hold | hnew
    · exact Or.inl ⟨h', hold, hfile, horigin⟩
    · obtain rfl := List.mem_singleton.1 hnew
      rw [hcontent] at hfile
      cases hfile
      exact Or.inr ⟨rfl, horigin.symm⟩
  · rintro (⟨h', hmem, hfile, horigin⟩ | ⟨rfl, rfl⟩)
    · exact ⟨h', List.mem_append_left _ hmem, hfile, horigin⟩
    · exact ⟨h, List.mem_append_right _ (List.mem_singleton_self h), hcontent, rfl⟩

theorem uses_hold_inline {ref' : ValueFile} {origin : Bytes} (hcontent : h.value.file? = none) :
    (s.hold h w).Uses ref' origin ↔ s.Uses ref' origin := by
  unfold Uses hold
  constructor
  · rintro ⟨h', hmem, hfile, horigin⟩
    rcases List.mem_append.1 hmem with hold | hnew
    · exact ⟨h', hold, hfile, horigin⟩
    · obtain rfl := List.mem_singleton.1 hnew
      rw [Value.file?, hfile] at hcontent
      cases hcontent
  · rintro ⟨h', hmem, hfile, horigin⟩
    exact ⟨h', List.mem_append_left _ hmem, hfile, horigin⟩

theorem holders_hold (hcontent : h.value.content = .file ref) (k : HandleId) :
    (s.hold h w).holders k = s.holders k + if ref.handle = k then 1 else 0 := by
  simp [holders, hold, List.countP_append, List.countP_singleton, Value.file?, hcontent]

theorem holders_hold_inline (hcontent : h.value.file? = none) (k : HandleId) :
    (s.hold h w).holders k = s.holders k := by
  simp [holders, hold, List.countP_append, hcontent]

/-- A value that is let go holds its handle no more. -/
theorem holders_eraseIdx {i : Nat} (hi : s.held[i]? = some h) (k : HandleId) :
    { s with world := w, held := s.held.eraseIdx i }.holders k +
      (if h.value.file?.any (·.handle = k) then 1 else 0) = s.holders k := by
  obtain ⟨hlt, rfl⟩ := List.getElem?_eq_some_iff.1 hi
  have hperm := List.getElem_cons_eraseIdx_perm hlt
  unfold holders
  rw [← hperm.countP_eq, List.countP_cons]

theorem holders_pos {k : HandleId} (hmem : h ∈ s.held) (hcontent : h.value.content = .file ref)
    (hk : ref.handle = k) : 0 < s.holders k := by
  unfold holders
  rw [List.countP_pos_iff]
  exact ⟨h, hmem, by simp [Value.file?, hcontent, hk]⟩

end Session

namespace Database

variable [FileStore σ] {base : Path} {settings : Settings} {db : Database} {w₀ w : World σ}

/-- Opening a database gives it settings that there is no objection to, and an allocator: one that
scans its tree, or one that goes on after its flat files. -/
theorem openAt_eq_ok (h : openAt base settings w₀ = .ok db w) :
    settings.objection? = none ∧ ∃ allocator,
      db = { settings, naming := ⟨base, settings.fanout⟩, allocator } ∧
      match settings.layout with
      | .flat => Allocator.afterHighest ⟨base, settings.fanout⟩ w₀ = .ok allocator w
      | .sharded => allocator = .scan settings.maxProbes ∧ w = w₀ := by
  unfold openAt at h
  cases hobjection : settings.objection? with
  | some objection =>
    simp only [hobjection] at h
    cases h
  | none =>
    simp only [hobjection] at h
    cases hlayout : settings.layout with
    | flat =>
      simp only [hlayout] at h
      obtain ⟨allocator, w₁, hallocator, hpure⟩ := Step.bind_eq_ok h
      cases hpure
      exact ⟨rfl, allocator, rfl, hallocator⟩
    | sharded =>
      simp only [hlayout] at h
      cases h
      exact ⟨rfl, _, rfl, rfl, rfl⟩

/-- A database with a tree changes nothing when it is opened. -/
theorem openAt_tree (hlayout : settings.layout = .sharded) (h : openAt base settings w₀ = .ok db w) :
    w = w₀ ∧ db.naming.base = base ∧ db.Opened db.naming ∧ db.layout = .sharded ∧
      ∀ place, db.allocator ≠ .counter place := by
  obtain ⟨-, allocator, rfl, hseed⟩ := openAt_eq_ok h
  rw [hlayout] at hseed
  obtain ⟨rfl, rfl⟩ := hseed
  exact ⟨rfl, rfl, .tree hlayout, hlayout, nofun⟩

/-- A database with flat names makes a counter when it is opened. -/
theorem openAt_flat (hlayout : settings.layout = .flat) (h : openAt base settings w₀ = .ok db w) :
    (∀ {n : Naming}, n.base = base → db.Opened n) ∧
      ∀ {place}, db.allocator = .counter place → place < w.counters.length := by
  obtain ⟨-, allocator, rfl, hseed⟩ := openAt_eq_ok h
  rw [hlayout] at hseed
  obtain ⟨rfl, entries, s, -, rfl⟩ := Allocator.afterHighest_eq_ok hseed
  refine ⟨fun hbase => .flat hlayout hbase.symm, fun hplace => ?_⟩
  cases hplace
  rw [List.length_append]
  exact Nat.lt_succ_self _

end Database

variable [Codec] [FileStore σ] [ReliableStore σ] {n : Naming} {db : Database} {s : Session σ}
  {w w' : World σ} {ref : ValueFile} {origin : Bytes}

structure Backed (n : Naming) (w : World σ) (ref : ValueFile) (origin : Bytes) : Prop where
  known : w.Knows ref.handle
  path_eq : (w.handle ref.handle).path = n.path ref.layout ref.owner ref.id
  armed_iff : (w.handle ref.handle).armed = true ↔ ref.owner = .temp
  proper : n.Proper ref.layout ref.id
  stored : w.Owns ref.handle → ∃ stored,
    fileAt? w.store (n.path ref.layout ref.owner ref.id).components = some stored ∧
      Stores ref.compressed stored origin

def Held.Whole (h : Held) : Prop :=
  ∀ data stamp, h.value.content = .inline data stamp →
    (h.value.kind.units h.value.precision data).length = h.value.precision ∧
    (h.value.kind.units h.value.precision data).flatten = data

/-- The state of custody between operations. -/
structure Kept (db : Database) (n : Naming) (s : Session σ) : Prop where
  held_made : s.held ⊆ s.made
  whole : ∀ h ∈ s.made, h.Whole
  backed : ∀ {ref origin}, s.Uses ref origin → Backed n s.world ref origin
  counted : ∀ {ref origin}, s.Uses ref origin →
    (s.world.handle ref.handle).holders = s.holders ref.handle
  shared : ∀ {ref origin ref' origin'}, s.Uses ref origin → s.Uses ref' origin' →
    ref.handle = ref'.handle → ref = ref' ∧ origin = origin'
  apart : ∀ {ref origin ref' origin'}, s.Uses ref origin → s.Uses ref' origin' →
    s.world.Owns ref.handle → s.world.Owns ref'.handle →
    ref.layout = ref'.layout → ref.id = ref'.id → ref.handle = ref'.handle
  counting : ∀ {place}, db.allocator = .counter place → place < s.world.counters.length ∧
    (s.world.counters.getD place 0 ≠ 0 → ∀ {ref origin}, s.Uses ref origin → ref.layout = .flat →
      ref.id.word < s.world.counters.getD place 0)

structure Spares (n : Naming) (k : HandleId) (s : Session σ) (w' : World σ) : Prop where
  handle_eq : ∀ j ≠ k, s.world.Knows j → w'.Knows j ∧ w'.handle j = s.world.handle j
  file_eq : ∀ {ref origin}, s.Uses ref origin → s.world.Owns ref.handle → ref.handle ≠ k →
    fileAt? w'.store (n.path ref.layout ref.owner ref.id).components =
      fileAt? s.world.store (n.path ref.layout ref.owner ref.id).components

def Session.Sole (s : Session σ) (layout : Layout) (id : ObjectId) (k : HandleId) : Prop :=
  ∀ {ref origin}, s.Uses ref origin → s.world.Owns ref.handle → ref.layout = layout → ref.id = id →
    ref.handle = k

namespace Kept

variable {layout : Layout} {id : ObjectId} {k : HandleId}

theorem sole (hk : Kept db n s) (huses : s.Uses ref origin) (howns : s.world.Owns ref.handle) :
    s.Sole ref.layout ref.id ref.handle := by
  intro ref' origin' huses' howns' hlayout hid
  exact hk.apart huses' huses howns' howns hlayout hid

/-- A file that is held has a handle that counts. -/
theorem owns (hk : Kept db n s) {h : Held} (hmem : h ∈ s.held) (hcontent : h.value.content = .file ref)
    (hlive : (s.world.handle ref.handle).retired = false) : s.world.Owns ref.handle := by
  refine ⟨hlive, fun _ => ?_⟩
  rw [hk.counted ⟨h, hk.held_made hmem, hcontent, rfl⟩]
  exact Session.holders_pos hmem hcontent rfl

/-- What changes for one object changes no file of another. -/
theorem spares (hk : Kept db n s) (hproper : n.Proper layout id) (hsole : s.Sole layout id k)
    (hhandle : ∀ j ≠ k, s.world.Knows j → w'.Knows j ∧ w'.handle j = s.world.handle j)
    (hfile : ∀ q, (∀ owner, q ≠ (n.path layout owner id).components) →
      fileAt? w'.store q = fileAt? s.world.store q) : Spares n k s w' := by
  refine ⟨hhandle, fun huses howns hne => hfile _ fun owner heq => hne ?_⟩
  obtain ⟨hlayout, -, hid⟩ := Naming.path_injective (hk.backed huses).proper hproper heq
  exact hsole huses howns hlayout hid

theorem elsewhere (hk : Kept db n s) (hspares : Spares n k s w') (huses : s.Uses ref origin)
    (hne : ref.handle ≠ k) :
    Backed n w' ref origin ∧ (w'.Owns ref.handle ↔ s.world.Owns ref.handle) := by
  have hb := hk.backed huses
  obtain ⟨hknown, hhandle⟩ := hspares.handle_eq _ hne hb.known
  have howns : w'.Owns ref.handle ↔ s.world.Owns ref.handle := by
    unfold World.Owns
    rw [hhandle]
  refine ⟨⟨hknown, ?_, ?_, hb.proper, fun h => ?_⟩, howns⟩
  · rw [hhandle, hb.path_eq]
  · rw [hhandle, hb.armed_iff]
  · rw [hspares.file_eq huses (howns.1 h) hne]
    exact hb.stored (howns.1 h)

/-- Custody outlives a change for one handle, if that handle is in order afterwards. -/
theorem change (hk : Kept db n s) (hspares : Spares n k s w')
    (hchanged : ∀ {ref origin}, s.Uses ref origin → ref.handle = k →
      Backed n w' ref origin ∧ (w'.Owns k → s.world.Owns k)) {held' : List Held}
    (hheld : held' ⊆ s.made)
    (hcounted : ∀ {ref origin}, s.Uses ref origin → (w'.handle ref.handle).holders =
      Session.holders { world := w', held := held', made := s.made } ref.handle)
    (hcounting : ∀ {place}, db.allocator = .counter place → place < w'.counters.length ∧
      (w'.counters.getD place 0 ≠ 0 → s.world.counters.getD place 0 ≠ 0 ∧
        s.world.counters.getD place 0 ≤ w'.counters.getD place 0)) :
    Kept db n { world := w', held := held', made := s.made } := by
  -- No handle comes to own a file by the change.
  have howns : ∀ {ref origin}, s.Uses ref origin → w'.Owns ref.handle →
      s.world.Owns ref.handle := by
    intro ref origin huses h
    by_cases hne : ref.handle = k
    · rw [hne] at h ⊢
      exact (hchanged huses hne).2 h
    · exact (hk.elsewhere hspares huses hne).2.1 h
  refine ⟨hheld, hk.whole, ?_, hcounted, hk.shared, ?_, ?_⟩
  · intro ref origin huses
    by_cases hne : ref.handle = k
    · exact (hchanged huses hne).1
    · exact (hk.elsewhere hspares huses hne).1
  · intro ref origin ref' origin' huses huses' h h'
    exact hk.apart huses huses' (howns huses h) (howns huses' h')
  · intro place hplace
    obtain ⟨hlt, hgoes⟩ := hcounting hplace
    refine ⟨hlt, fun hnonzero _ _ huses hlayout => ?_⟩
    obtain ⟨hbefore, hle⟩ := hgoes hnonzero
    exact UInt32.lt_of_lt_of_le ((hk.counting hplace).2 hbefore huses hlayout) hle

theorem hold_inline (hk : Kept db n s) {h : Held} (hcontent : h.value.file? = none)
    (hwhole : h.Whole) : Kept db n (s.hold h s.world) := by
  have huses : ∀ {ref origin}, (s.hold h s.world).Uses ref origin → s.Uses ref origin :=
    (Session.uses_hold_inline hcontent).1
  refine ⟨?_, ?_, fun hu => hk.backed (huses hu), ?_,
    fun hu hu' => hk.shared (huses hu) (huses hu'), fun hu hu' => hk.apart (huses hu) (huses hu'), ?_⟩
  · exact Session.hold_subset hk.held_made
  · intro h' hmem
    rcases List.mem_append.1 hmem with hold | hnew
    · exact hk.whole h' hold
    · obtain rfl := List.mem_singleton.1 hnew
      exact hwhole
  · intro ref origin hu
    rw [Session.holders_hold_inline hcontent]
    exact hk.counted (huses hu)
  · intro place hplace
    obtain ⟨hlt, hbelow⟩ := hk.counting hplace
    exact ⟨hlt, fun hnonzero _ _ hu => hbelow hnonzero (huses hu)⟩

/-- A value with a file of its own can join the others. -/
theorem hold_file (hk : Kept db n s) {h : Held} (hcontent : h.value.content = .file ref)
    (hbacked : Backed n s.world ref h.origin) (hholders : (s.world.handle ref.handle).holders = 1)
    (hnew : ∀ {ref' origin'}, s.Uses ref' origin' → ref'.handle ≠ ref.handle)
    (hsole : s.Sole ref.layout ref.id ref.handle)
    (hcounting : ∀ {place}, db.allocator = .counter place → ref.layout = .flat →
      s.world.counters.getD place 0 ≠ 0 → ref.id.word < s.world.counters.getD place 0) :
    Kept db n (s.hold h s.world) := by
  have huses : ∀ {ref' origin'}, (s.hold h s.world).Uses ref' origin' →
      s.Uses ref' origin' ∨ ref' = ref ∧ origin' = h.origin := (Session.uses_hold hcontent).1
  -- Nobody held the new handle before, so that its one holder is the new value.
  have hnobody : s.holders ref.handle = 0 := by
    refine List.countP_eq_zero.2 fun h' hmem hholds => ?_
    cases hfile : h'.value.content with
    | inline data stamp => simp [Value.file?, hfile] at hholds
    | file ref' =>
      have hhandle : ref'.handle = ref.handle := by simpa [Value.file?, hfile] using hholds
      exact hnew ⟨h', hk.held_made hmem, hfile, rfl⟩ hhandle
  refine ⟨?_, ?_, ?_, ?_, ?_, ?_, ?_⟩
  · exact Session.hold_subset hk.held_made
  · intro h' hmem
    rcases List.mem_append.1 hmem with hold | hnew
    · exact hk.whole h' hold
    · obtain rfl := List.mem_singleton.1 hnew
      intro data stamp hinline
      rw [hcontent] at hinline
      cases hinline
  · intro ref' origin' hu
    rcases huses hu with hu | ⟨rfl, rfl⟩
    · exact hk.backed hu
    · exact hbacked
  · intro ref' origin' hu
    rw [Session.holders_hold hcontent]
    rcases huses hu with hu | ⟨rfl, rfl⟩
    · rw [if_neg (hnew hu).symm, Nat.add_zero]
      exact hk.counted hu
    · rw [if_pos rfl, hnobody]
      exact hholders
  · intro ref₁ origin₁ ref₂ origin₂ hu₁ hu₂ heq
    rcases huses hu₁ with hu₁ | ⟨rfl, rfl⟩ <;> rcases huses hu₂ with hu₂ | ⟨rfl, rfl⟩
    · exact hk.shared hu₁ hu₂ heq
    · exact absurd heq (hnew hu₁)
    · exact absurd heq.symm (hnew hu₂)
    · exact ⟨rfl, rfl⟩
  · intro ref₁ origin₁ ref₂ origin₂ hu₁ hu₂ ho₁ ho₂ hlayout hid
    rcases huses hu₁ with hu₁ | ⟨rfl, rfl⟩ <;> rcases huses hu₂ with hu₂ | ⟨rfl, rfl⟩
    · exact hk.apart hu₁ hu₂ ho₁ ho₂ hlayout hid
    · exact hsole hu₁ ho₁ hlayout hid
    · exact (hsole hu₂ ho₂ hlayout.symm hid.symm).symm
    · rfl
  · intro place hplace
    obtain ⟨hlt, hbelow⟩ := hk.counting hplace
    refine ⟨hlt, fun hnonzero _ _ hu hlayout => ?_⟩
    rcases huses hu with hu | ⟨rfl, -⟩
    · exact hbelow hnonzero hu hlayout
    · exact hcounting hplace hlayout hnonzero

/-- A new id is one that no value has a file under. -/
theorem fresh (hk : Kept db n s) (hopen : db.Opened n) (hfits : db.Fits s.world) {w₁ : World σ}
    (halloc : db.allocate s.world = .ok id w₁) : n.Proper db.layout id ∧
      (∀ {ref origin}, s.Uses ref origin → s.world.Owns ref.handle → ref.layout = db.layout →
        ref.id ≠ id) ∧
      ∀ {place}, db.allocator = .counter place → place < w₁.counters.length ∧
        s.world.counters.getD place 0 ≠ 0 ∧
        s.world.counters.getD place 0 ≤ w₁.counters.getD place 0 ∧
        id.word < w₁.counters.getD place 0 := by
  cases hopen with
  | tree hlayout =>
    have hdb : ∀ {settings : Settings} {allocator : Allocator}, settings.layout = .sharded →
      Database.layout { settings, naming := n, allocator } = .sharded := fun h => h
    rw [hdb hlayout]
    -- A scan looks at the files, and what is used has one.
    obtain ⟨hproper, hfree⟩ := Allocator.scanFrom_ok hfits halloc
    refine ⟨hproper, ?_, fun hplace => by cases hplace⟩
    rintro ref origin huses howns hsharded rfl
    obtain ⟨stored, hfile, -⟩ := (hk.backed huses).stored howns
    rw [hsharded] at hfile
    rw [show n.path .sharded = n.shardedPath from rfl, hfree] at hfile
    cases hfile
  | @flat settings naming place hlayout _ =>
    obtain ⟨hlt, hbelow⟩ := hk.counting rfl
    -- A counter looks at no file in the tree, but all ids that are used are below it.
    obtain ⟨hlt', hle, hid⟩ := (Allocator.countFrom_counter hlt).1 halloc
    refine ⟨⟨fun hzero => ?_, fun hsharded => ?_⟩, fun huses _ hflat heq => ?_, fun hplace => ?_⟩
    · rw [hzero] at hle
      exact hfits (UInt32.le_antisymm hle (UInt32.zero_le))
    · rw [show settings.layout = _ from hsharded] at hlayout
      cases hlayout
    · have hless := hbelow hfits huses (hflat.trans hlayout)
      rw [heq] at hless
      exact absurd (UInt32.lt_of_lt_of_le hless hle) (UInt32.lt_irrefl _)
    · cases hplace
      exact ⟨hlt', hfits, UInt32.le_of_lt (UInt32.lt_of_le_of_lt hle hid), hid⟩

end Kept

end LargeObjects
