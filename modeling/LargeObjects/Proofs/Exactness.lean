import Mathlib
import LargeObjects.Proofs.Creating
import LargeObjects.Proofs.Frames
import LargeObjects.Proofs.MemoryLaws
import LargeObjects.Proofs.Names
import LargeObjects.Proofs.Reading

/-! A value made from a source holds what the source starts with, to the octet: as many units as were
declared, or all that there are. -/
namespace LargeObjects

open ReliableStore

namespace Delivery

def OnlyReads (deliveries : List Delivery) : Prop :=
  ∀ d ∈ deliveries, d = .interrupted ∨ ∃ content, content ≠ [] ∧ d = .bytes content

variable {deliveries : List Delivery}

theorem OnlyReads.outcome (h : OnlyReads deliveries) : (Delivery.outcome deliveries).2 = none := by
  induction deliveries with
  | nil => rfl
  | cons d rest ih =>
    have hrest := ih fun d' hd' => h d' (List.mem_cons_of_mem _ hd')
    rcases h d List.mem_cons_self with rfl | ⟨content, -, rfl⟩
    · exact hrest
    · exact hrest

theorem OnlyReads.not_mem (h : OnlyReads deliveries) : .bytes [] ∉ deliveries := by
  intro hmem
  rcases h _ hmem with hd | ⟨content, hne, hd⟩
  · cases hd
  · cases hd
    exact hne rfl

end Delivery

namespace Intake

variable [Codec] {σ : Type} [FileStore σ] [ReliableStore σ]

/-- No more units are taken than are wanted. -/
theorem take_le {kind : Kind} {rest : List Delivery} {pending : Bytes} {capacity wanted : Nat}
    {s : σ} {chunk : Bytes} {count : Nat} {t : Intake σ × σ} (hrest : .bytes [] ∉ rest)
    (hpending : kind = .binary → pending = [])
    (h : take wanted ({ kind, source := .planned rest, pending, capacity }, s) =
      .ok (chunk, count) t) : count ≤ wanted := by
  have hholds : Holds [] s { kind, source := .planned rest, pending, capacity }
      (pending ++ (Delivery.outcome rest).1) (Delivery.outcome rest).2 :=
    ⟨hpending, _, rfl, .planned hrest⟩
  rcases take_eq hholds wanted with ⟨-, intake', hrun, -⟩ | ⟨-, e, intake', hrun, -⟩
  · rw [hrun] at h
    cases h
    exact Kind.length_units_le _ _ _
  · rw [hrun] at h
    cases h

end Intake

namespace Value

section Creating

variable [Codec] {σ : Type} [FileStore σ] [ReliableStore σ]

/-- A value that holds certain units, made in a state `w`: it reads back their octets, and it has a
file exactly when they are more than the threshold. -/
structure MadeOf (v : Value) (kind : Kind) (units : List Bytes) (threshold : Nat)
    (w w' : World σ) : Prop where
  kind_eq : v.kind = kind
  precision_eq : v.precision = units.length
  readBytes_eq : v.readBytes w' = .ok units.flatten w'
  inline_iff : v.isInline ↔ units.length ≤ threshold
  inline_same : v.isInline → w' = w
  file_there : ¬v.isInline →
    ∃ path, v.path? w' = some path ∧ (fileAt? w'.store path.components).isSome

variable {db : Database} {kind : Kind} {text : Bytes} {source : Source σ} {w : World σ}

/-- From a text that ends without failure a value is made, unless characters are lacking. -/
theorem create_cases [Codec.Inverts] (hsource : source.Supplies [] w.store text none)
    (hthreshold : db.settings.inlineThreshold < ChunkSize.limit) (declared : Option Nat)
    (halloc : db.settings.inlineThreshold < (kind.units (declared.getD unlimited) text).length →
      ∃ id w₁, db.allocate w = .ok id w₁) :
    let wanted := declared.getD unlimited
    let result := create db kind source declared w
    (¬kind.Complete wanted text none ∧ ∃ cause w', result = .error (.corruption cause) w') ∨
    kind.Complete wanted text none ∧ ∃ v w', result = .ok v w' ∧
      v.MadeOf kind (kind.units wanted text) db.settings.inlineThreshold w w' := by
  intro wanted result
  rcases create_eq db kind hsource hthreshold declared with
    ⟨hdone, hsmall, hresult⟩ | ⟨hfail, e, hresult, hcause⟩ | ⟨hlarge, -, hfile⟩
  · refine Or.inr ⟨hdone, _, _, hresult, rfl, rfl, readBytes_inline rfl, ?_, fun _ => rfl, ?_⟩
    · exact iff_of_true rfl hsmall
    · intro h
      exact absurd rfl h
  · obtain ⟨cause, rfl⟩ := hcause rfl
    exact Or.inl ⟨hfail, cause, w, hresult⟩
  · obtain ⟨id, w₁, hid⟩ := halloc hlarge
    rcases hfile with ⟨e, w₂, herror, -⟩ | ⟨id, w₁, hid', hin⟩
    · rw [hid] at herror
      cases herror
    -- A source that reads no file is not disturbed by the new one.
    have hpath := db.naming.nil_ne_components_path db.layout .temp id
    have hhandles := (db.allocate_sameFiles.1 hid').handles_eq
    rcases hin hpath with ⟨hdone, s', stored, hresult, hstored, hstores, -⟩ |
      ⟨hfail, e, s', hresult, -, -, hcause⟩
    · have hhandle : (filed w₁ (db.naming.path db.layout .temp id) 1 s').handle w.handles.length =
          { path := db.naming.path db.layout .temp id, armed := true } := by
        rw [← hhandles]
        exact World.handle_append_new rfl
      refine Or.inr ⟨hdone, _, _, hresult, rfl, rfl, ?_, ?_, ?_, ?_⟩
      · refine readBytes_ok rfl ?_ ?_ hstores
        · rw [hhandle]
        · rw [hhandle]
          exact hstored
      · exact iff_of_false nofun (Nat.not_le.2 hlarge)
      · intro h
        cases h
      · intro _
        refine ⟨db.naming.path db.layout .temp id, ?_, ?_⟩
        · simp only [path?, Value.file?, Option.map_some, hhandle]
        · show (fileAt? s' _).isSome
          rw [hstored]
          rfl
    · obtain ⟨cause, rfl⟩ := hcause rfl
      exact Or.inl ⟨hfail, cause, _, hresult⟩

/-- Making a value from reads of any sizes, with any interruptions between them, with any codec whose
decoder inverts its encoder. Let `units` be the units that the source starts with, and `wanted` how
many were declared. A character value fails, with corruption, exactly when the source stops being
text before there are as many characters as wanted; there is no other failure. A value that is made
has the first `wanted` units, or all of them. No chunk holds more units than remain to be taken, so
nothing is ever subtracted from less. -/
theorem create_exact [Codec.Inverts] (db : Database) (kind : Kind) {deliveries : List Delivery}
    (declared : Option Nat) (w : World σ) (hreads : Delivery.OnlyReads deliveries)
    (hthreshold : db.settings.inlineThreshold < ChunkSize.limit)
    (halloc : db.settings.inlineThreshold <
        min (declared.getD unlimited) (kind.allUnits (Delivery.outcome deliveries).1).length →
      ∃ id w₁, db.allocate w = .ok id w₁) :
    let text := (Delivery.outcome deliveries).1
    let units := kind.allUnits text
    let wanted := declared.getD unlimited
    let threshold := db.settings.inlineThreshold
    let compressed := (db.settings.compressionFor kind).isSome
    let result := create db kind (.planned deliveries) declared w
    let lacking := kind = .character ∧ Utf8.defect? text ≠ none ∧ units.length < wanted
    ((∃ cause w', result = .error (.corruption cause) w') ↔ lacking) ∧
    ((∃ v w', result = .ok v w') ↔ ¬lacking) ∧
    (∀ v w', result = .ok v w' →
      v.precision = min wanted units.length ∧ v.MadeOf kind (units.take wanted) threshold w w') ∧
    ∀ rest pending capacity remaining s chunk count t, .bytes [] ∉ rest →
      (kind = .binary → pending = []) →
      Intake.take (ChunkSize.next remaining threshold compressed)
        ({ kind, source := .planned rest, pending, capacity }, (s : σ)) = .ok (chunk, count) t →
      count ≤ remaining := by
  intro text units wanted threshold compressed result lacking
  have hsource : Source.Supplies [] w.store (.planned deliveries) text none := by
    rw [← hreads.outcome]
    exact .planned hreads.not_mem
  have hlacking : ¬kind.Complete wanted text none ↔ lacking := Kind.not_complete_iff kind wanted text
  have hlength : (kind.units wanted text).length = min wanted units.length :=
    Kind.length_units kind wanted text
  have hchunk : ∀ rest pending capacity remaining s chunk count t, .bytes [] ∉ rest →
      (kind = .binary → pending = []) →
      Intake.take (ChunkSize.next remaining threshold compressed)
        ({ kind, source := .planned rest, pending, capacity }, (s : σ)) = .ok (chunk, count) t →
      count ≤ remaining := by
    intro rest pending capacity remaining s chunk count t hrest hpending hrun
    exact (Intake.take_le hrest hpending hrun).trans (ChunkSize.next_le compressed remaining threshold)
  rcases create_cases hsource hthreshold declared (by rwa [hlength]) with
    ⟨hfail, cause, w', hresult⟩ | ⟨hdone, v, w', hresult, hmade⟩
  · have hlack := hlacking.1 hfail
    have hnot : ∀ v w', result ≠ .ok v w' := by
      intro v w'' hok
      rw [show result = _ from hresult] at hok
      cases hok
    refine ⟨iff_of_true ⟨cause, w', hresult⟩ hlack, iff_of_false ?_ fun h => h hlack, ?_, hchunk⟩
    · rintro ⟨v, w'', hok⟩
      exact hnot v w'' hok
    · intro v w'' hok
      exact absurd hok (hnot v w'')
  · have hlack : ¬lacking := fun h => hlacking.2 h hdone
    refine ⟨iff_of_false ?_ hlack, iff_of_true ⟨v, w', hresult⟩ hlack, ?_, hchunk⟩
    · rintro ⟨cause, w'', herror⟩
      rw [show result = _ from hresult] at herror
      cases herror
    · intro v' w'' hok
      rw [show result = _ from hresult] at hok
      cases hok
      rw [Kind.units_eq_take] at hmade hlength
      exact ⟨hmade.precision_eq.trans hlength, hmade⟩

end Creating

def smallTree : Database where
  settings := { inlineThreshold := 2, fanout := 4 }
  naming := ⟨⟨['d', 'b']⟩, 4⟩
  allocator := .scan 1

def packedTree : Database :=
  { smallTree with settings.characterCompression := some (.zstd 3) }

def cutText : List Delivery :=
  [.bytes [0x61, 0xC3], .interrupted, .bytes [0xA9], .bytes [0x62, 0x63]]

/-- Frames are such a codec: a text that goes through them is the same text again. -/
theorem create_exact_cutText :
    Codec.Inverts ∧ Delivery.OnlyReads cutText ∧
    packedTree.settings.inlineThreshold < ChunkSize.limit ∧
    (∃ id w₁, packedTree.allocate ({ store := default } : World MemoryStore) = .ok id w₁) ∧
    ∃ v w', create packedTree .character (.planned cutText) (some 3)
        ({ store := default } : World MemoryStore) = .ok v w' ∧ v.precision = 3 ∧
      v.readBytes w' = .ok [0x61, 0xC3, 0xA9, 0x62] w' ∧ ¬v.isInline := by
  have hreads : Delivery.OnlyReads cutText := by
    intro d hd
    simp only [cutText, List.mem_cons, List.not_mem_nil, or_false] at hd
    rcases hd with rfl | rfl | rfl | rfl <;> simp
  have hthreshold : packedTree.settings.inlineThreshold < ChunkSize.limit := by decide
  have halloc : ∃ id w₁,
      packedTree.allocate ({ store := default } : World MemoryStore) = .ok id w₁ := ⟨_, _, rfl⟩
  have h := create_exact packedTree .character (some 3)
    ({ store := default } : World MemoryStore) hreads hthreshold fun _ => halloc
  obtain ⟨v, w', hresult⟩ := h.2.1.2 fun hlack => hlack.2.1 (by decide)
  obtain ⟨hprecision, hmade⟩ := h.2.2.1 v w' hresult
  refine ⟨Frame.inverts, hreads, hthreshold, halloc, v, w', hresult, hprecision,
    hmade.readBytes_eq, ?_⟩
  rw [hmade.inline_iff]
  decide

section Thresholds

variable [Codec] {σ : Type} [FileStore σ] [ReliableStore σ] {text : Bytes}
  {ending : Option StreamError} {p : List Component} {source : Source σ} {w : World σ}

/-- A value without a file lacks units that are wanted exactly when the threshold is not below the
largest chunk and more units follow one. -/
theorem exists_cut_short_iff (db : Database) (kind : Kind)
    (hsource : source.Supplies p w.store text ending) (declared : Option Nat) :
    let units := kind.units (declared.getD unlimited) text
    (∃ v w', create db kind source declared w = .ok v w' ∧ v.isInline ∧
        v.precision < units.length) ↔
      ChunkSize.limit ≤ db.settings.inlineThreshold ∧ ChunkSize.limit < units.length := by
  intro units
  have hmost : units.length ≤ declared.getD unlimited := Kind.length_units_le kind _ text
  rcases Nat.lt_or_ge db.settings.inlineThreshold ChunkSize.limit with ht | ht
  · refine iff_of_false ?_ fun h => absurd h.1 (Nat.not_le.2 ht)
    rintro ⟨v, w', hcreate, hinline, hcut⟩
    obtain ⟨first, intake, store, htake, hsmall⟩ := exists_take_of_inline hcreate hinline
    have hholds : Intake.Holds p w.store { kind, source } text ending :=
      ⟨fun _ => rfl, text, rfl, hsource⟩
    rcases Intake.take_eq hholds (ChunkSize.next (declared.getD unlimited)
        db.settings.inlineThreshold (db.settings.compressionFor kind).isSome) with
      ⟨hdone, intake', hrun, -, -⟩ | ⟨-, e, intake', hrun, -⟩
    · rw [hrun] at htake
      injection htake with htake
      obtain ⟨-, hprecision⟩ := Prod.mk.inj htake
      rw [← hprecision] at hsmall hcut
      have hwhole := (Kind.whole_of_chunk_le ht rfl hsmall hdone).1
      exact absurd hcut (by rw [← hwhole]; exact Nat.lt_irrefl _)
    · rw [hrun] at htake
      cases htake
  · have hrun := create_of_limit_le db kind hsource ht declared
    dsimp only at hrun
    generalize hsize : min (declared.getD unlimited) ChunkSize.limit = size at hrun
    have hhead := Kind.length_units_le kind size text
    -- Where a chunk comes short of its size, there is nothing after it.
    have hshort : (kind.units size text).length < size → units = kind.units size text :=
      fun hlt => Kind.units_of_short hlt (hsize ▸ Nat.min_le_left _ _)
    constructor
    · rintro ⟨v, w', hcreate, -, hcut⟩
      refine ⟨ht, ?_⟩
      rcases hrun with ⟨-, hrun⟩ | ⟨-, e, hrun⟩
      · rw [hrun] at hcreate
        cases hcreate
        dsimp only at hcut
        have hall : ¬(kind.units size text).length < size := by
          intro hlt
          rw [hshort hlt] at hcut
          exact Nat.lt_irrefl _ hcut
        omega
      · rw [hrun] at hcreate
        cases hcreate
    · rintro ⟨-, hmore⟩
      have hall : (kind.units size text).length = size := by
        by_contra hne
        rw [hshort (by omega)] at hmore
        omega
      rcases hrun with ⟨-, hrun⟩ | ⟨hfail, -⟩
      · refine ⟨_, w, hrun, rfl, ?_⟩
        dsimp only
        omega
      · exact absurd (Or.inl hall) hfail

/-- The sizes of chunks. A chunk is no larger than what remains nor than the largest chunk, and empty
only when nothing remains; where no more than the threshold remains it is all of it. Where more
remains it is larger than the threshold exactly when the threshold is below the largest chunk. From
there on a value that is kept without a file may lack what follows its first chunk, and never
otherwise. -/
theorem first_chunk_decides_iff (db : Database) (kind : Kind)
    (hsource : source.Supplies p w.store text ending) (declared : Option Nat) :
    (∀ remaining threshold compressed,
      let size := ChunkSize.next remaining threshold compressed
      size ≤ min remaining ChunkSize.limit ∧ (size = 0 ↔ remaining = 0) ∧
      (remaining ≤ threshold → size = min remaining ChunkSize.limit) ∧
      (threshold < remaining → (threshold < size ↔ threshold < ChunkSize.limit))) ∧
    let units := kind.units (declared.getD unlimited) text
    ((∃ v w', create db kind source declared w = .ok v w' ∧ v.isInline ∧
        v.precision < units.length) ↔
      ChunkSize.limit ≤ db.settings.inlineThreshold ∧ ChunkSize.limit < units.length) := by
  refine ⟨fun remaining threshold compressed => ?_, exists_cut_short_iff db kind hsource declared⟩
  intro size
  have hle : size ≤ remaining := ChunkSize.next_le compressed remaining threshold
  have hlimit : size ≤ ChunkSize.limit := ChunkSize.next_le_limit compressed remaining threshold
  refine ⟨Nat.le_min.2 ⟨hle, hlimit⟩, ⟨fun hzero => ?_, fun hzero => ?_⟩, fun hfew => ?_, fun hmany =>
    ⟨fun hlarge => hlarge.trans_le hlimit, ChunkSize.lt_next compressed remaining hmany⟩⟩
  · by_contra hpos
    exact absurd (ChunkSize.next_pos compressed remaining threshold (Nat.pos_of_ne_zero hpos))
      (Nat.not_lt.2 hzero.le)
  · omega
  · rcases Nat.lt_or_ge threshold ChunkSize.limit with ht | ht
    · rw [Nat.min_eq_left (hfew.trans ht.le)]
      exact ChunkSize.next_eq_of_le compressed remaining hfew ht
    · exact ChunkSize.next_eq_of_limit_le compressed remaining ht

end Thresholds

/-- The threshold of 2 is far below the largest chunk, so what is made of four characters without a
file is all of them, and here there is a file. -/
theorem first_chunk_decides_cutText :
    Source.Supplies [] (default : MemoryStore) (.planned cutText) (Delivery.outcome cutText).1
      (Delivery.outcome cutText).2 ∧
    4294967294 < ChunkSize.next 4294967296 4294967294 false ∧
    ¬∃ v w', create smallTree .character (.planned cutText) none
        ({ store := default } : World MemoryStore) = .ok v w' ∧ v.isInline ∧ v.precision < 4 := by
  have hsource : Source.Supplies [] (default : MemoryStore) (.planned cutText)
      (Delivery.outcome cutText).1 (Delivery.outcome cutText).2 := .planned (by decide)
  obtain ⟨hchunks, hcut⟩ := first_chunk_decides_iff (w := ({ store := default } : World MemoryStore))
    smallTree .character hsource none
  dsimp only at hcut
  have hlength : (Kind.character.units (Option.getD none unlimited)
      (Delivery.outcome cutText).1).length = 4 := by
    rw [Kind.length_units]
    decide
  refine ⟨hsource, ((hchunks 4294967296 4294967294 false).2.2.2 (by decide)).2 (by decide), ?_⟩
  rw [hlength] at hcut
  rw [hcut]
  decide

/-- From the largest chunk on the threshold is not exceeded although more remains. A source of one
octet more than the largest chunk then loses the last one. -/
theorem first_chunk_undecided :
    ¬(∀ remaining threshold compressed, threshold < remaining →
      threshold < ChunkSize.next remaining threshold compressed) ∧
    ChunkSize.next 4294967296 4294967295 false = 4294967295 ∧
    ∃ v w', create { smallTree with settings := { inlineThreshold := 4294967295 } } .binary
        (.planned [.bytes (List.replicate 4294967296 0)]) none
        ({ store := default } : World MemoryStore) = .ok v w' ∧
      v.isInline ∧ v.precision < 4294967296 := by
  have hsize : ChunkSize.next 4294967296 4294967295 false = 4294967295 := by decide
  refine ⟨fun h => ?_, hsize, ?_⟩
  · have hlarge := h 4294967296 4294967295 false (by decide)
    rw [hsize] at hlarge
    exact Nat.lt_irrefl _ hlarge
  generalize hoctets : List.replicate 4294967296 (0 : UInt8) = octets
  have hlength : octets.length = 4294967296 := by
    rw [← hoctets, List.length_replicate]
  have hsource : Source.Supplies [] (default : MemoryStore) (.planned [.bytes octets])
      (Delivery.outcome [.bytes octets]).1 (Delivery.outcome [.bytes octets]).2 := by
    refine .planned fun hmem => ?_
    rw [List.mem_singleton, Delivery.bytes.injEq] at hmem
    rw [← hmem] at hlength
    cases hlength
  have hcut := exists_cut_short_iff (w := ({ store := default } : World MemoryStore))
    { smallTree with settings := { inlineThreshold := 4294967295 } } .binary hsource none
  have hunits : (Kind.binary.units (Option.getD none unlimited)
      (Delivery.outcome [.bytes octets]).1).length = 4294967296 := by
    rw [Kind.length_units_binary]
    simp only [Delivery.outcome, List.append_nil, hlength]
    decide
  dsimp only at hcut
  rw [hunits] at hcut
  exact hcut.2 ⟨by decide, by decide⟩

end Value

end LargeObjects
