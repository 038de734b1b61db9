import Mathlib
import LargeObjects.Value.Creation
import LargeObjects.Proofs.Allocating
import LargeObjects.Proofs.Handles
import LargeObjects.Proofs.Intakes

/-! Making values from sources. A new value holds the units that its source starts with, as many as
were declared or all there are, and it has a file exactly when they are more than the inline
threshold. -/
namespace LargeObjects

namespace ChunkSize

theorem le_roundUp (n : Nat) {granularity : Nat} (h : 0 < granularity) :
    n ≤ roundUp n granularity := by
  have hdiv := Nat.div_add_mod (n + granularity - 1) granularity
  have hmod := Nat.mod_lt (n + granularity - 1) h
  rw [Nat.mul_comm] at hdiv
  unfold roundUp
  omega

variable {remaining threshold : Nat} (compressed : Bool)

theorem next_le (remaining threshold : Nat) : next remaining threshold compressed ≤ remaining := by
  unfold next
  exact (Nat.min_le_left _ _).trans (Nat.min_le_left _ _)

theorem next_le_limit (remaining threshold : Nat) : next remaining threshold compressed ≤ limit := by
  unfold next
  exact (Nat.min_le_left _ _).trans (Nat.min_le_right _ _)

theorem next_pos (remaining threshold : Nat) (h : 0 < remaining) :
    0 < next remaining threshold compressed := by
  have hunit : 0 < if compressed then compressedUnit else plainUnit := by
    cases compressed <;> decide
  have hlimit : 0 < limit := by decide
  simp only [next]
  generalize (if compressed = true then compressedUnit else plainUnit) = unit at hunit ⊢
  generalize (if limit ≤ threshold then min remaining limit else threshold) = threshold
  have hround := le_roundUp (min (min remaining limit) (threshold + 1))
    (show 0 < plainUnit by decide)
  split <;> omega

theorem next_eq_of_le (remaining : Nat) (h : remaining ≤ threshold) (ht : threshold < limit) :
    next remaining threshold compressed = remaining := by
  have hround := le_roundUp (min (min remaining limit) (threshold + 1))
    (show 0 < plainUnit by decide)
  simp only [next, if_neg (Nat.not_le.2 ht)]
  generalize (if compressed = true then compressedUnit else plainUnit) = unit
  split <;> omega

/-- From the largest chunk on, a threshold lets everything be taken at once. -/
theorem next_eq_of_limit_le (remaining : Nat) (ht : limit ≤ threshold) :
    next remaining threshold compressed = min remaining limit := by
  have hround := le_roundUp (min (min remaining limit) (min remaining limit + 1))
    (show 0 < plainUnit by decide)
  simp only [next, if_pos ht]
  generalize (if compressed = true then compressedUnit else plainUnit) = unit
  split <;> omega

/-- Where more than the threshold may follow, a chunk is larger than the threshold. -/
theorem lt_next (remaining : Nat) (h : threshold < remaining) (ht : threshold < limit) :
    threshold < next remaining threshold compressed := by
  have hround := le_roundUp (min (min remaining limit) (threshold + 1))
    (show 0 < plainUnit by decide)
  simp only [next, if_neg (Nat.not_le.2 ht)]
  generalize (if compressed = true then compressedUnit else plainUnit) = unit
  split <;> omega

end ChunkSize

namespace Kind

variable {kind : Kind} {m n : Nat} {text : Bytes} {ending : Option StreamError}

theorem units_zero (kind : Kind) (text : Bytes) : kind.units 0 text = [] :=
  List.length_eq_zero_iff.1 (Nat.le_zero.1 (length_units_le kind 0 text))

/-- The units that are wanted are those of a chunk and those that remain after it. -/
theorem units_chunk (hmn : m ≤ n) :
    kind.units n text = kind.units m text ++
      kind.units (n - (kind.units m text).length)
        (text.drop (kind.units m text).flatten.length) := by
  by_cases hshort : (kind.units m text).length < m
  · rw [units_of_short hshort hmn, units_short hshort, List.append_nil]
  · have hlen : (kind.units m text).length = m :=
      Nat.le_antisymm (length_units_le kind m text) (Nat.le_of_not_lt hshort)
    obtain ⟨k, rfl⟩ := Nat.exists_eq_add_of_le hmn
    rw [hlen, Nat.add_sub_cancel_left, units_add]

theorem complete_chunk (kind : Kind) (text : Bytes) (ending : Option StreamError) (hmn : m ≤ n) :
    kind.Complete n text ending ↔
      kind.Complete (n - (kind.units m text).length)
        (text.drop (kind.units m text).flatten.length) ending := by
  have hsplit := units_append_drop kind m text
  have hchunk := complete_append kind ending ((length_units_le kind m text).trans hmn)
    (by rw [hsplit]; exact units_chunk hmn)
  rwa [hsplit] at hchunk

/-- A chunk that cannot be taken whole leaves too few units for any more. -/
theorem not_complete_of_chunk (kind : Kind) (text : Bytes) (ending : Option StreamError)
    (hmn : m ≤ n)
    (h : ¬kind.Complete m text ending) :
    (kind.units m text).length < m ∧ kind.units n text = kind.units m text ∧
      ¬kind.Complete n text ending := by
  have hshort : (kind.units m text).length < m :=
    Nat.lt_of_le_of_ne (length_units_le kind m text) fun hall => h (Or.inl hall)
  have hunits := units_of_short hshort hmn
  refine ⟨hshort, hunits, not_complete ?_ fun hnone hflat => h (Or.inr ⟨hnone, ?_⟩)⟩
  · rw [hunits]
    omega
  · rwa [hunits] at hflat

/-- A first chunk of no more than the threshold is all that there is. -/
theorem whole_of_chunk_le {threshold : Nat} {compressed : Bool} (ht : threshold < ChunkSize.limit)
    (hm : m = ChunkSize.next n threshold compressed) (hsmall : (kind.units m text).length ≤ threshold)
    (hdone : kind.Complete m text ending) :
    kind.units n text = kind.units m text ∧ kind.Complete n text ending := by
  rcases Nat.lt_or_ge threshold n with hlt | hge
  · have hsize := ChunkSize.lt_next compressed n hlt ht
    have hle := ChunkSize.next_le compressed n threshold
    rw [← hm] at hsize hle
    have hsame : kind.units n text = kind.units m text := units_of_short (by omega) hle
    refine ⟨hsame, Or.inr ?_⟩
    rcases hdone with hlen | hend
    · omega
    · rwa [hsame]
  · rw [ChunkSize.next_eq_of_le compressed n hge ht] at hm
    subst hm
    exact ⟨rfl, hdone⟩

end Kind

namespace Value

open ReliableStore

variable [Codec] {σ : Type} [FileStore σ] [ReliableStore σ] {p q : List Component} {s : σ} {text : Bytes}
  {ending : Option StreamError}

/-- What pouring leads to when `total` units have gone into the sink, which has `content` now. Where
it fails the sink is in order still. -/
def Poured (writer : FileStore.Writer σ) (q : List Component) (compressed : Bool) (kind : Kind) (s : σ)
    (content : Bytes) (total remaining : Nat) (text : Bytes) (ending : Option StreamError)
    (result : EStateM.Result ObjectError (Intake σ × Sink σ × σ) Nat) : Prop :=
  let units := kind.units remaining text
  (kind.Complete remaining text ending ∧ ∃ intake' sink' s',
    result = .ok (total + units.length) (intake', sink', s') ∧
    sink'.Takes writer q compressed (content ++ units.flatten) s' ∧ OnlyAt q s s') ∨
  ¬kind.Complete remaining text ending ∧ ∃ e intake' sink' s' content',
    result = .error e (intake', sink', s') ∧
    sink'.Takes writer q compressed content' s' ∧ OnlyAt q s s' ∧
    (ending = none → ∃ cause, e = .corruption cause)

section

variable {writer : FileStore.Writer σ} {compressed : Bool} {kind : Kind} {content : Bytes}
  {total remaining : Nat} {sink : Sink σ}
  {result : EStateM.Result ObjectError (Intake σ × Sink σ × σ) Nat}

theorem poured_stop (hstop : remaining = 0 ∨ ending = none ∧ text = []) (intake : Intake σ)
    (hsink : sink.Takes writer q compressed content s) :
    Poured writer q compressed kind s content total remaining text ending
      (.ok total (intake, sink, s)) := by
  have hnil : kind.units remaining text = [] := by
    rcases hstop with rfl | ⟨-, rfl⟩
    · exact Kind.units_zero kind text
    · exact Kind.units_nil kind remaining
  have hcomplete : kind.Complete remaining text ending := by
    simp only [Kind.Complete, hnil, List.length_nil, List.flatten_nil]
    exact hstop.imp Eq.symm fun h => ⟨h.1, h.2.symm⟩
  refine Or.inl ⟨hcomplete, intake, sink, s, ?_, ?_, .refl q s⟩
  · rw [hnil]
    rfl
  · rw [hnil, List.flatten_nil, List.append_nil]
    exact hsink

/-- After the units of a chunk, those that remain are to be poured. -/
theorem Poured.chunk {m : Nat} {s' : σ} (hle : m ≤ remaining) (honly : OnlyAt q s s')
    (h : Poured writer q compressed kind s' (content ++ (kind.units m text).flatten)
      (total + (kind.units m text).length) (remaining - (kind.units m text).length)
      (text.drop (kind.units m text).flatten.length) ending result) :
    Poured writer q compressed kind s content total remaining text ending result := by
  have hunits : kind.units remaining text = kind.units m text ++ _ := Kind.units_chunk hle
  have hcomplete := Kind.complete_chunk kind text ending hle
  rcases h with ⟨hdone, intake, sink, s'', hrun, hsink, honly'⟩ |
    ⟨hfail, e, intake, sink, s'', given, hrun, hsink, honly', hcause⟩
  · refine Or.inl ⟨hcomplete.2 hdone, intake, sink, s'', ?_, ?_, honly.trans honly'⟩
    · rw [hrun, hunits, List.length_append, Nat.add_assoc]
    · rw [hunits, List.flatten_append, ← List.append_assoc]
      exact hsink
  · exact Or.inr ⟨fun h => hfail (hcomplete.1 h), e, intake, sink, s'', given, hrun, hsink,
      honly.trans honly', hcause⟩

end

/-- Pouring moves the units that remain, whatever the sizes of the chunks. It fails exactly when
they cannot all be taken. -/
theorem pour_eq {writer : FileStore.Writer σ} {compressed : Bool} (hpq : p ≠ q) (threshold : Nat)
    (framed : Bool) {fuel remaining : Nat} (hfuel : remaining ≤ fuel) (total : Nat)
    {intake : Intake σ} (hi : intake.Holds p s text ending) {sink : Sink σ} {content : Bytes}
    (hsink : sink.Takes writer q compressed content s) :
    Poured writer q compressed intake.kind s content total remaining text ending
      (pour threshold framed fuel remaining total (intake, sink, s)) := by
  induction fuel generalizing remaining total intake text sink content s with
  | zero => exact poured_stop (Or.inl (Nat.le_zero.1 hfuel)) intake hsink
  | succ fuel ih =>
    have hle := ChunkSize.next_le framed remaining threshold
    have hpos := ChunkSize.next_pos framed remaining threshold
    have htake := Intake.take_eq hi (ChunkSize.next remaining threshold framed)
    rw [pour]
    generalize ChunkSize.next remaining threshold framed = size at *
    by_cases hzero : size = 0
    · simp only [hzero, if_true]
      exact poured_stop (Or.inl (by omega)) intake hsink
    simp only [hzero, if_false]
    rcases htake with ⟨hdone, intake', hrun, hkind, hi'⟩ | ⟨hfail, e, intake', hrun, hcause⟩
    · simp only [hrun]
      -- That nothing came although something was wanted is how the end is seen.
      by_cases hcount : (intake.kind.units size text).length = 0
      · have hend : ending = none ∧ text = [] := by
          rcases hdone with hall | ⟨hnone, htext⟩
          · omega
          · rw [List.length_eq_zero_iff.1 hcount] at htext
            exact ⟨hnone, htext.symm⟩
        simp only [hcount, if_true]
        exact poured_stop (Or.inr hend) intake' hsink
      · obtain ⟨sink', s', hwrite, hsink', honly⟩ :=
          Sink.write_ok hsink (intake.kind.units size text).flatten
        simp only [hcount, if_false, hwrite]
        have hfuel' : remaining - (intake.kind.units size text).length ≤ fuel := by omega
        have hrest := ih hfuel' (total + (intake.kind.units size text).length)
          (hi'.elsewhere honly hpq) hsink'
        rw [hkind] at hrest
        exact .chunk hle honly hrest
    · obtain ⟨-, -, hnot⟩ := Kind.not_complete_of_chunk intake.kind text ending hle hfail
      simp only [hrun]
      exact Or.inr ⟨hnot, e, intake', sink, s, content, rfl, hsink, .refl q s, hcause⟩

variable [Codec.Inverts]

/-- Filling a file puts the first chunk and what remains into it. Where that fails the writer is
still open on the file. -/
theorem fillFile_eq (settings : Settings) {writer : FileStore.Writer σ}
    (hw : Writing writer q [] s) {intake : Intake σ} (hi : intake.Holds p s text ending)
    (hpq : p ≠ q) (first : Bytes) (remaining : Nat) :
    let units := intake.kind.units remaining text
    (intake.kind.Complete remaining text ending ∧ ∃ s' stored,
      fillFile settings writer first remaining intake s = .ok units.length s' ∧
      Writing writer q stored s' ∧ OnlyAt q s s' ∧
      Stores (settings.compressionFor intake.kind).isSome stored (first ++ units.flatten)) ∨
    ¬intake.kind.Complete remaining text ending ∧ ∃ e s' given,
      fillFile settings writer first remaining intake s = .error e s' ∧
      Writing writer q given s' ∧ OnlyAt q s s' ∧ (ending = none → ∃ cause, e = .corruption cause) := by
  intro units
  obtain ⟨sink, s₁, hstart, hsink, honly₁⟩ := Sink.start_ok hw (settings.compressionFor intake.kind)
  obtain ⟨sink', s₂, hfirst, hsink', honly₂⟩ := Sink.write_ok hsink first
  have honly := honly₁.trans honly₂
  have hi' : Intake.Holds p s₂ { intake with capacity := 0 } text ending := by
    obtain ⟨hpending, hsupply⟩ := hi.elsewhere honly hpq
    exact ⟨hpending, hsupply⟩
  unfold fillFile
  simp only [hstart, hfirst]
  rcases pour_eq hpq settings.inlineThreshold (settings.compressionFor intake.kind).isSome
      (Nat.le_refl remaining) 0 hi' hsink' with
    ⟨hdone, intake', sink'', s₃, hpour, hsink'', honly₃⟩ |
    ⟨hfail, e, intake', sink'', s₃, content, hpour, hsink'', honly₃, hcause⟩
  · obtain ⟨s₄, stored, hfinish, hw', hstores, honly₄⟩ := Sink.finish_ok hsink''
    refine Or.inl ⟨hdone, s₄, stored, ?_, hw', honly.trans (honly₃.trans honly₄), hstores⟩
    simp only [hpour, hfinish, Nat.zero_add]
    rfl
  · obtain ⟨given, hw'⟩ := hsink''.writing
    refine Or.inr ⟨hfail, e, s₃, given, ?_, hw', honly.trans honly₃, hcause⟩
    simp only [hpour]

omit [Codec] [Codec.Inverts] in
theorem openTemp_ok {db : Database} {w w₁ : World σ} {id : ObjectId}
    (h : db.allocate w = .ok id w₁) :
    let path := db.naming.path db.layout .temp id
    ∃ writer s', db.openTemp w = .ok (id, w₁.handles.length, writer)
        { w₁ with store := s', handles := w₁.handles ++ [{ path, armed := true }] } ∧
      Writing writer path.components [] s' ∧ OnlyAt path.components w₁.store s' := by
  intro path
  obtain ⟨writer, s', hcreate, hw, hfile, hread⟩ := create_ok path w₁.store
  refine ⟨writer, s', ?_, hw, hfile, hread⟩
  unfold Database.openTemp
  rw [Step.bind_ok h, Step.bind_ok (World.onStore_ok hcreate)]
  rfl

def filed (w : World σ) (path : Path) (holders : Nat) (s : σ) : World σ :=
  { w with store := s, handles := w.handles ++ [{ path, armed := true, holders }] }

/-- Writing a new temporary file either gives a value with the whole content or leaves nothing but a
handle that nobody holds. -/
theorem createInFile_eq {db : Database} {w w₁ : World σ} {id : ObjectId}
    (halloc : db.allocate w = .ok id w₁) {intake : Intake σ}
    (hi : intake.Holds p w.store text ending)
    (hp : p ≠ (db.naming.path db.layout .temp id).components) (first : Bytes)
    (count remaining : Nat) :
    let path := db.naming.path db.layout .temp id
    let units := intake.kind.units remaining text
    let compressed := (db.settings.compressionFor intake.kind).isSome
    (intake.kind.Complete remaining text ending ∧ ∃ s' stored,
      createInFile db first count remaining intake w =
        .ok { kind := intake.kind, precision := count + units.length,
              content := .file { id, owner := .temp, compressed, layout := db.layout,
                                 handle := w.handles.length } } (filed w₁ path 1 s') ∧
      fileAt? s' path.components = some stored ∧ Stores compressed stored (first ++ units.flatten) ∧
      ∀ q ≠ path.components, fileAt? s' q = fileAt? w.store q) ∨
    ¬intake.kind.Complete remaining text ending ∧ ∃ e s',
      createInFile db first count remaining intake w = .error e (filed w₁ path 0 s') ∧
      fileAt? s' path.components = none ∧
      (∀ q ≠ path.components, fileAt? s' q = fileAt? w.store q) ∧
      (ending = none → ∃ cause, e = .corruption cause) := by
  intro path units compressed
  have hsame := db.allocate_sameFiles.1 halloc
  obtain ⟨writer, s₁, hopen, hw, honly₁⟩ := openTemp_ok halloc
  rw [hsame.store_eq] at honly₁
  unfold createInFile
  rw [Step.bind_ok hopen]
  dsimp only
  rcases fillFile_eq db.settings hw (hi.elsewhere honly₁ hp) hp first remaining with
    ⟨hdone, s₂, stored, hfill, hw₂, honly₂, hstores⟩ |
    ⟨hfail, e, s₂, given, hfill, hw₂, honly₂, hcause⟩
  · obtain ⟨hfile, helse⟩ := close_ok hw₂
    refine Or.inl ⟨hdone, FileStore.close writer s₂, stored, ?_, hfile, hstores, fun q hq => ?_⟩
    · simp only [hfill]
      rw [← hsame.handles_eq]
      rfl
    · rw [helse q hq, (honly₁.trans honly₂).file_eq q hq]
  · obtain ⟨-, helse⟩ := close_ok hw₂
    obtain ⟨s₃, hrelease, hgone, helse'⟩ := World.release_new w₁ (FileStore.close writer s₂)
      (db.naming.path db.layout .temp id)
    refine Or.inr ⟨hfail, e, s₃, ?_, hgone, fun q hq => ?_, hcause⟩
    · simp only [hfill, hrelease]
      rfl
    · rw [helse' q hq, helse q hq, (honly₁.trans honly₂).file_eq q hq]

def NeedsFile (db : Database) (kind : Kind) (source : Source σ) (declared : Option Nat)
    (w : World σ) : Prop :=
  let size := ChunkSize.next (declared.getD unlimited) db.settings.inlineThreshold
    (db.settings.compressionFor kind).isSome
  ∃ first count t, Intake.take size ({ kind, source }, w.store) = .ok (first, count) t ∧
    db.settings.inlineThreshold < count

omit [ReliableStore σ] in
omit [Codec.Inverts] in
/-- Only a first chunk of no more than the threshold makes a value without a file. -/
theorem exists_take_of_inline {db : Database} {kind : Kind} {source : Source σ}
    {declared : Option Nat} {w w' : World σ} {v : Value}
    (h : create db kind source declared w = .ok v w') (hv : v.isInline) :
    ∃ first intake store, Intake.take (ChunkSize.next (declared.getD unlimited)
        db.settings.inlineThreshold (db.settings.compressionFor kind).isSome)
        ({ kind, source }, w.store) = .ok (first, v.precision) (intake, store) ∧
      v.precision ≤ db.settings.inlineThreshold := by
  unfold create at h
  dsimp only at h
  split at h
  · cases h
  next first count intake store htake =>
    split at h
    next hsmall =>
      cases h
      exact ⟨first, intake, store, htake, hsmall⟩
    · obtain ⟨⟨id, handle, writer⟩, w₁, -, hfill⟩ := Step.bind_eq_ok h
      dsimp only at hfill
      split at hfill
      · cases hfill
        cases hv
      · split at hfill <;> cases hfill

def InFile (db : Database) (kind : Kind) (units : List Bytes) (complete : Prop)
    (ending : Option StreamError) (w w₁ : World σ) (id : ObjectId)
    (result : EStateM.Result ObjectError (World σ) Value) : Prop :=
  let path := db.naming.path db.layout .temp id
  let compressed := (db.settings.compressionFor kind).isSome
  (complete ∧ ∃ s' stored,
    result = .ok { kind, precision := units.length,
                   content := .file { id, owner := .temp, compressed, layout := db.layout,
                                      handle := w.handles.length } } (filed w₁ path 1 s') ∧
    fileAt? s' path.components = some stored ∧ Stores compressed stored units.flatten ∧
    ∀ q ≠ path.components, fileAt? s' q = fileAt? w.store q) ∨
  ¬complete ∧ ∃ e s', result = .error e (filed w₁ path 0 s') ∧
    fileAt? s' path.components = none ∧
    (∀ q ≠ path.components, fileAt? s' q = fileAt? w.store q) ∧
    (ending = none → ∃ cause, e = .corruption cause)

/-- The first chunk and what remains after it are all the units that are wanted. -/
theorem createInFile_chunk {db : Database} {w w₁ : World σ} {id : ObjectId}
    (halloc : db.allocate w = .ok id w₁) {kind : Kind} {intake : Intake σ} {m n : Nat} (hmn : m ≤ n)
    (hkind : intake.kind = kind)
    (hi : intake.Holds p w.store (text.drop (kind.units m text).flatten.length) ending)
    (hp : p ≠ (db.naming.path db.layout .temp id).components) :
    InFile db kind (kind.units n text) (kind.Complete n text ending) ending w w₁ id
      (createInFile db (kind.units m text).flatten (kind.units m text).length
        (n - (kind.units m text).length) intake w) := by
  have hunits : kind.units n text = kind.units m text ++ _ := Kind.units_chunk hmn
  have hcomplete := Kind.complete_chunk kind text ending hmn
  have hcreate := createInFile_eq halloc hi hp (kind.units m text).flatten
    (kind.units m text).length (n - (kind.units m text).length)
  rw [hkind] at hcreate
  rcases hcreate with ⟨hdone, s', stored, hrun, hfile, hstores, helse⟩ |
    ⟨hfail, e, s', hrun, hgone, helse, hcause⟩
  · refine Or.inl ⟨hcomplete.2 hdone, s', stored, ?_, hfile, ?_, helse⟩
    · rw [hrun, hunits, List.length_append]
    · rw [hunits, List.flatten_append]
      exact hstores
  · exact Or.inr ⟨fun h => hfail (hcomplete.1 h), e, s', hrun, hgone, helse, hcause⟩

omit [Codec.Inverts] in
/-- Where the threshold is not below the largest chunk, no value needs a file: one largest chunk is
taken, and nothing after it. -/
theorem create_of_limit_le (db : Database) (kind : Kind) {source : Source σ} {w : World σ}
    (hsource : source.Supplies p w.store text ending)
    (ht : ChunkSize.limit ≤ db.settings.inlineThreshold) (declared : Option Nat) :
    let size := min (declared.getD unlimited) ChunkSize.limit
    (kind.Complete size text ending ∧ create db kind source declared w =
      .ok { kind, precision := (kind.units size text).length,
            content := .inline (kind.units size text).flatten none } w) ∨
    ¬kind.Complete size text ending ∧ ∃ e, create db kind source declared w = .error e w := by
  intro size
  have hholds : Intake.Holds p w.store { kind, source } text ending :=
    ⟨fun _ => rfl, text, rfl, hsource⟩
  have hsize : size ≤ db.settings.inlineThreshold := (Nat.min_le_right _ _).trans ht
  have hnext := ChunkSize.next_eq_of_limit_le (db.settings.compressionFor kind).isSome
    (declared.getD unlimited) ht
  unfold create
  dsimp only
  rw [hnext]
  change (kind.Complete size text ending ∧ _) ∨ ¬kind.Complete size text ending ∧ _
  rcases Intake.take_eq hholds size with ⟨hdone, intake, hrun, -, -⟩ | ⟨hfail, e, intake, hrun, -⟩
  · have hle := Kind.length_units_le kind size text
    refine Or.inl ⟨hdone, ?_⟩
    simp only [size] at hrun hle hsize
    simp only [hrun]
    rw [if_pos (hle.trans hsize)]
  · refine Or.inr ⟨hfail, e, ?_⟩
    simp only [size] at hrun
    simp only [hrun]

/-- All that can come of making a value: a value without a file, a failure before there is a file,
or what comes of writing one. -/
theorem create_eq (db : Database) (kind : Kind) {source : Source σ} {w : World σ}
    (hsource : source.Supplies p w.store text ending)
    (ht : db.settings.inlineThreshold < ChunkSize.limit) (declared : Option Nat) :
    let units := kind.units (declared.getD unlimited) text
    let complete := kind.Complete (declared.getD unlimited) text ending
    let result := create db kind source declared w
    (complete ∧ units.length ≤ db.settings.inlineThreshold ∧
      result = .ok { kind, precision := units.length, content := .inline units.flatten none } w) ∨
    (¬complete ∧ ∃ e, result = .error e w ∧ (ending = none → ∃ cause, e = .corruption cause)) ∨
    db.settings.inlineThreshold < units.length ∧ NeedsFile db kind source declared w ∧
      ((∃ e w₁, db.allocate w = .error e w₁ ∧ result = .error e w₁) ∨
        ∃ id w₁, db.allocate w = .ok id w₁ ∧
          (p ≠ (db.naming.path db.layout .temp id).components →
            InFile db kind units complete ending w w₁ id result)) := by
  intro units complete result
  have hholds : Intake.Holds p w.store { kind, source } text ending :=
    ⟨fun _ => rfl, text, rfl, hsource⟩
  have htake := Intake.take_eq hholds (ChunkSize.next (declared.getD unlimited)
    db.settings.inlineThreshold (db.settings.compressionFor kind).isSome)
  have hle := ChunkSize.next_le (db.settings.compressionFor kind).isSome (declared.getD unlimited)
    db.settings.inlineThreshold
  have hresult : result = create db kind source declared w := rfl
  unfold create at hresult
  unfold NeedsFile
  simp only at hresult ⊢
  generalize hsize : ChunkSize.next (declared.getD unlimited) db.settings.inlineThreshold
    (db.settings.compressionFor kind).isSome = size at *
  rcases htake with ⟨hdone, intake, hrun, hkind, hi⟩ | ⟨hfail, e, intake, hrun, hcause⟩
  · simp only [hrun] at hresult ⊢
    dsimp only at hkind hdone hi
    by_cases hsmall : (kind.units size text).length ≤ db.settings.inlineThreshold
    · obtain ⟨hunits, hcomplete⟩ := Kind.whole_of_chunk_le ht hsize.symm hsmall hdone
      rw [if_pos hsmall, ← hunits] at hresult
      rw [← hunits] at hsmall
      exact Or.inl ⟨hcomplete, hsmall, hresult⟩
    · have hlong := Nat.lt_of_not_le hsmall
      have hunits : units = kind.units size text ++ _ := Kind.units_chunk hle
      -- The chunk alone is too large, so there is a file whatever comes after it.
      refine Or.inr (Or.inr ⟨?_, ⟨_, _, _, rfl, hlong⟩, ?_⟩)
      · rw [hunits, List.length_append]
        omega
      rw [if_neg hsmall] at hresult
      cases halloc : db.allocate w with
      | error e w₁ =>
        refine Or.inl ⟨e, w₁, rfl, ?_⟩
        rw [hresult]
        unfold createInFile Database.openTemp
        rw [Step.bind_error (Step.bind_error halloc)]
      | ok id w₁ =>
        refine Or.inr ⟨id, w₁, rfl, fun hp => ?_⟩
        rw [hresult]
        exact createInFile_chunk halloc hle hkind hi hp
  · simp only [hrun] at hresult
    exact Or.inr (Or.inl ⟨(Kind.not_complete_of_chunk kind text ending hle hfail).2.2, e, hresult,
      hcause⟩)

/-- What can come of making a value with any threshold: a value without a file, which holds units that
the text starts with, a failure before there is a file, or what comes of writing one. -/
theorem create_outcome (db : Database) (kind : Kind) {source : Source σ} {w : World σ}
    (hsource : source.Supplies p w.store text ending) (declared : Option Nat) :
    let units := kind.units (declared.getD unlimited) text
    let complete := kind.Complete (declared.getD unlimited) text ending
    let result := create db kind source declared w
    (∃ m, result = .ok { kind, precision := (kind.units m text).length,
                         content := .inline (kind.units m text).flatten none } w) ∨
    (∃ e, result = .error e w) ∨
    NeedsFile db kind source declared w ∧
      ((∃ e w₁, db.allocate w = .error e w₁ ∧ result = .error e w₁) ∨
        ∃ id w₁, db.allocate w = .ok id w₁ ∧
          (p ≠ (db.naming.path db.layout .temp id).components →
            InFile db kind units complete ending w w₁ id result)) := by
  intro units complete result
  rcases Nat.lt_or_ge db.settings.inlineThreshold ChunkSize.limit with hlt | hge
  · rcases create_eq db kind hsource hlt declared with
      ⟨-, -, hresult⟩ | ⟨-, e, hresult, -⟩ | ⟨-, hfile⟩
    · exact Or.inl ⟨_, hresult⟩
    · exact Or.inr (Or.inl ⟨e, hresult⟩)
    · exact Or.inr (Or.inr hfile)
  · rcases create_of_limit_le db kind hsource hge declared with ⟨-, hresult⟩ | ⟨-, herror⟩
    · exact Or.inl ⟨_, hresult⟩
    · exact Or.inr (Or.inl herror)

end Value

end LargeObjects
