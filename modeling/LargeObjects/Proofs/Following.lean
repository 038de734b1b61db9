import Mathlib
import LargeObjects.Value.Creation
import LargeObjects.Proofs.Effects
import LargeObjects.Proofs.Intakes

/-! Content that goes through a store whose calls may fail. Where it goes through, it goes the same
way beneath. Taking content in changes nothing, and putting it out changes only the file that is
being written. -/
namespace LargeObjects

open FallibleStore

namespace Step

variable {ε T T' α β γ δ : Type} {R : T → T → Prop} {view : T → T'} {give : α → β}

/-- An outcome that leads where `R` says. If it is a success, the other outcome is the same one as
`view` and `give` show it. -/
def Echoes (R : T → T → Prop) (view : T → T') (give : α → β) (t : T) :
    EStateM.Result ε T α → EStateM.Result ε T' β → Prop
  | .ok a t', r => R t t' ∧ r = .ok (give a) (view t')
  | .error _ t', _ => R t t'

def Follows (R : T → T → Prop) (view : T → T') (give : α → β) (x : Step ε T α) (y : Step ε T' β) :
    Prop := ∀ t, Echoes R view give t (x t) (y (view t))

variable {x : Step ε T α} {y : Step ε T' β}

theorem Follows.ok (h : Follows R view give x y) {t t' : T} {a : α} (hx : x t = .ok a t') :
    R t t' ∧ y (view t) = .ok (give a) (view t') := by
  have ht := h t
  rw [hx] at ht
  exact ht

theorem Follows.error (h : Follows R view give x y) {t t' : T} {e : ε} (hx : x t = .error e t') :
    R t t' := by
  have ht := h t
  rw [hx] at ht
  exact ht

theorem Follows.mono {R' : T → T → Prop} (h : Follows R view give x y)
    (hsub : ∀ {t t'}, R t t' → R' t t') : Follows R' view give x y := by
  intro t
  cases hx : x t with
  | ok a t' =>
    obtain ⟨hgoes, hy⟩ := h.ok hx
    exact ⟨hsub hgoes, hy⟩
  | error e t' => exact hsub (h.error hx)

theorem Follows.pure (hrefl : ∀ t, R t t) (a : α) :
    Follows (ε := ε) R view give (pure a) (pure (give a)) :=
  fun t => ⟨hrefl t, rfl⟩

/-- Steps that follow one another echo beneath, one part after the other. -/
theorem Follows.bind {give' : γ → δ} (h : Follows R view give x y)
    (htrans : ∀ {t t' t''}, R t t' → R t' t'' → R t t'') {f : α → Step ε T γ} {g : β → Step ε T' δ}
    (hrest : ∀ a, Follows R view give' (f a) (g (give a))) :
    Follows R view give' (x >>= f) (y >>= g) := by
  intro t
  cases hx : x t with
  | error e t' =>
    rw [bind_error hx]
    exact h.error hx
  | ok a t' =>
    obtain ⟨hgoes, hy⟩ := h.ok hx
    rw [bind_ok hx, bind_ok hy]
    cases hf : f a t' with
    | error e t'' => exact htrans hgoes ((hrest a).error hf)
    | ok c t'' =>
      obtain ⟨hgoes', hg⟩ := (hrest a).ok hf
      exact ⟨htrans hgoes hgoes', hg⟩

end Step

open Step

variable {σ : Type} [FileStore σ] [FallibleStore σ]

namespace FallibleStore

/-- A call that succeeds as it does beneath. -/
theorem follows_call {ε α β : Type} {x : Step ε σ α} {y : Step ε (Base σ) β} {give : α → β}
    (r : Request σ) (hrun : ∀ s, r.run s = Step.after x s)
    (hok : ∀ {s s' a}, x s = .ok a s' → y (below s) = .ok (give a) (below s')) :
    Follows (Near (r.places target)) below give x y := by
  intro s
  have hnear := Near.run r (hrun s)
  cases hx : x s with
  | ok a s' =>
    rw [after_ok hx] at hnear
    exact ⟨hnear, hok hx⟩
  | error e s' =>
    rw [after_error hx] at hnear
    exact hnear

/-- A call that is about no place leaves every file as it is, and echoes what it found. -/
theorem follows_look {ε α β : Type} {x : Step ε σ α} {y : Step ε (Base σ) β} {give : α → β}
    (r : Request σ) (hnone : r.places target = []) (hrun : ∀ s, r.run s = Step.after x s)
    (hok : ∀ {s s' a}, x s = .ok a s' → y (below s) = .ok (give a) (below s')) :
    Follows Looked below give x y := by
  intro s
  have hlooked := Looked.run r (hrun s) hnone
  cases hx : x s with
  | ok a s' =>
    rw [after_ok hx] at hlooked
    exact ⟨hlooked, hok hx⟩
  | error e s' =>
    rw [after_error hx] at hlooked
    exact hlooked

def Reads {A : Type} (t t' : A × σ) : Prop := Looked t.2 t'.2

theorem Reads.trans {A : Type} {t t' t'' : A × σ} (h : Reads t t') (h' : Reads t' t'') :
    Reads t t'' := Looked.trans h h'

theorem follows_read (limit : Nat) : Follows Reads (fun t : FileStore.Reader σ × σ =>
    (reader t.1, below t.2)) id (FileStore.read limit) (FileStore.read limit) := by
  rintro ⟨r, s⟩
  have hlooked := Looked.run (.read r limit) (s := s) rfl rfl
  simp only [Request.run] at hlooked
  cases hx : FileStore.read limit (r, s) with
  | ok bytes t =>
    rw [after_ok hx] at hlooked
    exact ⟨hlooked, FallibleStore.read_ok hx⟩
  | error e t =>
    rw [after_error hx] at hlooked
    exact hlooked

end FallibleStore

variable [Codec]

def ContentReader.below : ContentReader σ → ContentReader (Base σ)
  | inline rest => inline rest
  | plain r => plain (reader r)
  | framed r decoding ready => framed (reader r) decoding ready

namespace ContentReader

def view (t : ContentReader σ × σ) : ContentReader (Base σ) × Base σ := (t.1.below, FallibleStore.below t.2)

theorem follows_start (r : FileStore.Reader σ) (compressed : Bool) :
    Follows Looked FallibleStore.below below (start r compressed) (start (reader r) compressed) := by
  intro s
  unfold start
  by_cases hplain : (!compressed) = true
  · rw [if_pos hplain, if_pos hplain]
    exact ⟨.refl s, rfl⟩
  rw [if_neg hplain, if_neg hplain]
  rcases hread : FileStore.read 1 (r, s) with ⟨_ | ⟨tag, rest⟩, r', s'⟩ | ⟨e, r', s'⟩
  · exact ((follows_read 1).ok hread).1
  · obtain ⟨hlooked, hbase⟩ := (follows_read 1).ok hread
    simp only [id] at hbase
    dsimp only
    rw [hbase]
    dsimp only
    split
    · cases hnew : Codec.newDecoder with
      | ok decoder => exact ⟨hlooked, rfl⟩
      | error e => exact hlooked
    · exact hlooked
  · exact (follows_read 1).error hread

/-- Fetching and decoding from a file gives beneath what it gives above, however often it is tried. -/
theorem follows_refill (limit fuel : Nat) (r : FileStore.Reader σ) (d : Decoding) :
    Follows Reads view id (refill r d limit fuel) (refill (reader r) d limit fuel) := by
  induction fuel generalizing r d with
  | zero => exact fun t => ⟨.refl t.2, rfl⟩
  | succ fuel ih =>
    rintro ⟨c, s⟩
    simp only [refill, view]
    split
    next => exact ⟨.refl s, rfl⟩
    next => exact Looked.refl s
    next decoder =>
      rcases hread : FileStore.read Codec.fetchSize (r, s) with ⟨fetched, r', s'⟩ | ⟨e, r', s'⟩
      · obtain ⟨hlooked, hbase⟩ := (follows_read Codec.fetchSize).ok hread
        simp only [id] at hbase
        rw [hbase]
        -- What comes after a fetch starts from what the fetch has left.
        have hrest : ∀ d : Decoding, Echoes Reads view id (c, s)
            (refill r' d limit fuel (framed r' d [], s'))
            (refill (reader r') d limit fuel (framed (reader r') d [], FallibleStore.below s')) := by
          intro d
          have hstart : Looked s s' := hlooked
          have hgo := ih r' d (framed r' d [], s')
          cases hrefill : refill r' d limit fuel (framed r' d [], s') with
          | ok bytes t =>
            rw [hrefill] at hgo
            exact ⟨hstart.trans hgo.1, hgo.2⟩
          | error e t =>
            rw [hrefill] at hgo
            exact hstart.trans hgo
        cases fetched with
        | nil => exact hrest (Decoding.live decoder).close
        | cons b rest =>
          dsimp only
          rcases (Decoding.live decoder).feed (b :: rest) with ⟨_ | ⟨first, ready⟩, further⟩
          · exact hrest further
          · exact ⟨hlooked, rfl⟩
      · exact (follows_read Codec.fetchSize).error hread

theorem follows_read (limit : Nat) : Follows Reads view id (read (σ := σ) limit) (read limit) := by
  rintro ⟨c, s⟩
  cases c with
  | inline rest => exact ⟨.refl s, rfl⟩
  | plain r =>
    have h := FallibleStore.follows_read (σ := σ) limit
    simp only [read, view, below]
    rcases hread : FileStore.read limit (r, s) with ⟨bytes, r', s'⟩ | ⟨e, r', s'⟩
    · obtain ⟨hlooked, hbase⟩ := h.ok hread
      simp only [id] at hbase
      rw [hbase]
      exact ⟨hlooked, rfl⟩
    · exact h.error hread
  | framed r decoding ready =>
    cases ready with
    | nil =>
      have h := follows_refill limit (FileStore.unread r s + 2) r decoding (framed r decoding [], s)
      simp only [read, view, below]
      rwa [← unread_eq]
    | cons first ready => exact ⟨.refl s, rfl⟩

end ContentReader

namespace Gathering

omit [Codec] in
/-- Gathering asks one reading after the other. -/
theorem follows_fill {ε T T' : Type} {R : T → T → Prop} {view : T → T'} {read : Nat → Step ε T Bytes}
    {read' : Nat → Step ε T' Bytes} (hrefl : ∀ t, R t t)
    (htrans : ∀ {t t' t''}, R t t' → R t' t'' → R t t'')
    (h : ∀ limit, Follows R view id (read limit) (read' limit)) (fuel : Nat) (limit : Option Nat)
    (g : Gathering) : Follows R view id (fill read fuel limit g) (fill read' fuel limit g) := by
  induction fuel generalizing limit g with
  | zero => exact Follows.pure hrefl g
  | succ fuel ih =>
    rw [show fill read (fuel + 1) limit g = _ from fill_succ fuel limit g,
      show fill read' (fuel + 1) limit g = _ from fill_succ fuel limit g]
    split
    · exact Follows.pure hrefl _
    · apply Follows.bind (h _) htrans
      intro piece
      simp only [id]
      split
      · exact Follows.pure hrefl _
      · exact ih _ _

end Gathering

def Source.below : Source σ → Source (Base σ)
  | stored r => stored r.below
  | planned deliveries => planned deliveries

/-- A source gives beneath what it gives above. -/
theorem Source.follows_fetch (limit : Nat) :
    Follows Reads (fun t : Source σ × σ => (t.1.below, FallibleStore.below t.2)) id
      (fetch limit) (fetch limit) := by
  rintro ⟨source, s⟩
  cases source with
  | stored r =>
    have h := ContentReader.follows_read (σ := σ) limit
    simp only [fetch, below]
    rcases hread : ContentReader.read limit (r, s) with ⟨bytes, r', s'⟩ | ⟨e, r', s'⟩
    · obtain ⟨hlooked, hbase⟩ := h.ok hread
      simp only [id, ContentReader.view] at hbase
      rw [hbase]
      exact ⟨hlooked, rfl⟩
    · exact h.error hread
  | planned deliveries =>
    simp only [fetch, below]
    rcases fetchPlanned limit deliveries with ⟨_ | bytes, rest⟩
    · exact Looked.refl s
    · exact ⟨.refl s, rfl⟩

def Intake.below (intake : Intake σ) : Intake (Base σ) :=
  { kind := intake.kind, source := intake.source.below, pending := intake.pending,
    capacity := intake.capacity }

namespace Intake

def view (t : Intake σ × σ) : Intake (Base σ) × Base σ := (t.1.below, FallibleStore.below t.2)

theorem follows_fetch (limit : Nat) : Follows Reads view id (fetch (σ := σ) limit) (fetch limit) := by
  rintro ⟨intake, s⟩
  have h := Source.follows_fetch (σ := σ) limit
  simp only [fetch, view, below]
  rcases hfetch : Source.fetch limit (intake.source, s) with ⟨bytes, source, s'⟩ | ⟨e, source, s'⟩
  · obtain ⟨hlooked, hbase⟩ := h.ok hfetch
    simp only [id] at hbase
    rw [hbase]
    exact ⟨hlooked, rfl⟩
  · exact h.error hfetch

theorem follows_takeOctets (wanted : Nat) :
    Follows Reads view id (takeOctets (σ := σ) wanted) (takeOctets wanted) := by
  rintro ⟨intake, s⟩
  have hrefl : ∀ t : Intake σ × σ, Reads t t := fun t => Looked.refl t.2
  have hfill := Gathering.follows_fill hrefl
    Reads.trans (follows_fetch (σ := σ)) (wanted + 1) (some wanted) (.ofCapacity intake.capacity)
  have hbelow : (view (intake, s)).1.capacity = intake.capacity := rfl
  simp only [takeOctets, bind, EStateM.bind, get, getThe, MonadStateOf.get, EStateM.get, hbelow]
  rcases hrun : Gathering.fill fetch (wanted + 1) (some wanted) (.ofCapacity intake.capacity)
      (intake, s) with ⟨gathered, intake', s'⟩ | ⟨e, intake', s'⟩
  · obtain ⟨hlooked, hbase⟩ := hfill.ok hrun
    rw [hbase]
    exact ⟨hlooked, rfl⟩
  · exact hfill.error hrun

/-- Characters are put together from the same octets. -/
theorem follows_takeText (wanted : Nat) (taken : Bytes) (count fuel : Nat) :
    Follows Reads view id (takeText (σ := σ) wanted taken count fuel)
      (takeText wanted taken count fuel) := by
  induction fuel generalizing wanted taken count with
  | zero => exact fun t => ⟨.refl t.2, rfl⟩
  | succ fuel ih =>
    rintro ⟨intake, s⟩
    rw [takeText_succ, show view (intake, s) = (intake.below, FallibleStore.below s) from rfl,
      takeText_succ]
    have hpending : intake.below.pending = intake.pending := rfl
    rw [hpending]
    cases Utf8.takeCharacters wanted intake.pending taken 0 with
    | none => exact Looked.refl s
    | some result =>
      obtain ⟨taken, more, pending⟩ := result
      dsimp only
      split
      · exact ⟨.refl s, rfl⟩
      rcases hfetch : fetch fetchSize (({ intake with pending } : Intake σ), s) with
        ⟨fetched, intake', s'⟩ | ⟨e, intake', s'⟩
      · obtain ⟨hlooked, hbase⟩ := (follows_fetch fetchSize).ok hfetch
        rw [show (fetch fetchSize ({ intake.below with pending }, FallibleStore.below s) : _) = _
          from hbase]
        dsimp only [id, view]
        split
        · split
          · exact ⟨hlooked, rfl⟩
          · exact hlooked
        · have hstart : Looked s s' := hlooked
          have hgo := ih (wanted - more) taken (count + more)
            ({ intake' with pending := intake'.pending ++ fetched }, s')
          cases hrest : takeText (wanted - more) taken (count + more) fuel
              (({ intake' with pending := intake'.pending ++ fetched } : Intake σ), s') with
          | ok result t =>
            rw [hrest] at hgo
            exact ⟨hstart.trans hgo.1, hgo.2⟩
          | error e t =>
            rw [hrest] at hgo
            exact hstart.trans hgo
      · have hlooked := (follows_fetch fetchSize).error hfetch
        exact hlooked

/-- So an intake gives the same units. -/
theorem follows_take (units : Nat) : Follows Reads view id (take (σ := σ) units) (take units) := by
  rintro ⟨intake, s⟩
  simp only [take, view, show intake.below.kind = intake.kind from rfl]
  cases intake.kind with
  | binary => exact follows_takeOctets units (intake, s)
  | character => exact follows_takeText units [] 0 _ (intake, s)

end Intake

def Sink.below : Sink σ → Sink (Base σ)
  | plain w => plain (FallibleStore.writer w)
  | framed w encoder ready => framed (FallibleStore.writer w) encoder ready

namespace Sink

def view (t : Sink σ × σ) : Sink (Base σ) × Base σ := (t.1.below, FallibleStore.below t.2)

structure Writes (t t' : Sink σ × σ) : Prop where
  writer_eq : t'.1.writer = t.1.writer
  near : Near [target t.1.writer] t.2 t'.2

theorem Writes.trans {t t' t'' : Sink σ × σ} (h : Writes t t') (h' : Writes t' t'') : Writes t t'' := by
  refine ⟨h'.writer_eq.trans h.writer_eq, h.near.trans ?_⟩
  have hnear := h'.near
  rwa [h.writer_eq] at hnear

omit [Codec] in
/-- Writing concerns the file that the writer was opened for. -/
theorem follows_writeAll (w : FileStore.Writer σ) (bytes : Bytes) :
    Follows (Near [target w]) FallibleStore.below id (writeAll w bytes)
      (writeAll (FallibleStore.writer w) bytes) := by
  unfold writeAll
  split
  · exact Follows.pure (Near.refl _) ()
  · exact follows_call (.write w bytes) (fun _ => rfl) FallibleStore.write_ok

omit [Codec] in
theorem follows_flush (w : FileStore.Writer σ) :
    Follows (Near [target w]) FallibleStore.below id (FileStore.flush w)
      (FileStore.flush (FallibleStore.writer w)) :=
  follows_call (.flush w) (fun _ => rfl) FallibleStore.flush_ok

theorem follows_start (w : FileStore.Writer σ) (compression : Option Algorithm) :
    Follows (Near [target w]) FallibleStore.below below (start w compression)
      (start (FallibleStore.writer w) compression) := by
  intro s
  cases compression with
  | none => exact ⟨.refl _ s, rfl⟩
  | some a =>
    obtain ⟨level⟩ := a
    simp only [start]
    cases hrun : writeAll w [(Algorithm.zstd level).tag] s with
    | ok u s' =>
      obtain ⟨hnear, hbase⟩ := (follows_writeAll w _).ok hrun
      rw [hbase]
      dsimp only
      cases Codec.newEncoder level with
      | ok encoder => exact ⟨hnear, rfl⟩
      | error e => exact hnear
    | error e s' => exact (follows_writeAll w _).error hrun

omit [FallibleStore σ] in
theorem writer_start {w : FileStore.Writer σ} {compression : Option Algorithm} {sink : Sink σ}
    {s s' : σ} (h : start w compression s = .ok sink s') : sink.writer = w := by
  cases compression with
  | none => cases h; rfl
  | some a =>
    obtain ⟨level⟩ := a
    simp only [start] at h
    split at h
    next => cases h
    next =>
      split at h
      next => cases h; rfl
      next => cases h

theorem follows_write (content : Bytes) :
    Follows Writes view id (write (σ := σ) content) (write content) := by
  rintro ⟨sink, s⟩
  cases sink with
  | plain w =>
    simp only [write, view, below]
    cases hrun : writeAll w content s with
    | ok u s' =>
      obtain ⟨hnear, hbase⟩ := (follows_writeAll w _).ok hrun
      rw [hbase]
      exact ⟨⟨rfl, hnear⟩, rfl⟩
    | error e s' => exact ⟨rfl, (follows_writeAll w _).error hrun⟩
  | framed w encoder ready =>
    simp only [write, view, below]
    split
    · exact ⟨⟨rfl, .refl _ s⟩, rfl⟩
    cases hrun : writeAll w ready s with
    | ok u s' =>
      obtain ⟨hnear, hbase⟩ := (follows_writeAll w _).ok hrun
      rw [hbase]
      dsimp only
      cases Codec.absorb encoder content with
      | ok result => exact ⟨⟨rfl, hnear⟩, rfl⟩
      | error e => exact ⟨rfl, hnear⟩
    | error e s' => exact ⟨rfl, (follows_writeAll w _).error hrun⟩

theorem follows_finish : Follows Writes view id (finish (σ := σ)) finish := by
  rintro ⟨sink, s⟩
  cases sink with
  | plain w =>
    simp only [finish, view, below, writer]
    cases hrun : FileStore.flush w s with
    | ok u s' =>
      obtain ⟨hnear, hbase⟩ := (follows_flush w).ok hrun
      rw [hbase]
      exact ⟨⟨rfl, hnear⟩, rfl⟩
    | error e s' => exact ⟨rfl, (follows_flush w).error hrun⟩
  | framed w encoder ready =>
    simp only [finish, view, below, writer]
    cases hready : writeAll w ready s with
    | error e s₁ => exact ⟨rfl, (follows_writeAll w _).error hready⟩
    | ok u s₁ =>
      obtain ⟨hnear₁, hbase₁⟩ := (follows_writeAll w _).ok hready
      rw [hbase₁]
      dsimp only
      -- A codec that fails does so on both sides.
      rcases Codec.finish encoder with e | octets
      · exact ⟨rfl, hnear₁⟩
      dsimp only
      cases hfinal : writeAll w octets s₁ with
      | error e s₂ => exact ⟨rfl, hnear₁.trans ((follows_writeAll w _).error hfinal)⟩
      | ok u s₂ =>
        obtain ⟨hnear₂, hbase₂⟩ := (follows_writeAll w _).ok hfinal
        rw [hbase₂]
        dsimp only
        cases hflush : FileStore.flush w s₂ with
        | ok u s₃ =>
          obtain ⟨hnear₃, hbase₃⟩ := (follows_flush w).ok hflush
          rw [hbase₃]
          exact ⟨⟨rfl, hnear₁.trans (hnear₂.trans hnear₃)⟩, rfl⟩
        | error e s₃ => exact ⟨rfl, hnear₁.trans (hnear₂.trans ((follows_flush w).error hflush))⟩

end Sink

namespace Value

def pourView (t : Intake σ × Sink σ × σ) : Intake (Base σ) × Sink (Base σ) × Base σ :=
  (t.1.below, t.2.1.below, FallibleStore.below t.2.2)

def Pours (t t' : Intake σ × Sink σ × σ) : Prop := Sink.Writes t.2 t'.2

/-- Chunks that go through above go through beneath, and no other file changes meanwhile. -/
theorem follows_pour (threshold : Nat) (framed : Bool) (fuel remaining total : Nat) :
    Follows Pours pourView id (pour (σ := σ) threshold framed fuel remaining total)
      (pour threshold framed fuel remaining total) := by
  induction fuel generalizing remaining total with
  | zero => exact fun t => ⟨⟨rfl, .refl _ _⟩, rfl⟩
  | succ fuel ih =>
    rintro ⟨intake, sink, s⟩
    simp only [pour, pourView]
    split
    · exact ⟨⟨rfl, .refl _ s⟩, rfl⟩
    rcases htake : Intake.take (ChunkSize.next remaining threshold framed) (intake, s) with
      ⟨⟨chunk, count⟩, intake', s₁⟩ | ⟨e, intake', s₁⟩
    · obtain ⟨hlooked, hbase⟩ := (Intake.follows_take _).ok htake
      have htaken : Sink.Writes (sink, s) (sink, s₁) := ⟨rfl, Looked.near hlooked _⟩
      simp only [id, Intake.view] at hbase
      rw [hbase]
      dsimp only
      split
      · exact ⟨htaken, rfl⟩
      rcases hwrite : Sink.write chunk (sink, s₁) with ⟨u, sink', s₂⟩ | ⟨e, sink', s₂⟩
      · obtain ⟨hwrites, hbase'⟩ := (Sink.follows_write chunk).ok hwrite
        simp only [id, Sink.view] at hbase'
        rw [hbase']
        dsimp only
        have hgo := ih (remaining - count) (total + count) (intake', sink', s₂)
        cases hrest : pour threshold framed fuel (remaining - count) (total + count)
            (intake', sink', s₂) with
        | ok moved t =>
          rw [hrest] at hgo
          exact ⟨htaken.trans (hwrites.trans hgo.1), hgo.2⟩
        | error e t =>
          rw [hrest] at hgo
          exact htaken.trans (hwrites.trans hgo)
      · exact htaken.trans ((Sink.follows_write chunk).error hwrite)
    · have hlooked := (Intake.follows_take _).error htake
      exact ⟨rfl, Looked.near hlooked _⟩

/-- A file that is filled above is filled beneath with the same content. -/
theorem follows_fillFile (settings : Settings) (w : FileStore.Writer σ) (first : Bytes)
    (remaining : Nat) (intake : Intake σ) :
    Follows (Near [target w]) FallibleStore.below id (fillFile settings w first remaining intake)
      (fillFile settings (FallibleStore.writer w) first remaining intake.below) := by
  intro s
  simp only [fillFile, Intake.below]
  cases hstart : Sink.start w (settings.compressionFor intake.kind) s with
  | error e s₁ => exact (Sink.follows_start w _).error hstart
  | ok sink s₁ =>
    obtain ⟨hnear₁, hbase₁⟩ := (Sink.follows_start w _).ok hstart
    obtain rfl := Sink.writer_start hstart
    rw [hbase₁]
    dsimp only
    rcases hwrite : Sink.write first (sink, s₁) with ⟨u, sink', s₂⟩ | ⟨e, sink', s₂⟩
    · obtain ⟨hwrites₂, hbase₂⟩ := (Sink.follows_write first).ok hwrite
      simp only [id, Sink.view] at hbase₂
      rw [hbase₂]
      dsimp only
      rcases hpour : pour settings.inlineThreshold (settings.compressionFor intake.kind).isSome
          remaining remaining 0 (({ intake with capacity := 0 } : Intake σ), sink', s₂) with
        ⟨total, intake', sink'', s₃⟩ | ⟨e, intake', sink'', s₃⟩
      · obtain ⟨hpours₃, hbase₃⟩ := (follows_pour _ _ _ _ _).ok hpour
        have hwrites₃ : Sink.Writes (sink, s₁) (sink'', s₃) := hwrites₂.trans hpours₃
        simp only [pourView, Intake.below, id] at hbase₃
        rw [hbase₃]
        dsimp only
        rcases hfinish : Sink.finish (sink'', s₃) with ⟨u, sink₄, s₄⟩ | ⟨e, sink₄, s₄⟩
        · obtain ⟨hwrites₄, hbase₄⟩ := Sink.follows_finish.ok hfinish
          simp only [id, Sink.view] at hbase₄
          rw [hbase₄]
          exact ⟨hnear₁.trans (hwrites₃.trans hwrites₄).near, rfl⟩
        · exact hnear₁.trans (hwrites₃.trans (Sink.follows_finish.error hfinish)).near
      · exact hnear₁.trans (hwrites₂.trans ((follows_pour _ _ _ _ _).error hpour)).near
    · exact hnear₁.trans ((Sink.follows_write first).error hwrite).near

end Value

end LargeObjects
