import Mathlib
import LargeObjects.Value.Content
import LargeObjects.Proofs.Following

/-! What reading and writing leave as it is. In a quiet store nothing comes of taking content in, and of
putting it out no more than its writer does, whether or not it fails. -/
namespace LargeObjects

open Step

/-- What no request changes is not changed by filling a buffer. -/
theorem Gathering.preserves_fill {ε τ : Type} {P : τ → Prop} {read : Nat → Step ε τ Bytes}
    (hread : ∀ limit, Preserves P (read limit)) (fuel : Nat) (limit : Option Nat) (g : Gathering) :
    Preserves P (fill read fuel limit g) := by
  induction fuel generalizing limit g with
  | zero => exact preserves_pure g
  | succ fuel ih =>
    rw [show fill read (fuel + 1) limit g = _ from fill_succ fuel limit g]
    split
    · exact preserves_pure _
    · refine (hread _).bind fun piece => ?_
      split
      · exact preserves_pure _
      · exact ih _ _

variable [Codec] {σ : Type} [FileStore σ]

section Reading

variable [QuietStore σ] (P : σ → Prop)

omit [Codec] in
/-- What holds of a store that looking at leaves as it is, holds after reading. -/
theorem QuietStore.preserves_read (limit : Nat) :
    Preserves (fun t : FileStore.Reader σ × σ => P t.2) (FileStore.read limit) := by
  intro t ht
  rwa [endsIn_iff, QuietStore.read_keeps]

namespace ContentReader

theorem preserves_start (r : FileStore.Reader σ) (compressed : Bool) :
    Preserves P (start r compressed) := by
  intro s hs
  have hread := QuietStore.preserves_read P 1
  unfold start
  split
  · exact .ok hs
  split
  next hrun => exact .error (hread.error (s := (r, s)) hs hrun)
  next hrun => exact .error (hread.ok (s := (r, s)) hs hrun)
  next hrun =>
    split
    · split
      · exact .ok (hread.ok (s := (r, s)) hs hrun)
      · exact .error (hread.ok (s := (r, s)) hs hrun)
    · exact .error (hread.ok (s := (r, s)) hs hrun)

/-- Fetching and decoding are reading, as often as it takes. -/
theorem preserves_refill (limit fuel : Nat) (r : FileStore.Reader σ) (d : Decoding) :
    Preserves (fun t : ContentReader σ × σ => P t.2) (refill r d limit fuel) := by
  induction fuel generalizing r d with
  | zero => exact preserves_pure _
  | succ fuel ih =>
    rintro ⟨c, s⟩ hs
    have hread := QuietStore.preserves_read P Codec.fetchSize
    rw [refill]
    split
    · exact .ok hs
    · exact .error hs
    dsimp only
    split
    next hrun => exact .error (hread.error (s := (r, s)) hs hrun)
    next hrun => exact ih _ _ _ (hread.ok (s := (r, s)) hs hrun)
    next hrun =>
      split
      · exact ih _ _ _ (hread.ok (s := (r, s)) hs hrun)
      · exact .ok (hread.ok (s := (r, s)) hs hrun)

theorem preserves_read (limit : Nat) :
    Preserves (fun t : ContentReader σ × σ => P t.2) (read limit) := by
  rintro ⟨c, s⟩ hs
  unfold read
  dsimp only
  split
  next => exact .ok hs
  next r =>
    have hread := QuietStore.preserves_read P limit
    split
    next hrun => exact .ok (hread.ok (s := (r, s)) hs hrun)
    next hrun => exact .error (hread.error (s := (r, s)) hs hrun)
  next r d => exact preserves_refill P limit _ r d _ hs
  next => exact .ok hs

theorem preserves_readAll (capacity : Nat) :
    Preserves (fun t : ContentReader σ × σ => P t.2) (readAll capacity) := by
  rintro ⟨c, s⟩ hs
  have hfill := Gathering.preserves_fill (preserves_read P) (c.unread s + 1) none (.ofCapacity capacity)
  exact hfill.bind (fun _ => preserves_pure _) (c, s) hs

end ContentReader

/-- What comes from a source comes without a change. -/
theorem Source.preserves_fetch (limit : Nat) :
    Preserves (fun t : Source σ × σ => P t.2) (fetch limit) := by
  rintro ⟨source, s⟩ hs
  unfold fetch
  dsimp only
  split
  next r =>
    have hread := ContentReader.preserves_read P limit
    split
    next hrun => exact .ok (hread.ok (s := (r, s)) hs hrun)
    next hrun => exact .error (hread.error (s := (r, s)) hs hrun)
  next =>
    split
    · exact .ok hs
    · exact .error hs

namespace Intake

theorem preserves_fetch (limit : Nat) :
    Preserves (fun t : Intake σ × σ => P t.2) (fetch limit) := by
  rintro ⟨intake, s⟩ hs
  have hfetch := Source.preserves_fetch P limit
  unfold fetch
  dsimp only
  split
  next hrun => exact .ok (hfetch.ok (s := (intake.source, s)) hs hrun)
  next hrun => exact .error (hfetch.error (s := (intake.source, s)) hs hrun)

theorem preserves_takeOctets (wanted : Nat) :
    Preserves (fun t : Intake σ × σ => P t.2) (takeOctets wanted) := by
  have hget : Preserves (ε := ObjectError) (fun t : Intake σ × σ => P t.2) get := fun _ ht => .ok ht
  refine hget.bind fun t => ?_
  refine (Gathering.preserves_fill (preserves_fetch P) _ _ _).bind fun gathered => ?_
  exact fun t ht => .ok ht

theorem preserves_takeText (wanted : Nat) (taken : Bytes) (count fuel : Nat) :
    Preserves (fun t : Intake σ × σ => P t.2) (takeText wanted taken count fuel) := by
  induction fuel generalizing wanted taken count with
  | zero => exact preserves_pure _
  | succ fuel ih =>
    rintro ⟨intake, s⟩ hs
    rw [takeText_succ]
    split
    · exact .error hs
    next taken more pending _ =>
      have hfetch := preserves_fetch P fetchSize
      split
      · exact .ok hs
      split
      next hrun => exact .error (hfetch.error (s := ({ intake with pending }, s)) hs hrun)
      next hrun =>
        have hs₁ := hfetch.ok (s := ({ intake with pending }, s)) hs hrun
        split
        · split
          · exact .ok hs₁
          · exact .error hs₁
        · exact ih _ _ _ _ hs₁

/-- Taking in units reads and does nothing else. -/
theorem preserves_take (units : Nat) : Preserves (fun t : Intake σ × σ => P t.2) (take units) := by
  rintro ⟨intake, s⟩ hs
  unfold take
  dsimp only
  cases intake.kind with
  | binary => exact preserves_takeOctets P units _ hs
  | character => exact preserves_takeText P units [] 0 _ _ hs

end Intake

namespace Value

variable (R : World σ → Prop)

omit [Codec] [FileStore σ] [QuietStore σ] in
theorem preserves_livePath (k : HandleId) : Preserves R (World.livePath k) := by
  intro w hw
  cases hretired : (w.handle k).retired with
  | false =>
    rw [World.livePath_ok hretired]
    exact .ok hw
  | true =>
    rw [World.livePath_error hretired]
    exact .error hw

omit [Codec] [FileStore σ] [QuietStore σ] in
theorem preserves_look {α : Type} {act : Step StoreError σ α}
    (h : ∀ s, Preserves (· = s) act) : Preserves R (World.onStore act) := by
  intro w hw
  have hkept := h w.store
  unfold World.onStore
  split
  next hrun =>
    rw [hkept.ok rfl hrun]
    exact .ok hw
  next hrun =>
    rw [hkept.error rfl hrun]
    exact .error hw

/-- Opening content changes nothing. -/
theorem preserves_reader (v : Value) : Preserves R v.reader := by
  unfold reader
  split
  · exact preserves_pure _
  · refine (preserves_livePath R _).bind fun path => ?_
    refine (preserves_look R fun s => ?_).bind fun r => ?_
    · rintro _ rfl
      exact endsIn_iff.2 (QuietStore.openRead_keeps path _)
    · exact preserves_look R fun s => ContentReader.preserves_start (· = s) r _

/-- Reading it does not, either. -/
theorem preserves_readBytes (v : Value) : Preserves R v.readBytes := by
  unfold readBytes
  split
  · exact preserves_pure _
  refine (preserves_reader R v).bind fun c w hw => ?_
  have hall := ContentReader.preserves_readAll (· = w.store) (min v.precision roomLimit)
  unfold readAll
  split
  next hrun =>
    obtain rfl := hall.ok (s := (c, w.store)) rfl hrun
    exact .ok hw
  next hrun =>
    obtain rfl := hall.error (s := (c, w.store)) rfl hrun
    exact .error hw

end Value

end Reading

section Writing

variable {P : σ → Prop} {w : FileStore.Writer σ}

structure Endures (P : σ → Prop) (w : FileStore.Writer σ) : Prop where
  write (bytes : Bytes) : Preserves P (FileStore.write w bytes)
  flush : Preserves P (FileStore.flush w)

namespace Sink

omit [Codec] in
theorem preserves_writeAll (h : Endures P w) (bytes : Bytes) : Preserves P (writeAll w bytes) := by
  unfold writeAll
  split
  · exact preserves_pure _
  · exact h.write bytes

theorem preserves_start (h : Endures P w) (compression : Option Algorithm) :
    Preserves P (start w compression) := by
  intro s hs
  cases compression with
  | none => exact .ok hs
  | some a =>
    obtain ⟨level⟩ := a
    have hwrite := preserves_writeAll h [(Algorithm.zstd level).tag]
    unfold start
    dsimp only
    split
    next hrun => exact .error (hwrite.error hs hrun)
    next hrun =>
      split
      · exact .ok (hwrite.ok hs hrun)
      · exact .error (hwrite.ok hs hrun)

def Over (P : σ → Prop) (w : FileStore.Writer σ) (t : Sink σ × σ) : Prop := t.1.writer = w ∧ P t.2

/-- What does not depend on the writer's file holds through writing to it. -/
theorem preserves_write (h : Endures P w) (content : Bytes) : Preserves (Over P w) (write content) := by
  rintro ⟨sink, s⟩ ⟨rfl, hs⟩
  unfold write
  dsimp only
  split
  next w =>
    have hwrite := preserves_writeAll h content
    split
    next hrun => exact .ok ⟨rfl, hwrite.ok hs hrun⟩
    next hrun => exact .error ⟨rfl, hwrite.error hs hrun⟩
  next w encoder ready =>
    have hwrite := preserves_writeAll h ready
    split
    · exact .ok ⟨rfl, hs⟩
    split
    next hrun => exact .error ⟨rfl, hwrite.error hs hrun⟩
    next hrun =>
      split
      · exact .ok ⟨rfl, hwrite.ok hs hrun⟩
      · exact .error ⟨rfl, hwrite.ok hs hrun⟩

theorem preserves_finish (h : Endures P w) : Preserves (Over P w) finish := by
  rintro ⟨sink, s⟩ ⟨rfl, hs⟩
  unfold finish
  dsimp only
  split
  next w =>
    split
    next hrun => exact .ok ⟨rfl, h.flush.ok hs hrun⟩
    next hrun => exact .error ⟨rfl, h.flush.error hs hrun⟩
  next w encoder ready =>
    have hready := preserves_writeAll h ready
    split
    next hrun => exact .error ⟨rfl, hready.error hs hrun⟩
    next hrun =>
      have hs₁ := hready.ok hs hrun
      split
      next => exact .error ⟨rfl, hs₁⟩
      next octets _ =>
        have hfinal := preserves_writeAll h octets
        split
        next hrun => exact .error ⟨rfl, hfinal.error hs₁ hrun⟩
        next hrun =>
          have hs₂ := hfinal.ok hs₁ hrun
          split
          next hrun => exact .ok ⟨rfl, h.flush.ok hs₂ hrun⟩
          next hrun => exact .error ⟨rfl, h.flush.error hs₂ hrun⟩

end Sink

namespace Value

variable [QuietStore σ]

/-- And so it does through the whole of a transfer. -/
theorem preserves_pour (h : Endures P w) (threshold : Nat) (compressed : Bool)
    (fuel remaining total : Nat) :
    Preserves (fun t : Intake σ × Sink σ × σ => Sink.Over P w t.2)
      (pour threshold compressed fuel remaining total) := by
  induction fuel generalizing remaining total with
  | zero => exact preserves_pure _
  | succ fuel ih =>
    rintro ⟨intake, sink, s⟩ ⟨hsink, hs⟩
    have htake := Intake.preserves_take P (ChunkSize.next remaining threshold compressed)
    unfold pour
    dsimp only
    split
    · exact .ok ⟨hsink, hs⟩
    split
    next hrun => exact .error ⟨hsink, htake.error (s := (intake, s)) hs hrun⟩
    next chunk count intake s₁ hrun =>
      have hs₁ : P s₁ := htake.ok (s := (_, s)) hs hrun
      have hwrite := Sink.preserves_write h chunk
      split
      · exact .ok ⟨hsink, hs₁⟩
      split
      next hrun => exact .error (hwrite.error (s := (sink, s₁)) ⟨hsink, hs₁⟩ hrun)
      next hrun => exact ih _ _ _ (hwrite.ok (s := (sink, s₁)) ⟨hsink, hs₁⟩ hrun)

/-- Filling a file changes no more than its writer does. -/
theorem preserves_fillFile (h : Endures P w) (settings : Settings) (first : Bytes) (remaining : Nat)
    (intake : Intake σ) : Preserves P (fillFile settings w first remaining intake) := by
  intro s hs
  unfold fillFile
  dsimp only
  have hstart := Sink.preserves_start h (settings.compressionFor intake.kind)
  have hwrite := Sink.preserves_write h first
  split
  next hrun => exact .error (hstart.error hs hrun)
  next sink s₁ hrun =>
    have hsink : Sink.Over P w (sink, s₁) := ⟨Sink.writer_start hrun, hstart.ok hs hrun⟩
    split
    next hrun => exact .error (hwrite.error hsink hrun).2
    next sink s₂ hrun =>
      have hpour := preserves_pour h settings.inlineThreshold
        (settings.compressionFor intake.kind).isSome remaining remaining 0
      have hsink₂ := hwrite.ok hsink hrun
      split
      next hrun => exact .error (hpour.error (s := (_, sink, s₂)) hsink₂ hrun).2
      next hrun =>
        have hsink₃ := hpour.ok (s := (_, sink, s₂)) hsink₂ hrun
        have hfinish := Sink.preserves_finish h
        split
        next hrun => exact .error (hfinish.error hsink₃ hrun).2
        next hrun => exact .ok (hfinish.ok hsink₃ hrun).2

end Value

end Writing

end LargeObjects
