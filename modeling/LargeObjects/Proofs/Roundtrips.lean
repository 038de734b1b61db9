import Mathlib
import LargeObjects.Proofs.Frames
import LargeObjects.Proofs.MemoryLaws
import LargeObjects.Proofs.Pouring
import LargeObjects.Proofs.Streams

/-! Content that is written to a file and read back. Chunks may be of any size and a flush may come
after any of them: what the file stores gives the chunks again, one after the other. -/
namespace LargeObjects

/-- A writer of the file system may hold back octets, which are in the file once it is closed. -/
theorem Disk.appends (w n : Nat) : Appends (σ := Disk) w
    (fun given d => ∃ text held, d.Stands w n text held ∧ text ++ held = given)
    fun d => some (d.content n) where
  write_ok := by
    rintro given d more ⟨text, held, hstands, rfl⟩
    obtain ⟨text', held', hstands', htext, -⟩ := hstands.writeBuffered more
    exact ⟨_, rfl, text', held', hstands', htext⟩
  flush_ok := by
    rintro given d ⟨text, held, hstands, rfl⟩
    exact ⟨_, rfl, _, _, hstands.flushHeld.1, List.append_nil _⟩
  close_eq := by
    rintro given d ⟨text, held, hstands, rfl⟩
    exact congrArg some hstands.flushHeld.1.content_eq

section Streams

variable [Codec] {σ : Type} [FileStore σ]

namespace Sink

def perform : Codec.Call → Step StreamError (Sink σ × σ) Unit
  | .write chunk => Sink.write chunk
  | .flush => Sink.flush

def record (w : FileStore.Writer σ) (compression : Option Algorithm) (calls : List Codec.Call) :
    Step StoreError σ Bool := fun s =>
  match start w compression s with
  | .error e s => .error e s
  | .ok sink s =>
    match calls.forM perform (sink, s) with
    | .error e (_, s) => .error (.stream e) s
    | .ok _ (sink, s) =>
      match finish (sink, s) with
      | .error e (_, s) => .error e s
      | .ok _ (sink, s) => .ok sink.isCompressed s

end Sink

namespace Appends

open Sink

variable {w : FileStore.Writer σ} {Given : Bytes → σ → Prop} {file? : σ → Option Bytes}
  {content : Bytes} {compressed : Bool} {sink : Sink σ} {s : σ}

theorem perform (law : Appends w Given file?) (h : sink.Carries w Given compressed content s)
    (call : Codec.Call) : ∃ sink' s', Sink.perform call (sink, s) = .ok () (sink', s') ∧
      sink'.Carries w Given compressed (content ++ call.chunk) s' := by
  cases call with
  | write chunk => exact law.write h chunk
  | flush =>
    obtain ⟨sink', s', hflush, hsink⟩ := law.flush h
    refine ⟨sink', s', hflush, ?_⟩
    rw [Codec.Call.chunk, List.append_nil]
    exact hsink

theorem performs (law : Appends w Given file?) (h : sink.Carries w Given compressed content s)
    (calls : List Codec.Call) : ∃ sink' s', calls.forM Sink.perform (sink, s) = .ok () (sink', s') ∧
      sink'.Carries w Given compressed (content ++ calls.flatMap Codec.Call.chunk) s' := by
  induction calls generalizing sink content s with
  | nil =>
    refine ⟨sink, s, rfl, ?_⟩
    rw [List.flatMap_nil, List.append_nil]
    exact h
  | cons call calls ih =>
    obtain ⟨sink₁, s₁, hcall, h₁⟩ := law.perform h call
    obtain ⟨sink₂, s₂, hcalls, h₂⟩ := ih h₁
    refine ⟨sink₂, s₂, ?_, ?_⟩
    · exact (Step.bind_ok hcall).trans hcalls
    · rw [List.flatMap_cons, ← List.append_assoc]
      exact h₂

theorem record [Codec.Inverts] (law : Appends w Given file?) (h : Given [] s)
    (compression : Option Algorithm) (calls : List Codec.Call) : ∃ s' stored,
      Sink.record w compression calls s = .ok compression.isSome s' ∧ Given stored s' ∧
      Stores compression.isSome stored (calls.flatMap Codec.Call.chunk) := by
  obtain ⟨sink₁, s₁, hstart, h₁⟩ := law.start h compression
  obtain ⟨sink₂, s₂, hcalls, h₂⟩ := law.performs h₁ calls
  obtain ⟨s₃, stored, hfinish, hgiven, hstores⟩ := law.finish h₂
  refine ⟨s₃, stored, ?_, hgiven, hstores⟩
  simp only [Sink.record, hstart, hcalls, hfinish, h₂.isCompressed_eq]

end Appends

namespace Sink

/-- A stream gives back what was put into it, with any codec whose decoder inverts its encoder. Plain
content is stored as it is, compressed content after the octet that names the algorithm, and a reader
that is told which of the two it was gets the chunks one after the other. A compressed file without
that octet, or with an octet that names no algorithm, is refused. -/
theorem record_exact [Codec.Inverts] {w : FileStore.Writer σ} {Given : Bytes → σ → Prop}
    {file? : σ → Option Bytes} (law : Appends w Given file?) {s : σ} (h : Given [] s)
    (compression : Option Algorithm) (calls : List Codec.Call) :
    let content := calls.flatMap Codec.Call.chunk
    (∃ s' stored, record w compression calls s = .ok compression.isSome s' ∧
      file? (FileStore.close w s') = some stored ∧
      (compression = none → stored = content) ∧
      (∀ a, compression = some a → stored.head? = some a.tag) ∧
      ∀ (t : σ) (Left : FileStore.Reader σ → Bytes → Prop) (r : FileStore.Reader σ),
        Readable t Left → Left r stored →
        ∃ c, ContentReader.start r compression.isSome t = .ok c t ∧
          ∀ capacity, ∃ c', ContentReader.readAll capacity (c, t) = .ok content (c', t)) ∧
    ∀ (t : σ) (Left : FileStore.Reader σ → Bytes → Prop) (r : FileStore.Reader σ), Readable t Left →
      (Left r [] → ContentReader.start r true t = .error (.compression .missingTag) t) ∧
      ∀ first rest, Left r (first :: rest) → first ≠ 1 →
        ContentReader.start r true t = .error (.unknownCompression first) t := by
  intro content
  refine ⟨?_, fun t Left r hreadable => ⟨ContentReader.start_untagged hreadable,
    fun first rest hr hfirst => ContentReader.start_unknown hreadable hr hfirst⟩⟩
  obtain ⟨s', stored, hrecord, hgiven, hstores⟩ := law.record h compression calls
  refine ⟨s', stored, hrecord, law.close_eq hgiven, ?_, ?_, fun t Left r hreadable hr => ?_⟩
  · rintro rfl
    exact hstores
  · rintro ⟨level⟩ rfl
    obtain ⟨stream, rfl, -⟩ := hstores
    rfl
  · obtain ⟨c, hstart, hgives, hlen⟩ := ContentReader.start_gives hreadable hr hstores
    exact ⟨c, hstart, ContentReader.readAll_gives hreadable hgives hlen⟩

end Sink

end Streams

namespace Sink

def fewCalls : List Codec.Call := [.write [0x61, 0x62], .flush, .write [], .write [0x63]]

/-- Two chunks with a flush and an empty chunk between them, compressed in memory and plain in a file
system; and a file with a tag that names no algorithm. -/
theorem record_exact_fewCalls :
    Codec.Inverts ∧
    (∃ w s s' stored, FileStore.create ⟨['f']⟩ (default : MemoryStore) = .ok w s ∧
      record w (some (.zstd 3)) fewCalls s = .ok true s' ∧
      (FileStore.close w s').at? [.name ['f']] = some stored ∧ stored.head? = some 1 ∧
      ∃ r c c', FileStore.openRead ⟨['f']⟩ (FileStore.close w s') = .ok r (FileStore.close w s') ∧
        ContentReader.start r true (FileStore.close w s') = .ok c (FileStore.close w s') ∧
        ContentReader.readAll 0 (c, FileStore.close w s') =
          .ok [0x61, 0x62, 0x63] (c', FileStore.close w s')) ∧
    (∃ (w : Nat) (d d' : Disk), FileStore.create ⟨['f']⟩ (default : Disk) = .ok w d ∧
      record (σ := Disk) w none fewCalls d = .ok false d' ∧
      (d'.flushHeld w).content 0 = [0x61, 0x62, 0x63]) ∧
    ContentReader.start (σ := MemoryStore) ([0x7F, 0x01] : Bytes) true default =
      .error (.unknownCompression 0x7F) default := by
  -- In memory a new file is at its path at once.
  obtain ⟨w, s, hcreate, hwriting, -⟩ := ReliableStore.create_ok ⟨['f']⟩ (default : MemoryStore)
  have hpath : Path.components ⟨['f']⟩ = [.name ['f']] := by decide
  rw [hpath] at hwriting
  have hmemory := record_exact (ReliableStore.appends w [.name ['f']] s) ⟨hwriting, .refl _ s⟩
    (some (Algorithm.zstd 3)) fewCalls
  obtain ⟨⟨s', stored, hrecord, hfile, -, htag, hread⟩, hrefuse⟩ := hmemory
  refine ⟨Frame.inverts, ⟨w, s, s', stored, hcreate, hrecord, hfile, htag _ rfl, ?_⟩, ?_, ?_⟩
  · rw [← hpath] at hfile
    obtain ⟨r, hopen, hr⟩ := ReliableStore.openRead_ok hfile
    obtain ⟨c, hstart, hall⟩ := hread _ _ r (ReliableStore.readable _ _) hr
    obtain ⟨c', hcontent⟩ := hall 0
    exact ⟨r, c, c', hopen, hstart, hcontent⟩
  · -- In the file system it is the first content, and nothing is held back yet.
    obtain ⟨d, hcreate, hstands⟩ : ∃ d : Disk,
        FileStore.create ⟨['f']⟩ (default : Disk) = .ok (0 : Nat) d ∧ d.Stands 0 0 [] [] := by
      refine ⟨_, rfl, ?_⟩
      exact ⟨rfl, rfl, Nat.one_pos⟩
    obtain ⟨⟨d', stored, hrecord, hfile, hplain, -⟩, -⟩ :=
      record_exact (Disk.appends 0 0) ⟨[], [], hstands, rfl⟩ none fewCalls
    obtain rfl := hplain rfl
    exact ⟨0, d, d', hcreate, hrecord, Option.some.inj hfile⟩
  · exact (hrefuse default _ _ (MemoryStore.readable default)).2 0x7F [0x01] rfl (by decide)

end Sink

end LargeObjects
