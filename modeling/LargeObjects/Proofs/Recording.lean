import Mathlib
import LargeObjects.Compression.Stream
import LargeObjects.Proofs.Readers

/-! What a sink puts into a file and what a reader gets out of one, plain or compressed. Of the store
nothing is needed but that a writer appends to its file and that a reader goes through one, and of the
codec that its decoder inverts its encoder. -/
namespace LargeObjects

variable [Codec] {σ : Type} [FileStore σ]

def Stores (compressed : Bool) (stored content : Bytes) : Prop :=
  if compressed then ∃ stream, stored = Algorithm.zstdTag :: stream ∧ Codec.decode stream = .ok content
  else stored = content

/-- A writer that appends. `Given` says what it has been given so far, which is what the file holds
once the writer is closed. -/
structure Appends (w : FileStore.Writer σ) (Given : Bytes → σ → Prop) (file? : σ → Option Bytes) :
    Prop where
  write_ok {given : Bytes} {s : σ} (more : Bytes) : Given given s →
    ∃ s', FileStore.write w more s = .ok () s' ∧ Given (given ++ more) s'
  flush_ok {given : Bytes} {s : σ} : Given given s →
    ∃ s', FileStore.flush w s = .ok () s' ∧ Given given s'
  close_eq {given : Bytes} {s : σ} : Given given s → file? (FileStore.close w s) = some given

inductive Sink.Carries (w : FileStore.Writer σ) (Given : Bytes → σ → Prop) :
    Bool → Sink σ → Bytes → σ → Prop
  | plain {content : Bytes} {s : σ} : Given content s → Carries w Given false (.plain w) content s
  | framed {written ready content : Bytes} {encoder : Codec.Encoder} {s : σ} :
      Given (Algorithm.zstdTag :: written) s → Codec.Carries encoder (written ++ ready) content →
      Carries w Given true (.framed w encoder ready) content s

theorem Sink.Carries.isCompressed_eq {w : FileStore.Writer σ} {Given : Bytes → σ → Prop}
    {compressed : Bool} {sink : Sink σ} {content : Bytes} {s : σ}
    (h : sink.Carries w Given compressed content s) : sink.isCompressed = compressed := by
  cases h <;> rfl

namespace Appends

open Sink

variable {w : FileStore.Writer σ} {Given : Bytes → σ → Prop} {file? : σ → Option Bytes}
  {given content : Bytes} {compressed : Bool} {sink : Sink σ} {s : σ}

omit [Codec] in
/-- All that is written is appended. -/
theorem writeAll (law : Appends w Given file?) (h : Given given s) (more : Bytes) :
    ∃ s', Sink.writeAll w more s = .ok () s' ∧ Given (given ++ more) s' := by
  unfold Sink.writeAll
  by_cases hnil : more = []
  · subst hnil
    rw [if_pos rfl, List.append_nil]
    exact ⟨s, rfl, h⟩
  · rw [if_neg hnil]
    exact law.write_ok more h

theorem start [Codec.Inverts] (law : Appends w Given file?) (h : Given [] s)
    (compression : Option Algorithm) :
    ∃ sink s', Sink.start w compression s = .ok sink s' ∧
      sink.Carries w Given compression.isSome [] s' := by
  cases compression with
  | none => exact ⟨.plain w, s, rfl, .plain h⟩
  | some a =>
    obtain ⟨level⟩ := a
    obtain ⟨s', hwrite, hgiven⟩ := law.writeAll h [(Algorithm.zstd level).tag]
    obtain ⟨encoder, hnew, hcarries⟩ := Codec.newEncoder_ok level
    refine ⟨.framed w encoder [], s', ?_, .framed hgiven hcarries⟩
    simp only [Sink.start, hwrite, hnew]

/-- A sink that takes more content carries what it had with the new behind it. -/
theorem write (law : Appends w Given file?) (h : sink.Carries w Given compressed content s)
    (more : Bytes) : ∃ sink' s', Sink.write more (sink, s) = .ok () (sink', s') ∧
      sink'.Carries w Given compressed (content ++ more) s' := by
  cases h with
  | plain hgiven =>
    obtain ⟨s', hwrite, hgiven'⟩ := law.writeAll hgiven more
    refine ⟨.plain w, s', ?_, .plain hgiven'⟩
    simp only [Sink.write, hwrite]
  | @framed written ready _ encoder _ hgiven he =>
    by_cases hnil : more = []
    · subst hnil
      refine ⟨.framed w encoder ready, s, ?_, ?_⟩
      · simp only [Sink.write, if_true]
      · rw [List.append_nil]
        exact .framed hgiven he
    · obtain ⟨s', hwrite, hgiven'⟩ := law.writeAll hgiven ready
      obtain ⟨further, octets, habsorb, hfurther⟩ := he.absorb more
      refine ⟨.framed w further octets, s', ?_, .framed hgiven' hfurther⟩
      simp only [Sink.write, if_neg hnil, hwrite, habsorb]

theorem flush (law : Appends w Given file?) (h : sink.Carries w Given compressed content s) :
    ∃ sink' s', Sink.flush (sink, s) = .ok () (sink', s') ∧
      sink'.Carries w Given compressed content s' := by
  cases h with
  | plain hgiven =>
    obtain ⟨s', hflush, hgiven'⟩ := law.flush_ok hgiven
    refine ⟨.plain w, s', ?_, .plain hgiven'⟩
    simp only [Sink.flush, Sink.writer, hflush]
  | @framed written ready _ encoder _ hgiven he =>
    -- What is ready goes out first, and then what the flush makes ready.
    obtain ⟨s₁, hready, hgiven₁⟩ := law.writeAll hgiven ready
    obtain ⟨further, octets, hcodec, hfurther⟩ := he.flush
    obtain ⟨s₂, hflushed, hgiven₂⟩ := law.writeAll hgiven₁ octets
    obtain ⟨s₃, hflush, hgiven₃⟩ := law.flush_ok hgiven₂
    refine ⟨.framed w further [], s₃, ?_, .framed hgiven₃ ?_⟩
    · simp only [Sink.flush, hready, hcodec, hflushed, Sink.writer, hflush]
    · rw [List.append_nil]
      exact hfurther

/-- Once a stream is complete, its writer was given what stores the content. -/
theorem finish (law : Appends w Given file?) (h : sink.Carries w Given compressed content s) :
    ∃ s' stored, Sink.finish (sink, s) = .ok () (sink, s') ∧ Given stored s' ∧
      Stores compressed stored content := by
  cases h with
  | plain hgiven =>
    obtain ⟨s', hflush, hgiven'⟩ := law.flush_ok hgiven
    refine ⟨s', content, ?_, hgiven', rfl⟩
    simp only [Sink.finish, Sink.writer, hflush]
  | @framed written ready _ encoder _ hgiven he =>
    obtain ⟨s₁, hready, hgiven₁⟩ := law.writeAll hgiven ready
    obtain ⟨octets, hcodec, hdecode⟩ := he.finish
    obtain ⟨s₂, hfinal, hgiven₂⟩ := law.writeAll hgiven₁ octets
    obtain ⟨s₃, hflush, hgiven₃⟩ := law.flush_ok hgiven₂
    refine ⟨s₃, _, ?_, hgiven₃, written ++ ready ++ octets, ?_, hdecode⟩
    · simp only [Sink.finish, hready, hcodec, hfinal, Sink.writer, hflush]
    · simp only [List.cons_append]

end Appends

section Reading

variable {Left : FileStore.Reader σ → Bytes → Prop} {s : σ} {r : FileStore.Reader σ}
  {left stored content : Bytes}

omit [Codec] in
/-- One octet that is asked for comes, unless none is left. -/
theorem Readable.read_one (law : Readable s Left) (hr : Left r left) :
    (left = [] ∧ ∃ r', FileStore.read 1 (r, s) = .ok [] (r', s)) ∨
      ∃ b more r', left = b :: more ∧ FileStore.read 1 (r, s) = .ok [b] (r', s) ∧ Left r' more := by
  obtain ⟨piece, more, r', hread, rfl, hlen, hnil, hr'⟩ := law.read_ok hr Nat.one_pos
  cases piece with
  | nil => exact Or.inl ⟨hnil rfl, r', hread⟩
  | cons b piece =>
    obtain rfl : piece = [] := List.eq_nil_of_length_eq_zero (by simpa using hlen)
    exact Or.inr ⟨b, more, r', rfl, hread, hr'⟩

namespace ContentReader

/-- A compressed file without a tag is refused. -/
theorem start_untagged (law : Readable s Left) (hr : Left r []) :
    start r true s = .error (.compression .missingTag) s := by
  rcases law.read_one hr with ⟨-, r', hread⟩ | ⟨b, more, r', hcons, -⟩
  · simp only [start, Bool.not_true, Bool.false_eq_true, if_false, hread]
  · cases hcons

/-- So is one whose first octet names no algorithm. -/
theorem start_unknown (law : Readable s Left) {tag : UInt8} (hr : Left r (tag :: left))
    (htag : tag ≠ Algorithm.zstdTag) : start r true s = .error (.unknownCompression tag) s := by
  rcases law.read_one hr with ⟨hnil, -⟩ | ⟨b, more, r', hcons, hread, -⟩
  · cases hnil
  · cases hcons
    simp only [start, Bool.not_true, Bool.false_eq_true, if_false, hread, if_neg htag]

/-- A file that stores a content is opened, and the content is what is left to read. -/
theorem start_gives (law : Readable s Left) {compressed : Bool} (hr : Left r stored)
    (h : Stores compressed stored content) :
    ∃ c, start r compressed s = .ok c s ∧ c.Gives Left content none ∧
      content.length ≤ c.unread s := by
  cases compressed with
  | false =>
    obtain rfl : stored = content := h
    exact ⟨.plain r, rfl, .plain hr, law.unread_ge hr⟩
  | true =>
    obtain ⟨stream, rfl, hdecode⟩ : ∃ stream, stored = Algorithm.zstdTag :: stream ∧
      Codec.decode stream = .ok content := h
    obtain ⟨decoder, hnew, hout⟩ := Codec.decode_eq_ok.1 hdecode
    rcases law.read_one hr with ⟨hnil, -⟩ | ⟨b, more, r', hcons, hread, hr'⟩
    · cases hnil
    · cases hcons
      refine ⟨.framed r' (.live decoder) [], ?_, .unready hr' hout, ?_⟩
      · simp only [start, Bool.not_true, Bool.false_eq_true, if_false, hread, if_true, hnew]
      · simp only [unread, List.length_nil, Nat.zero_add]
        calc content.length
            ≤ Codec.expansion * stream.length := Codec.length_decode_le hdecode
          _ ≤ Codec.expansion * FileStore.unread r' s := by
              apply Nat.mul_le_mul_left
              exact law.unread_ge hr'

/-- Read to the end, a reader gives all that it has left. -/
theorem readAll_gives (law : Readable s Left) {c : ContentReader σ} {text : Bytes}
    (hc : c.Gives Left text none) (hlen : text.length ≤ c.unread s) (capacity : Nat) :
    ∃ c', readAll capacity (c, s) = .ok text (c', s) := by
  have hleft : (c, s).2 = s ∧ (c, s).1.Gives Left text none := ⟨rfl, hc⟩
  rcases Gathering.fill_eq (serves_of_readable law) (Gathering.sound_ofCapacity capacity) hleft
      (show Gathering.share none text < c.unread s + 1 from Nat.lt_succ_of_le hlen) with
    ⟨-, g, ⟨c', _⟩, hfill, -, hbytes, rfl, -⟩ | ⟨-, e, t', hending, -, -⟩
  · rw [Gathering.bytes_ofCapacity, List.nil_append] at hbytes
    simp only [Gathering.share, List.take_length] at hbytes
    refine ⟨c', ?_⟩
    simp only [readAll]
    rw [Step.bind_ok hfill, hbytes]
    rfl
  · cases hending

end ContentReader

end Reading

end LargeObjects
