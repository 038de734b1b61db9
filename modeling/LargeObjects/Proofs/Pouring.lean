import Mathlib
import LargeObjects.Value.Content
import LargeObjects.Value.Creation
import LargeObjects.Proofs.MemoryLaws
import LargeObjects.Proofs.Twins

/-! Content that goes through a store in memory and a file system with the same files. The file system
reads ahead and holds back, and neither shows: the same units are taken and the same octets are put
down. -/
namespace LargeObjects

open Step

section Sources

variable [Codec] {σ : Type} [FileStore σ] {s : σ} {Left : FileStore.Reader σ → Bytes → Prop}
  {text : Bytes} {ending : Option StreamError}

inductive Source.Gives (Left : FileStore.Reader σ → Bytes → Prop) :
    Source σ → Bytes → Option StreamError → Prop
  | stored {c : ContentReader σ} {text : Bytes} {ending : Option StreamError} :
      c.Gives Left text ending → Gives Left (.stored c) text ending
  | planned {deliveries : List Delivery} : .bytes [] ∉ deliveries →
      Gives Left (.planned deliveries) (Delivery.outcome deliveries).1 (Delivery.outcome deliveries).2
  /-- One delivery of nothing is the end. -/
  | blank : Gives Left (.planned [.bytes []]) [] none

theorem Source.Gives.mono {Left' : FileStore.Reader σ → Bytes → Prop} {source : Source σ}
    (h : source.Gives Left text ending) (hsub : ∀ {r left}, Left r left → Left' r left) :
    source.Gives Left' text ending := by
  cases h with
  | stored hc => exact .stored (hc.mono hsub)
  | planned hplan => exact .planned hplan
  | blank => exact .blank

theorem Source.gives_bytes (Left : FileStore.Reader σ → Bytes → Prop) (data : Bytes) :
    Gives Left (.planned [.bytes data]) data none := by
  by_cases hnil : data = []
  · rw [hnil]
    exact .blank
  · have hplan : Delivery.bytes [] ∉ [Delivery.bytes data] := by simpa using hnil
    have h : Gives Left _ _ _ := .planned hplan
    simpa only [Delivery.outcome, List.append_nil] using h

/-- A source of bytes or of a file behaves as its text says, whatever reads it. -/
theorem Source.sourced (law : Readable s Left) : Intake.Sourced s (Source.Gives Left) := by
  refine ⟨?_⟩
  rintro ⟨source, s'⟩ text ending limit ⟨hs, hsource⟩ hlimit
  obtain rfl : s' = s := hs
  cases hsource with
  | @stored c text ending hc =>
    rcases (ContentReader.serves_of_readable law).read_eq (t := (c, s')) ⟨rfl, hc⟩ hlimit with
      ⟨piece, more, ⟨c', _⟩, hread, htext, hlen, hnil, rfl, hc'⟩ | ⟨e, ⟨c', _⟩, hread, htext, hend, rfl⟩
    · refine Or.inl ⟨piece, more, (.stored c', _), ?_, htext, hlen, hnil, rfl, .stored hc'⟩
      simp only [fetch, hread]
    · refine Or.inr ⟨e, (.stored c', _), ?_, htext, hend, rfl⟩
      simp only [fetch, hread]
  | planned hplan => exact fetch_planned .planned hplan hlimit s'
  | blank =>
    refine Or.inl ⟨[], [], (.planned [], s'), ?_, rfl, Nat.zero_le _, fun _ => ⟨rfl, rfl⟩, rfl,
      Source.Gives.planned List.not_mem_nil⟩
    simp only [fetch, fetchPlanned, List.take_nil, List.drop_nil]

end Sources

theorem MemoryStore.readable (s : MemoryStore) :
    Readable s fun (r : FileStore.Reader MemoryStore) left => r = left :=
  ReliableStore.readable (σ := MemoryStore) [] s

namespace Disk

variable {d d' : Disk} {w n m : Nat} {given bytes left : Bytes} {r : DiskReader} {S : Nat → Prop}

def Left (S : Nat → Prop) (d : Disk) (r : DiskReader) (left : Bytes) : Prop :=
  ∃ n, S n ∧ r.entry = .file n ∧ left = r.ahead ++ (d.content n).drop r.offset

/-- Reading ahead keeps the order of the octets. -/
theorem readable (S : Nat → Prop) (d : Disk) :
    Readable d fun (r : FileStore.Reader Disk) left => Left S d r left := by
  refine ⟨?_, ?_⟩
  · rintro ⟨entry, offset, ahead⟩ left limit ⟨n, hn, rfl, rfl⟩ hlimit
    have hbeyond : d.beyond ⟨.file n, offset, ahead⟩ = (d.content n).drop offset := rfl
    generalize hrest : (d.content n).drop offset = rest at hbeyond
    have hskip : ∀ k, (d.content n).drop (offset + (rest.take k).length) = rest.drop k := by
      intro k
      rw [← List.drop_drop, hrest]
      rcases Nat.le_total k rest.length with hk | hk
      · rw [List.length_take, Nat.min_eq_left hk]
      · rw [List.take_of_length_le hk, List.drop_length, List.drop_of_length_le hk]
    have hcut : ∀ k, 0 < k → rest.take k = [] → rest = [] := by
      intro k hk hempty
      exact (List.take_eq_nil_iff.1 hempty).resolve_left (by omega)
    dsimp only
    by_cases hahead : ahead = []
    · subst hahead
      rw [List.nil_append]
      by_cases hlarge : bufferSize ≤ limit
      · refine ⟨rest.take limit, rest.drop limit,
          ⟨.file n, offset + (rest.take limit).length, []⟩, ?_, (List.take_append_drop _ _).symm, ?_,
          hcut limit hlimit, n, hn, rfl, ?_⟩
        · simp only [FileStore.read, Bool.false_eq_true, if_false, ne_eq, not_true, if_pos hlarge, hbeyond]
        · rw [List.length_take]
          exact Nat.min_le_left _ _
        · rw [hskip]
          rfl
      · -- A buffer is read at once; what was not asked for waits.
        refine ⟨(rest.take bufferSize).take limit, rest.drop limit,
          ⟨.file n, offset + (rest.take bufferSize).length, (rest.take bufferSize).drop limit⟩, ?_, ?_, ?_,
          fun hempty => ?_, n, hn, rfl, ?_⟩
        · simp only [FileStore.read, Bool.false_eq_true, if_false, ne_eq, not_true, if_neg hlarge, hbeyond]
        · rw [List.take_take, Nat.min_eq_left (by omega), List.take_append_drop]
        · rw [List.length_take]
          exact Nat.min_le_left _ _
        · rw [List.take_take] at hempty
          exact hcut _ (Nat.lt_min.2 ⟨hlimit, by decide⟩) hempty
        · rw [hskip]
          dsimp only
          have hsplit : rest.drop bufferSize = (rest.drop limit).drop (bufferSize - limit) := by
            rw [List.drop_drop]
            congr 1
            omega
          rw [List.drop_take, hsplit, List.take_append_drop]
    · refine ⟨ahead.take limit, ahead.drop limit ++ rest, ⟨.file n, offset, ahead.drop limit⟩, ?_, ?_, ?_,
        fun hempty => ?_, n, hn, rfl, by rw [hrest]⟩
      · simp only [FileStore.read, Bool.false_eq_true, if_false, ne_eq, hahead, not_false_iff, if_true]
      · rw [← List.append_assoc, List.take_append_drop]
      · rw [List.length_take]
        exact Nat.min_le_left _ _
      · exact absurd ((List.take_eq_nil_iff.1 hempty).resolve_left (by omega)) hahead
  · rintro ⟨entry, offset, ahead⟩ left ⟨n, -, rfl, rfl⟩
    simp only [FileStore.unread, beyond, List.length_append]
    exact Nat.le_refl _

structure Pours (n : Nat) (d d' : Disk) : Prop where
  directories_eq : d'.directories = d.directories
  length_eq : d'.contents.length = d.contents.length
  content_ne {m : Nat} : m ≠ n → d'.content m = d.content m

theorem Pours.refl (n : Nat) (d : Disk) : Pours n d d := ⟨rfl, rfl, fun _ => rfl⟩

theorem Pours.trans {d'' : Disk} (h : Pours n d d') (h' : Pours n d' d'') : Pours n d d'' where
  directories_eq := h'.directories_eq.trans h.directories_eq
  length_eq := h'.length_eq.trans h.length_eq
  content_ne hm := (h'.content_ne hm).trans (h.content_ne hm)

structure Stands (d : Disk) (w n : Nat) (text held : Bytes) : Prop where
  writer : d.writers[w]? = some { number := n, offset := text.length, held }
  content_eq : d.content n = text
  lt : n < d.contents.length

variable {text held : Bytes}

theorem Stands.heldBy_eq (h : d.Stands w n text held) : d.heldBy w = held := by
  unfold heldBy
  rw [h.writer]
  rfl

/-- Bytes put at the end of a content are appended. -/
theorem patch_end (content bytes : Bytes) : patch content content.length bytes = content ++ bytes := by
  simp [patch]

/-- A writer at the end of its file stays at the end. -/
theorem Stands.writeThrough (h : d.Stands w n text held) (bytes : Bytes) :
    (d.writeThrough w bytes).Stands w n (text ++ bytes) held ∧ Pours n d (d.writeThrough w bytes) := by
  have hrun : d.writeThrough w bytes =
      { d with
        contents := d.contents.set n (text ++ bytes)
        writers := d.writers.set w { number := n, offset := text.length + bytes.length, held } } := by
    unfold Disk.writeThrough
    rw [h.writer]
    dsimp only
    rw [h.content_eq, patch_end]
  have hw : w < d.writers.length := (List.getElem?_eq_some_iff.1 h.writer).1
  rw [hrun]
  refine ⟨⟨?_, ?_, ?_⟩, rfl, List.length_set, fun hm => ?_⟩
  · rw [List.getElem?_set_self hw, List.length_append]
  · exact (content_set h.lt _ n).trans (if_pos rfl)
  · rw [List.length_set]
    exact h.lt
  · exact (content_set h.lt _ _).trans (if_neg hm)

theorem Stands.setHeld (h : d.Stands w n text held) (held' : Bytes) :
    (d.setHeld w held').Stands w n text held' ∧ Pours n d (d.setHeld w held') := by
  refine ⟨⟨?_, h.content_eq, h.lt⟩, rfl, rfl, fun _ => rfl⟩
  unfold Disk.setHeld
  rw [List.getElem?_modify, h.writer]
  exact congrArg some (if_pos rfl)

/-- After a flush the file has all that the writer was given. -/
theorem Stands.flushHeld (h : d.Stands w n text held) :
    (d.flushHeld w).Stands w n (text ++ held) [] ∧ Pours n d (d.flushHeld w) := by
  unfold Disk.flushHeld
  rw [h.heldBy_eq]
  by_cases hnil : held = []
  · rw [if_pos hnil]
    subst hnil
    rw [List.append_nil]
    exact ⟨h, .refl n d⟩
  · rw [if_neg hnil]
    obtain ⟨hthrough, hpours⟩ := h.writeThrough held
    obtain ⟨hstands, hpours'⟩ := hthrough.setHeld []
    exact ⟨hstands, hpours.trans hpours'⟩

/-- Held back octets go out, or they do not. -/
theorem Stands.pushed (h : d.Stands w n text held) (pushed : Prop) [Decidable pushed] :
    ∃ text' held', (if pushed then d.flushHeld w else d).Stands w n text' held' ∧
      text' ++ held' = text ++ held ∧ Pours n d (if pushed then d.flushHeld w else d) ∧
      held' = if pushed then [] else held := by
  by_cases hp : pushed
  · obtain ⟨hstands, hpours⟩ := h.flushHeld
    rw [if_pos hp, if_pos hp]
    exact ⟨_, _, hstands, List.append_nil _, hpours, rfl⟩
  · rw [if_neg hp, if_neg hp]
    exact ⟨_, _, h, rfl, .refl n d, rfl⟩

/-- Whether they are held back or not, the octets come after those that came before. -/
theorem Stands.writeBuffered (h : d.Stands w n text held) (bytes : Bytes) :
    ∃ text' held', (d.writeBuffered w bytes).Stands w n text' held' ∧
      text' ++ held' = text ++ held ++ bytes ∧ Pours n d (d.writeBuffered w bytes) := by
  unfold Disk.writeBuffered
  rw [h.heldBy_eq]
  dsimp only
  obtain ⟨text₁, held₁, hstands, hsame, hpours, hheld⟩ :=
    h.pushed (bufferSize - held.length < bytes.length)
  split
  · obtain ⟨hstands', hpours'⟩ := hstands.setHeld (held₁ ++ bytes)
    rw [hstands.heldBy_eq]
    exact ⟨_, _, hstands', by rw [← List.append_assoc, hsame], hpours.trans hpours'⟩
  next hlarge =>
    -- A buffer's worth either did not fit, or nothing was held back before.
    have hnil : held₁ = [] := by
      rw [hheld]
      split
      · rfl
      next hfits =>
        have hpos : 0 < bufferSize := by decide
        rw [not_or, Nat.not_lt, Nat.not_lt] at hlarge
        apply List.eq_nil_of_length_eq_zero
        omega
    obtain ⟨hstands', hpours'⟩ := hstands.writeThrough bytes
    rw [hnil, List.append_nil] at hsame
    refine ⟨_, _, hstands', ?_, hpours.trans hpours'⟩
    rw [hnil, List.append_nil, hsame]

end Disk

end LargeObjects
