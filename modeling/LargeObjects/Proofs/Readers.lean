import Mathlib
import LargeObjects.Compression.Stream
import LargeObjects.Proofs.Codecs
import LargeObjects.Proofs.Gathered

/-! What the readers of content give. It depends on the octets of the file and on nothing else: not on
how many of them a store hands over at a time. -/
namespace LargeObjects

variable {σ : Type} [FileStore σ] {s : σ} {Left : FileStore.Reader σ → Bytes → Prop}

/-- Readers of files in a store: each of them has octets left, and hands some of them over at every
request until there are none. -/
structure Readable (s : σ) (Left : FileStore.Reader σ → Bytes → Prop) : Prop where
  read_ok {r : FileStore.Reader σ} {left : Bytes} {limit : Nat} : Left r left → 0 < limit →
    ∃ piece more r', FileStore.read limit (r, s) = .ok piece (r', s) ∧ left = piece ++ more ∧
      piece.length ≤ limit ∧ (piece = [] → left = []) ∧ Left r' more
  unread_ge {r : FileStore.Reader σ} {left : Bytes} : Left r left → left.length ≤ FileStore.unread r s

namespace ContentReader

theorem take_ne_nil {limit : Nat} (hlimit : 0 < limit) {ready : Bytes} (hready : ready ≠ []) :
    ready.take limit ≠ [] := by
  intro hempty
  rcases List.take_eq_nil_iff.1 hempty with hzero | hnil
  · omega
  · exact hready hnil

variable [Codec]

inductive Gives (Left : FileStore.Reader σ → Bytes → Prop) :
    ContentReader σ → Bytes → Option StreamError → Prop
  | inline (text : Bytes) : Gives Left (.inline text) text none
  | plain {r : FileStore.Reader σ} {text : Bytes} : Left r text → Gives Left (.plain r) text none
  | framed {r : FileStore.Reader σ} {decoding : Decoding} {left ready text : Bytes}
      {ending : Option StreamError} : Left r left → decoding.outcome left = (text, ending) →
      Gives Left (.framed r decoding ready) (ready ++ text) ending

theorem Gives.unready {r : FileStore.Reader σ} {decoding : Decoding} {left text : Bytes}
    {ending : Option StreamError} (hr : Left r left) (hd : decoding.outcome left = (text, ending)) :
    Gives Left (.framed r decoding []) text ending := .framed hr hd

theorem Gives.mono {Left' : FileStore.Reader σ → Bytes → Prop} {c : ContentReader σ} {text : Bytes}
    {ending : Option StreamError} (h : c.Gives Left text ending)
    (hsub : ∀ {r left}, Left r left → Left' r left) : c.Gives Left' text ending := by
  cases h with
  | inline => exact .inline _
  | plain hr => exact .plain (hsub hr)
  | framed hr hd => exact .framed (hsub hr) hd

section Refill

variable {r r' : FileStore.Reader σ} {d : Decoding} {decoder : Codec.Decoder} {limit fuel : Nat}
  {c : ContentReader σ} {b : UInt8} {rest : Bytes}

theorem refill_end (hread : FileStore.read Codec.fetchSize (r, s) = .ok [] (r', s)) :
    refill r (.live decoder) limit (fuel + 1) (c, s) =
      refill r' (Decoding.live decoder).close limit fuel
        (framed r' (Decoding.live decoder).close [], s) := by
  rw [refill]
  simp only [hread]

theorem refill_silent (hread : FileStore.read Codec.fetchSize (r, s) = .ok (b :: rest) (r', s))
    (hfeed : (Decoding.live decoder).feed (b :: rest) = ([], d)) :
    refill r (.live decoder) limit (fuel + 1) (c, s) =
      refill r' d limit fuel (framed r' d [], s) := by
  rw [refill]
  simp only [hread, hfeed]

theorem refill_ready {first : UInt8} {ready : Bytes}
    (hread : FileStore.read Codec.fetchSize (r, s) = .ok (b :: rest) (r', s))
    (hfeed : (Decoding.live decoder).feed (b :: rest) = (first :: ready, d)) :
    refill r (.live decoder) limit (fuel + 1) (c, s) =
      .ok ((first :: ready).take limit) (framed r' d ((first :: ready).drop limit), s) := by
  rw [refill]
  simp only [hread, hfeed]

end Refill

def Serving (s : σ) (Left : FileStore.Reader σ → Bytes → Prop) (limit : Nat) (text : Bytes)
    (ending : Option StreamError)
    (result : EStateM.Result StreamError (ContentReader σ × σ) Bytes) : Prop :=
  (∃ piece more c', result = .ok piece (c', s) ∧ text = piece ++ more ∧ piece.length ≤ limit ∧
    (piece = [] → text = [] ∧ ending = none) ∧ c'.Gives Left more ending) ∨
  ∃ e c', result = .error e (c', s) ∧ text = [] ∧ ending = some e

/-- Of content that is ready, as much as is wanted is given. -/
theorem serving_ready {r : FileStore.Reader σ} {d : Decoding} {left ready text : Bytes}
    {ending : Option StreamError} {limit : Nat} (hr : Left r left)
    (hd : d.outcome left = (text, ending)) (hlimit : 0 < limit) (hready : ready ≠ []) :
    Serving s Left limit (ready ++ text) ending
      (.ok (ready.take limit) (framed r d (ready.drop limit), s)) := by
  refine Or.inl ⟨_, ready.drop limit ++ text, _, rfl, ?_, ?_, fun h => ?_, .framed hr hd⟩
  · rw [← List.append_assoc, List.take_append_drop]
  · rw [List.length_take]
    exact Nat.min_le_left _ _
  · exact absurd h (take_ne_nil hlimit hready)

/-- Once a stream is ended there is no more text, whatever octets are left. -/
theorem serving_ended {r : FileStore.Reader σ} {cause ending : Option StreamError} {left text : Bytes}
    {limit fuel : Nat} (hr : Left r left) (hd : (Decoding.ended cause).outcome left = (text, ending))
    (c : ContentReader σ) :
    Serving s Left limit text ending (refill r (.ended cause) limit (fuel + 1) (c, s)) := by
  obtain ⟨rfl, rfl⟩ := Prod.mk.inj hd
  cases cause with
  | none => exact Or.inl ⟨[], [], _, rfl, rfl, Nat.zero_le _, fun _ => ⟨rfl, rfl⟩, .unready hr rfl⟩
  | some e => exact Or.inr ⟨e, _, rfl, rfl, rfl⟩

/-- Refilling does not stop before there is content, unless the end or a failure is reached. -/
theorem refill_eq (law : Readable s Left) {r : FileStore.Reader σ} {d : Decoding}
    {left text : Bytes} {ending : Option StreamError} {limit fuel : Nat} (hr : Left r left)
    (hd : d.outcome left = (text, ending)) (hlimit : 0 < limit) (hfuel : left.length + 2 ≤ fuel)
    (c : ContentReader σ) : Serving s Left limit text ending (refill r d limit fuel (c, s)) := by
  induction fuel generalizing r d left text c with
  | zero => exact absurd hfuel (by omega)
  | succ fuel ih =>
    cases d with
    | ended cause => exact serving_ended hr hd c
    | live decoder =>
      -- The fetch says whether the file is at its end.
      obtain ⟨fetched, rest, r', hread, rfl, -, hend, hr'⟩ := law.read_ok hr Codec.fetchSize_pos
      cases fetched with
      | nil =>
        obtain rfl := hend rfl
        rw [refill_end hread]
        rw [List.nil_append, Decoding.outcome_nil] at hd
        -- Closing takes one more round, which finds the stream ended.
        obtain ⟨fuel, rfl⟩ : ∃ n, fuel = n + 1 := ⟨fuel - 1, by omega⟩
        exact serving_ended hr' hd _
      | cons first others =>
        rw [Decoding.outcome_append] at hd
        obtain ⟨content, further, hfeed⟩ : ∃ content further,
          (Decoding.live decoder).feed (first :: others) = (content, further) := ⟨_, _, rfl⟩
        rw [hfeed] at hd
        obtain ⟨rfl, hending⟩ := Prod.mk.inj hd
        have hlater : further.outcome rest = ((further.outcome rest).1, ending) :=
          Prod.ext rfl hending
        cases content with
        | nil =>
          rw [refill_silent hread hfeed]
          apply ih hr' hlater
          rw [List.cons_append, List.length_cons, List.length_append] at hfuel
          omega
        | cons b ready =>
          rw [refill_ready hread hfeed]
          exact serving_ready hr' hlater hlimit (List.cons_ne_nil b ready)

/-- A reader serves what it gives; reading changes nothing in the store. -/
theorem serves_of_readable (law : Readable s Left) : Serves (read (σ := σ))
    (fun t text ending => t.2 = s ∧ t.1.Gives Left text ending) fun t => t.2 = s := by
  refine ⟨?_⟩
  rintro ⟨c, s'⟩ text ending limit ⟨hs, hc⟩ hlimit
  obtain rfl : s' = s := hs
  suffices h : Serving s' Left limit text ending (read limit (c, s')) by
    rcases h with ⟨piece, more, c', hread, htext, hlen, hnil, hc'⟩ | ⟨e, c', hread, htext, hend⟩
    · exact Or.inl ⟨piece, more, (c', s'), hread, htext, hlen, hnil, rfl, hc'⟩
    · exact Or.inr ⟨e, (c', s'), hread, htext, hend, rfl⟩
  cases hc with
  | inline =>
    refine Or.inl ⟨text.take limit, text.drop limit, .inline (text.drop limit), rfl,
      (List.take_append_drop _ _).symm, ?_, fun h => ⟨?_, rfl⟩, .inline _⟩
    · rw [List.length_take]
      exact Nat.min_le_left _ _
    · by_contra htext
      exact take_ne_nil hlimit htext h
  | plain hr =>
    obtain ⟨piece, more, r', hread, htext, hlen, hnil, hr'⟩ := law.read_ok hr hlimit
    refine Or.inl ⟨piece, more, .plain r', ?_, htext, hlen, fun h => ⟨hnil h, rfl⟩, .plain hr'⟩
    simp only [read, hread]
  | @framed r decoding left ready text _ hr hd =>
    cases ready with
    | nil =>
      have hfuel := law.unread_ge hr
      simp only [read, List.nil_append]
      exact refill_eq law hr hd hlimit (by omega) _
    | cons b ready => exact serving_ready hr hd hlimit (List.cons_ne_nil b ready)

end ContentReader

end LargeObjects
