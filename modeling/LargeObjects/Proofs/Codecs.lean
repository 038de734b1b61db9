import Mathlib
import LargeObjects.Compression.Codec

/-! Decoding a stream octet by octet, and what the law of a codec says about a stream that is only half
written: whatever is asked of its encoder from here on, the end of the stream is still in reach, and
what has been put out so far will be decoded to what has been taken so far. -/
namespace LargeObjects

variable [Codec]

namespace Decoding

variable {decoder further : Codec.Decoder} {octet : UInt8} {content : Bytes}

/-- What was decoded before is carried along and not looked at. -/
theorem feedOnto_eq (decoder : Codec.Decoder) (octets past : Bytes) :
    feedOnto decoder octets past =
      ((feedOnto decoder octets []).1 ++ past, (feedOnto decoder octets []).2) := by
  induction octets generalizing decoder past with
  | nil => rfl
  | cons octet octets ih =>
    unfold feedOnto
    split
    next further content hstep =>
      rw [ih further (content.reverseAux past), ih further (content.reverseAux []),
        List.reverseAux_eq, List.reverseAux_eq, List.append_nil, List.append_assoc]
    next => rfl

theorem feed_nil (d : Decoding) : d.feed [] = ([], d) := by
  cases d <;> rfl

theorem feed_cons (hstep : Codec.step decoder octet = .ok (further, content)) (octets : Bytes) :
    (live decoder).feed (octet :: octets) =
      (content ++ ((live further).feed octets).1, ((live further).feed octets).2) := by
  simp only [feed, feedOnto, hstep]
  rw [feedOnto_eq, List.reverseAux_eq, List.append_nil, List.reverse_append, List.reverse_reverse]

theorem feed_cons_error {e : StreamError} (hstep : Codec.step decoder octet = .error e)
    (octets : Bytes) : (live decoder).feed (octet :: octets) = ([], ended (some e)) := by
  simp only [feed, feedOnto, hstep, List.reverse_nil]

/-- How many octets arrive at a time makes no difference. -/
theorem feed_append (d : Decoding) (a b : Bytes) :
    d.feed (a ++ b) = ((d.feed a).1 ++ ((d.feed a).2.feed b).1, ((d.feed a).2.feed b).2) := by
  induction a generalizing d with
  | nil => rw [feed_nil, List.nil_append, List.nil_append]
  | cons octet a ih =>
    cases d with
    | ended cause => rfl
    | live decoder =>
      cases hstep : Codec.step decoder octet with
      | error e =>
        -- A decoder that has failed takes whatever follows and makes nothing of it.
        rw [List.cons_append, feed_cons_error hstep, feed_cons_error hstep]
        rfl
      | ok result =>
        obtain ⟨further, content⟩ := result
        rw [List.cons_append, feed_cons hstep, feed_cons hstep, ih, List.append_assoc]

/-- The content that some octets complete comes first, and the rest decides how it ends. -/
theorem outcome_append (d : Decoding) (a b : Bytes) :
    d.outcome (a ++ b) = ((d.feed a).1 ++ ((d.feed a).2.outcome b).1, ((d.feed a).2.outcome b).2) := by
  unfold outcome
  rw [feed_append]

theorem outcome_nil (d : Decoding) : d.outcome [] = ([], d.failure?) := by
  unfold outcome
  rw [feed_nil]

/-- Content is not out of proportion to the octets that it comes from. -/
theorem length_feed_le (d : Decoding) (octets : Bytes) :
    (d.feed octets).1.length ≤ Codec.expansion * octets.length := by
  induction octets generalizing d with
  | nil =>
    rw [feed_nil]
    exact Nat.zero_le _
  | cons octet octets ih =>
    cases d with
    | ended cause => exact Nat.zero_le _
    | live decoder =>
      cases hstep : Codec.step decoder octet with
      | error e =>
        rw [feed_cons_error hstep]
        exact Nat.zero_le _
      | ok result =>
        obtain ⟨further, content⟩ := result
        rw [feed_cons hstep, List.length_append, List.length_cons]
        calc content.length + ((live further).feed octets).1.length
            ≤ Codec.expansion + Codec.expansion * octets.length :=
              Nat.add_le_add (Codec.length_step_le hstep) (ih (live further))
          _ = Codec.expansion * (octets.length + 1) := by
              rw [Nat.mul_succ, Nat.add_comm]

end Decoding

namespace Codec

variable {level : Int} {encoder : Encoder} {stream written content : Bytes}

theorem decode_eq_ok : decode stream = .ok content ↔
    ∃ decoder, newDecoder = .ok decoder ∧ (Decoding.live decoder).outcome stream = (content, none) := by
  unfold decode
  cases hnew : newDecoder with
  | error e => exact ⟨nofun, nofun⟩
  | ok decoder =>
    obtain ⟨text, failure?, hout⟩ : ∃ text failure?,
      (Decoding.live decoder).outcome stream = (text, failure?) := ⟨_, _, rfl⟩
    simp only [hout, Except.ok.injEq, exists_eq_left']
    cases failure? with
    | none => rw [Except.ok.injEq, Prod.mk.injEq, eq_self, and_true]
    | some e => exact ⟨nofun, nofun⟩

theorem length_decode_le (h : decode stream = .ok content) :
    content.length ≤ expansion * stream.length := by
  obtain ⟨decoder, -, hout⟩ := decode_eq_ok.1 h
  have htext : ((Decoding.live decoder).feed stream).1 = content := congrArg Prod.fst hout
  rw [← htext]
  apply Decoding.length_feed_le

theorem encodeFrom_cons {call : Call} {calls : List Call}
    (h : encodeFrom encoder (call :: calls) = .ok stream) :
    ∃ further octets rest, call.perform encoder = .ok (further, octets) ∧
      encodeFrom further calls = .ok rest ∧ stream = octets ++ rest := by
  unfold encodeFrom at h
  cases hcall : call.perform encoder with
  | error e =>
    rw [hcall] at h
    cases h
  | ok result =>
    obtain ⟨further, octets⟩ := result
    rw [hcall] at h
    dsimp only at h
    cases hrest : encodeFrom further calls with
    | error e =>
      rw [hrest] at h
      cases h
    | ok rest =>
      rw [hrest] at h
      cases h
      exact ⟨further, octets, rest, rfl, hrest, rfl⟩

/-- An encoder that has taken `content` and has put out `written` for it. Whatever is asked of it
until the end, the stream as a whole is decoded to this and what follows. -/
def Carries (encoder : Encoder) (written content : Bytes) : Prop :=
  ∀ calls, ∃ rest, encodeFrom encoder calls = .ok rest ∧
    decode (written ++ rest) = .ok (content ++ calls.flatMap Call.chunk)

/-- Each call leaves the rest of the stream to the calls after it. -/
theorem Carries.perform (h : Carries encoder written content) (call : Call) :
    ∃ further octets, call.perform encoder = .ok (further, octets) ∧
      Carries further (written ++ octets) (content ++ call.chunk) := by
  obtain ⟨stream, hstream, -⟩ := h [call]
  obtain ⟨further, octets, -, hcall, -, -⟩ := encodeFrom_cons hstream
  refine ⟨further, octets, hcall, fun calls => ?_⟩
  obtain ⟨stream, hstream, hdecode⟩ := h (call :: calls)
  obtain ⟨further', octets', rest, hcall', hrest, rfl⟩ := encodeFrom_cons hstream
  obtain ⟨rfl, rfl⟩ : further' = further ∧ octets' = octets := by
    rw [hcall] at hcall'
    cases hcall'
    exact ⟨rfl, rfl⟩
  refine ⟨rest, hrest, ?_⟩
  rw [List.append_assoc, List.append_assoc, ← List.flatMap_cons]
  exact hdecode

theorem Carries.absorb (h : Carries encoder written content) (more : Bytes) :
    ∃ further octets, absorb encoder more = .ok (further, octets) ∧
      Carries further (written ++ octets) (content ++ more) :=
  h.perform (.write more)

theorem Carries.flush (h : Carries encoder written content) :
    ∃ further octets, flush encoder = .ok (further, octets) ∧
      Carries further (written ++ octets) content := by
  obtain ⟨further, octets, hflush, hcarries⟩ := h.perform .flush
  refine ⟨further, octets, hflush, ?_⟩
  rw [Call.chunk, List.append_nil] at hcarries
  exact hcarries

theorem Carries.finish (h : Carries encoder written content) :
    ∃ octets, finish encoder = .ok octets ∧ decode (written ++ octets) = .ok content := by
  obtain ⟨octets, hfinish, hdecode⟩ := h []
  refine ⟨octets, hfinish, ?_⟩
  rw [List.flatMap_nil, List.append_nil] at hdecode
  exact hdecode

section Law

variable [Inverts]

/-- By the law there is an encoder for every level. -/
theorem newEncoder_ok (level : Int) :
    ∃ encoder, newEncoder level = .ok encoder ∧ Carries encoder [] [] := by
  obtain ⟨stream, hstream⟩ := Inverts.exists_encode level []
  unfold encode at hstream
  cases hnew : newEncoder level with
  | error e =>
    rw [hnew] at hstream
    cases hstream
  | ok encoder =>
    refine ⟨encoder, rfl, fun calls => ?_⟩
    have hencode : encode level calls = encodeFrom encoder calls := by
      unfold encode
      rw [hnew]
    obtain ⟨stream, hstream⟩ := Inverts.exists_encode level calls
    exact ⟨stream, hencode.symm.trans hstream, Inverts.decode_encode hstream⟩

end Law

end Codec

end LargeObjects
