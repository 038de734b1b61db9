import LargeObjects.Bytes
import LargeObjects.Store.Error

/-! The codec of compressed files, which is a parameter. Nothing is known of it but what its users
rely on: octets are decoded one after the other, so that how they arrive makes no difference, and
the law that decoding undoes encoding is a class of its own. -/
namespace LargeObjects

/-- A codec for streams. Each of its operations may fail. An encoder takes content, and answers the
octets that it puts out for it; the end of the stream may hold octets back until then. A decoder
takes the octets of a stream, and answers the content that an octet completes, which is bounded. -/
class Codec where
  Encoder : Type
  Decoder : Type
  newEncoder (level : Int) : Except StreamError Encoder
  absorb (encoder : Encoder) (content : Bytes) : Except StreamError (Encoder × Bytes)
  /-- Puts out octets from which all content taken so far can be decoded. -/
  flush (encoder : Encoder) : Except StreamError (Encoder × Bytes)
  /-- Puts out what completes the stream. -/
  finish (encoder : Encoder) : Except StreamError Bytes
  newDecoder : Except StreamError Decoder
  step (decoder : Decoder) (octet : UInt8) : Except StreamError (Decoder × Bytes)
  /-- Takes notice that there are no more octets. -/
  close (decoder : Decoder) : Except StreamError Unit
  /-- The most content that one octet completes. -/
  expansion : Nat
  length_step_le {decoder further : Decoder} {octet : UInt8} {content : Bytes} :
    step decoder octet = .ok (further, content) → content.length ≤ expansion
  /-- How many octets are fetched for a decoder at a time. -/
  fetchSize : Nat
  fetchSize_pos : 0 < fetchSize

variable [Codec]

inductive Decoding where
  | live (decoder : Codec.Decoder)
  /-- Nothing more is decoded, at the end or because of a failure. -/
  | ended (cause : Option StreamError)

namespace Decoding

/-- Takes octets; answers the content that they complete in front of `past`, both with the last octet
first. Content that comes before a failure counts. -/
def feedOnto : Codec.Decoder → Bytes → Bytes → Bytes × Decoding
  | decoder, [], past => (past, live decoder)
  | decoder, octet :: octets, past =>
    match Codec.step decoder octet with
    | .ok (decoder, content) => feedOnto decoder octets (content.reverseAux past)
    | .error e => (past, ended (some e))

def feed : Decoding → Bytes → Bytes × Decoding
  | live decoder, octets =>
    let (past, further) := feedOnto decoder octets []
    (past.reverse, further)
  | ended cause, _ => ([], ended cause)

def failure? : Decoding → Option StreamError
  | live decoder =>
    match Codec.close decoder with
    | .ok _ => none
    | .error e => some e
  | ended cause => cause

def close (d : Decoding) : Decoding := ended d.failure?

def outcome (d : Decoding) (octets : Bytes) : Bytes × Option StreamError :=
  ((d.feed octets).1, (d.feed octets).2.failure?)

end Decoding

namespace Codec

inductive Call where
  | write (chunk : Bytes)
  | flush
deriving DecidableEq

namespace Call

def chunk : Call → Bytes
  | write chunk => chunk
  | flush => []

def perform (encoder : Encoder) : Call → Except StreamError (Encoder × Bytes)
  | write chunk => absorb encoder chunk
  | flush => Codec.flush encoder

end Call

def encodeFrom (encoder : Encoder) : List Call → Except StreamError Bytes
  | [] => finish encoder
  | call :: calls =>
    match call.perform encoder with
    | .error e => .error e
    | .ok (encoder, octets) => (encodeFrom encoder calls).map (octets ++ ·)

def encode (level : Int) (calls : List Call) : Except StreamError Bytes :=
  match newEncoder level with
  | .error e => .error e
  | .ok encoder => encodeFrom encoder calls

def decode (stream : Bytes) : Except StreamError Bytes :=
  match newDecoder with
  | .error e => .error e
  | .ok decoder =>
    match (Decoding.live decoder).outcome stream with
    | (content, none) => .ok content
    | (_, some e) => .error e

/-- The decoder inverts the encoder: at every level, for every sequence of writes and flushes, there
is a stream, from which the decoder gets the chunks that were written one after the other. -/
class Inverts : Prop where
  exists_encode (level : Int) (calls : List Call) : ∃ stream, encode level calls = .ok stream
  decode_encode {level : Int} {calls : List Call} {stream : Bytes} :
    encode level calls = .ok stream → decode stream = .ok (calls.flatMap Call.chunk)

end Codec

end LargeObjects
