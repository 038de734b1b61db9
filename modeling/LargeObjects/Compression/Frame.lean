import LargeObjects.Compression.Codec
import LargeObjects.Compression.Repetition

/-! A codec to run with: Zstandard frames whose blocks are of a few sorts only. Content is written in
stored blocks and in blocks that hold one repetition each. The reader takes these and run-length
blocks and refuses what is packed in any other way; it skips skippable frames and goes from one frame
to the next. It is a machine over single octets, so how the octets arrive makes no difference.

What is said of content anywhere is said for every codec. This one is for programs that run, and
shows that the law of codecs can be met. -/
namespace LargeObjects.Frame

def magic : Bytes := [0x28, 0xB5, 0x2F, 0xFD]

def blockLimit : Nat := 131072

/-- The start of a frame of unknown size with a window of one block. -/
def header : Bytes := magic ++ [0x00, 0x38]

def littleEndian : Nat → Nat → Bytes
  | 0, _ => []
  | width + 1, n => UInt8.ofNat (n % 256) :: littleEndian width (n / 256)

def value : Bytes → Nat
  | [] => 0
  | b :: rest => b.toNat + 256 * value rest

inductive BlockSort where
  | stored
  | run
  | packed
  | reserved
deriving DecidableEq

namespace BlockSort

def code : BlockSort → Nat
  | stored => 0
  | run => 1
  | packed => 2
  | reserved => 3

def ofCode : Nat → BlockSort
  | 0 => stored
  | 1 => run
  | 2 => packed
  | _ => reserved

end BlockSort

def blockHeader (last : Bool) (sort : BlockSort) (size : Nat) : Bytes :=
  littleEndian 3 (8 * size + 2 * sort.code + last.toNat)

def storedBlock (last : Bool) (content : Bytes) : Bytes :=
  blockHeader last .stored content.length ++ content

/-- The start of a packed block without plain octets and with one repetition, whose parts have no
codes but the given ones. -/
def repetitionLead : Bytes := [0x00, 0x01, 0x54, 0x00]

/-- What is added to a distance, because the smallest codes mean recent distances. -/
def distanceShift : Nat := 3

/-- What is taken off a count, because no repetition is shorter. -/
def countShift : Nat := 3

def countCodes : Nat := 36

/-- A repetition in a packed block. A number is told by how many bits follow its highest one, and
then by these bits; those of the distance are above those of the count, under a closing bit. -/
def repetition (distance count : Nat) : Bytes :=
  let far := distance + distanceShift
  let long := count - countShift
  let bits := far.log2 + long.log2
  repetitionLead ++ [UInt8.ofNat far.log2, UInt8.ofNat (countCodes + long.log2)] ++
    littleEndian (bits / 8 + 1) (far * (1 <<< long.log2) + (long - (1 <<< long.log2)))

def repetition? (block : Bytes) : Option (Nat × Nat) :=
  match block with
  | a :: b :: c :: d :: farCode :: countCode :: bits =>
    let n := value bits
    let width := countCode.toNat - countCodes
    let far := n >>> width
    if [a, b, c, d] = repetitionLead ∧ countCodes ≤ countCode.toNat ∧ distanceShift < far ∧
        far.log2 = farCode.toNat then
      some (far - distanceShift, n % (1 <<< width) + (1 <<< width) + countShift)
    else none
  | _ => none

def block : Piece → Bytes
  | .plain octets => storedBlock false octets
  | .again distance count =>
    let packed := repetition distance count
    blockHeader false .packed packed.length ++ packed

def blocks (content : Bytes) : Bytes := (Piece.ofContent content).flatMap block

def fullBlocks : Nat → Bytes → Bytes
  | 0, _ => []
  | count + 1, content =>
    blocks (content.take blockLimit) ++ fullBlocks count (content.drop blockLimit)

/-- A frame being written: `pending` is content that fills no block yet. -/
structure Encoder where
  started : Bool := false
  pending : Bytes := []
deriving DecidableEq

namespace Encoder

def lead (e : Encoder) : Bytes := if e.started then [] else header

def absorb (e : Encoder) (content : Bytes) : Encoder × Bytes :=
  let all := e.pending ++ content
  let count := all.length / blockLimit
  if count = 0 then ({ e with pending := all }, [])
  else
    ({ started := true, pending := all.drop (count * blockLimit) },
      e.lead ++ fullBlocks count all)

def flush (e : Encoder) : Encoder × Bytes :=
  if e.pending = [] then (e, [])
  else ({ started := true, pending := [] }, e.lead ++ blocks e.pending)

def final (e : Encoder) : Bytes := e.lead ++ blocks e.pending ++ storedBlock true []

end Encoder

inductive Phase where
  /-- Before the first frame. -/
  | start
  /-- After a frame; another may follow. -/
  | finished
  /-- Inside the number that starts a frame. -/
  | magic (seen : Bytes)
  /-- Before the octet that tells which header fields there are. -/
  | descriptor
  /-- Header fields are left; `sum` tells of a checksum after the last block. -/
  | fields (left : Nat) (sum : Bool)
  | blockHeader (seen : Bytes) (sum : Bool)
  /-- Octets of a stored block are left. -/
  | stored (left : Nat) (last sum : Bool)
  /-- Before the octet that a block repeats. -/
  | run (count : Nat) (last sum : Bool)
  /-- Octets of a packed block are left. Those seen have the last one first. -/
  | packed (left : Nat) (seen : Bytes) (last sum : Bool)
  | checksum (left : Nat)
  /-- Inside the size of a skippable frame. -/
  | skipSize (seen : Bytes)
  | skip (left : Nat)
deriving DecidableEq

namespace Phase

/-- A skippable frame starts with one of sixteen numbers, which differ in their lowest half octet.
-/
def isSkippable : Bytes → Bool
  | [] => true
  | b :: rest => b &&& 0xF0 = 0x50 ∧ rest <+: [0x2A, 0x4D, 0x18]

def afterMagic (seen : Bytes) : Except StreamError Phase :=
  if seen = Frame.magic then .ok descriptor
  else if seen <+: Frame.magic then .ok (magic seen)
  else if isSkippable seen then .ok (if seen.length = 4 then skipSize [] else magic seen)
  else .error .unknownFrame

/-- The number of octets in the header fields that a descriptor announces: the window unless the
frame is a single segment, a dictionary's number and the size of the content. -/
def fieldsLength (descriptor : UInt8) : Nat :=
  let single := descriptor &&& 0x20 ≠ 0
  let window := if single then 0 else 1
  let dictionary := match descriptor.toNat % 4 with
    | 0 => 0
    | 1 => 1
    | 2 => 2
    | _ => 4
  let size := match descriptor.toNat / 64 with
    | 0 => if single then 1 else 0
    | 1 => 2
    | 2 => 4
    | _ => 8
  window + dictionary + size

def afterBlock (last sum : Bool) : Phase :=
  if last then (if sum then checksum 4 else finished) else blockHeader [] sum

def afterBlockHeader (n : Nat) (sum : Bool) : Except StreamError Phase :=
  let last := n % 2 = 1
  let size := n / 8
  match BlockSort.ofCode (n / 2 % 4) with
  | .stored => .ok (if size = 0 then afterBlock last sum else stored size last sum)
  | .run => .ok (run size last sum)
  | .packed => if size = 0 then .error .corruptFrame else .ok (packed size [] last sum)
  | .reserved => .error .corruptFrame

end Phase

structure Decoder where
  phase : Phase := .start
  past : Bytes := []
deriving DecidableEq

def expansionLimit : Nat := 2097152

namespace Decoder

def extend (past : Bytes) (p : Piece) (phase : Phase) : Except StreamError (Decoder × Bytes) :=
  if p.reaches past ∧ p.size ≤ expansionLimit then
    let further := p.append past
    .ok ({ phase, past := further }, (further.take p.size).reverse)
  else .error .corruptFrame

def unpack (past block : Bytes) (last sum : Bool) : Except StreamError (Decoder × Bytes) :=
  match repetition? block with
  | none => .error .corruptFrame
  | some (distance, count) => extend past (.again distance count) (.afterBlock last sum)

def go (past : Bytes) (phase : Phase) : Decoder × Bytes := ({ phase, past }, [])

def step (d : Decoder) (b : UInt8) : Except StreamError (Decoder × Bytes) :=
  match d.phase with
  | .start => (Phase.afterMagic [b]).map (go d.past)
  | .finished => (Phase.afterMagic [b]).map (go d.past)
  | .magic seen => (Phase.afterMagic (seen ++ [b])).map (go d.past)
  | .descriptor => .ok (go d.past (.fields (Phase.fieldsLength b) (b &&& 0x04 ≠ 0)))
  | .fields left sum =>
    .ok (go d.past (if left ≤ 1 then .blockHeader [] sum else .fields (left - 1) sum))
  | .blockHeader seen sum =>
    if seen.length < 2 then .ok (go d.past (.blockHeader (seen ++ [b]) sum))
    else (Phase.afterBlockHeader (value (seen ++ [b])) sum).map (go d.past)
  | .stored left last sum =>
    extend d.past (.plain [b])
      (if left ≤ 1 then .afterBlock last sum else .stored (left - 1) last sum)
  | .run count last sum => extend d.past (.plain (List.replicate count b)) (.afterBlock last sum)
  | .packed left seen last sum =>
    if left ≤ 1 then unpack d.past (b :: seen).reverse last sum
    else .ok (go d.past (.packed (left - 1) (b :: seen) last sum))
  | .checksum left => .ok (go d.past (if left ≤ 1 then .finished else .checksum (left - 1)))
  | .skipSize seen =>
    if seen.length < 3 then .ok (go d.past (.skipSize (seen ++ [b])))
    else
      let n := value (seen ++ [b])
      .ok (go d.past (if n = 0 then .finished else .skip n))
  | .skip left => .ok (go d.past (if left ≤ 1 then .finished else .skip (left - 1)))

def close (d : Decoder) : Except StreamError Unit :=
  match d.phase with
  | .finished => .ok ()
  | _ => .error .incompleteFrame

section Bounds

variable {d further : Decoder} {past content : Bytes}

theorem length_extend_le {p : Piece} {phase : Phase}
    (h : extend past p phase = .ok (further, content)) : content.length ≤ expansionLimit := by
  unfold extend at h
  split at h
  next hp =>
    cases h
    rw [List.length_reverse, List.length_take]
    exact Nat.le_trans (Nat.min_le_left _ _) hp.2
  next => cases h

theorem content_go {phase : Phase} (h : .ok (go past phase) = Except.ok (ε := StreamError)
    (further, content)) : content = [] := by
  cases h
  rfl

theorem content_map_go {phase? : Except StreamError Phase}
    (h : phase?.map (go past) = .ok (further, content)) : content = [] := by
  cases phase? with
  | ok phase => exact content_go h
  | error e => cases h

/-- One octet completes content in one piece, or none. -/
theorem length_step_le {b : UInt8} (h : d.step b = .ok (further, content)) :
    content.length ≤ expansionLimit := by
  have hnone : content = [] → content.length ≤ expansionLimit := by
    rintro rfl
    exact Nat.zero_le _
  cases hphase : d.phase with
  | stored left last sum | run count last sum =>
    simp only [step, hphase] at h
    exact length_extend_le h
  | packed left seen last sum =>
    simp only [step, hphase] at h
    split at h
    · unfold unpack at h
      split at h
      next => cases h
      next => exact length_extend_le h
    · exact hnone (content_go h)
  | start | finished | magic seen =>
    simp only [step, hphase] at h
    exact hnone (content_map_go h)
  | blockHeader seen sum =>
    simp only [step, hphase] at h
    split at h
    · exact hnone (content_go h)
    · exact hnone (content_map_go h)
  | skipSize seen =>
    simp only [step, hphase] at h
    split at h <;> exact hnone (content_go h)
  | descriptor | fields left sum | checksum left | skip left =>
    simp only [step, hphase] at h
    exact hnone (content_go h)

end Bounds

end Decoder

/-- Frames as a codec. All levels are alike. -/
instance codec : Codec where
  Encoder := Encoder
  Decoder := Decoder
  newEncoder _ := .ok {}
  absorb e content := .ok (e.absorb content)
  flush e := .ok e.flush
  finish e := .ok e.final
  newDecoder := .ok {}
  step := Decoder.step
  close := Decoder.close
  expansion := expansionLimit
  length_step_le := Decoder.length_step_le
  fetchSize := blockLimit + 3
  fetchSize_pos := by decide

end LargeObjects.Frame
