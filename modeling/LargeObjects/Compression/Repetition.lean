import Std.Data.HashMap
import LargeObjects.Bytes

/-! Content as pieces: octets as they are, and repetitions of what came before. -/
namespace LargeObjects

/-- A part of content. A repetition starts `distance` octets back and goes on for `count` octets; it
may run into itself, and then goes round. -/
inductive Piece where
  | plain (octets : Bytes)
  | again (distance count : Nat)
deriving DecidableEq

namespace Piece

def size : Piece → Nat
  | plain octets => octets.length
  | again _ count => count

/-- Puts `count` octets of an endless repetition of `period` in front of `past`, the last one first;
`rest` is what is left of the round. -/
def goRound (period : Bytes) : Nat → Bytes → Bytes → Bytes
  | 0, _, past => past
  | count + 1, b :: rest, past => goRound period count rest (b :: past)
  | count + 1, [], past =>
    match period with
    | [] => past
    | b :: rest => goRound period count rest (b :: past)

/-- What is there after a piece; `past` is what is there before, both with the last octet first. -/
def append (past : Bytes) : Piece → Bytes
  | plain octets => octets.reverseAux past
  | again distance count => goRound (past.take distance).reverse count [] past

def reaches (past : Bytes) : Piece → Bool
  | plain _ => true
  | again distance _ => 0 < distance ∧ distance ≤ past.length

def content (pieces : List Piece) : Bytes := (pieces.foldl append []).reverse

def leastCount : Nat := 131

def keySize : Nat := 8

def key (content : Array UInt8) (place : Nat) : UInt64 :=
  (List.range keySize).foldl
    (fun k i => k * 257 + ((content.getD (place + i) 0).toUInt64 + 1)) 0

def agreement (content : Array UInt8) (earlier later count : Nat) : Nat :=
  if h : later + count < content.size then
    if content.getD (earlier + count) 0 = content[later + count] then
      agreement content earlier later (count + 1)
    else count
  else count
termination_by content.size - (later + count)

def consPlain (octets : Bytes) (pieces : List Piece) : List Piece :=
  if octets = [] then pieces else plain octets :: pieces

/-- Goes through content from a place on. `seen` has for each key the last place where it was looked
up, `octets` are those not in a piece yet, with the last one first, as `pieces` has the last piece.
-/
def planFrom (content : Array UInt8) (place : Nat) (seen : Std.HashMap UInt64 Nat)
    (octets : Bytes) (pieces : List Piece) : List Piece :=
  if h : place < content.size then
    let k := key content place
    let found : Option (Nat × Nat) := do
      let earlier ← seen[k]?
      let count := agreement content earlier place 0
      if leastCount ≤ count ∧ earlier < place then some (place - earlier, count) else none
    match found with
    | some (distance, count) =>
      planFrom content (place + max 1 count) (seen.insert k place) []
        (again distance count :: consPlain octets.reverse pieces)
    | none =>
      planFrom content (place + 1) (seen.insert k place) (content[place] :: octets) pieces
  else (consPlain octets.reverse pieces).reverse
termination_by content.size - place

/-- Content in pieces. What is found is checked, so that the pieces make the content whatever was
looked up. -/
def ofContent (octets : Bytes) : List Piece :=
  let pieces := planFrom octets.toArray 0 ∅ [] []
  if content pieces = octets then pieces else consPlain octets []

theorem content_ofContent (octets : Bytes) : content (ofContent octets) = octets := by
  unfold ofContent
  simp only
  split
  next h => exact h
  next => by_cases h : octets = [] <;> simp [consPlain, h, content, append]

end Piece

end LargeObjects
