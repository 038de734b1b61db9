import LargeObjects.Bytes
import LargeObjects.Store.FileStore

/-! Reading up to the end. What a stream gives is gathered in a buffer that grows, and the room in
the buffer says how much is asked for at a time. Each request is a call that can fail, and what a
file system reads ahead depends on it, so the sizes of the requests can be observed. -/
namespace LargeObjects

/-- A buffer being filled. `opening` is the capacity that it came with, `stride` the most that it
asks for; `pieces` holds what was given, the last piece first, and `size` is its length. -/
structure Gathering where
  opening : Nat
  capacity : Nat
  stride : Nat
  size : Nat := 0
  pieces : List Bytes := []
deriving DecidableEq

namespace Gathering

def probeSize : Nat := 32

def firstStride : Nat := 8192

def leastCapacity : Nat := 8

def ofCapacity (capacity : Nat) : Gathering :=
  { opening := capacity, capacity, stride := firstStride }

def bytes (g : Gathering) : Bytes := g.pieces.reverse.flatten

def capacityFor (g : Gathering) (more : Nat) : Nat :=
  if g.size + more ≤ g.capacity then g.capacity
  else max leastCapacity (max (2 * g.capacity) (g.size + more))

/-- Whether to find out that there is more before the buffer grows: at the start if there is little
room, and when a buffer is full that may have been made to measure. -/
def probes (g : Gathering) : Bool :=
  (g.size = 0 ∧ g.capacity < probeSize) ∨ (g.size = g.capacity ∧ g.capacity = g.opening)

def extended (g : Gathering) : Gathering := { g with capacity := g.capacityFor probeSize }

/-- The buffer before the next request. A probe does without room in it. -/
def prepared (g : Gathering) : Gathering := if g.probes then g else g.extended

def request (g : Gathering) : Nat :=
  if g.probes then probeSize else min (g.extended.capacity - g.size) g.stride

/-- Takes in what a request has brought. A stream that fills the longest request gets longer ones.
-/
def add (g : Gathering) (piece : Bytes) : Gathering :=
  let fills := !g.probes && g.request = g.stride && piece.length = g.stride
  { g with
    capacity := g.prepared.capacityFor piece.length
    stride := if fills then 2 * g.stride else g.stride
    size := g.size + piece.length
    pieces := piece :: g.pieces }

/-- Gathers with `read` up to the end or up to `limit` bytes, if there is a limit. Nothing is asked
for past the limit. `fuel` bounds the number of requests. -/
def fill {ε τ : Type} (read : Nat → Step ε τ Bytes) :
    Nat → Option Nat → Gathering → Step ε τ Gathering
  | 0, _, g => pure g
  | fuel + 1, limit, g =>
    let wanted := match limit with
      | none => g.request
      | some n => min g.request n
    if wanted = 0 then pure g.prepared
    else do
      let piece ← read wanted
      if piece = [] then pure g.prepared
      else fill read fuel (limit.map (· - piece.length)) (g.add piece)

end Gathering

end LargeObjects
