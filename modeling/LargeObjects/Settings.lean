import LargeObjects.Compression.Stream
import LargeObjects.Error

/-! The settings of a database's large-object area. -/
namespace LargeObjects

structure Settings where
  /-- The largest value, in units of its kind, that is kept without a file. -/
  inlineThreshold : Nat := 128
  /-- The number of places in a directory of the tree, one of which stays unused. -/
  fanout : UInt32 := 256
  binaryCompression : Option Algorithm := none
  characterCompression : Option Algorithm := none
  layout : Layout := .sharded
  /-- How many directories the search for a free object id looks at. -/
  maxProbes : UInt32 := 1024
deriving DecidableEq

namespace Settings

def compressionFor (s : Settings) : Kind → Option Algorithm
  | .binary => s.binaryCompression
  | .character => s.characterCompression

def objection? (s : Settings) : Option Unsupported :=
  if s.fanout < 2 then some (.fanoutTooSmall s.fanout)
  else if s.maxProbes = 0 then some .noProbes
  else none

end Settings

end LargeObjects
