/-! How much of a source is read at a time. The first chunk decides whether a value needs a file, so
a chunk is larger than the inline threshold wherever more than the threshold may follow. -/
namespace LargeObjects.ChunkSize

def plainUnit : Nat := 4096

def compressedUnit : Nat := 131072

/-- The largest chunk, and the threshold from which on everything is taken at once. -/
def limit : Nat := UInt32.size - 1

def roundUp (n granularity : Nat) : Nat := (n + granularity - 1) / granularity * granularity

def next (remaining threshold : Nat) (compressed : Bool) : Nat :=
  let remaining := min remaining limit
  let threshold := if limit ≤ threshold then remaining else threshold
  let unit := if compressed then compressedUnit else plainUnit
  let unit :=
    if unit < remaining ∧ unit ≤ threshold then roundUp (min remaining (threshold + 1)) plainUnit
    else unit
  min remaining unit

end LargeObjects.ChunkSize
