/-! Byte strings, their hexadecimal text and their lexicographic order. -/
namespace LargeObjects

/-- Content is a list of octets, so that laws about it are laws about lists. -/
abbrev Bytes := List UInt8

namespace Bytes

def hexDigit (n : UInt8) : UInt8 := if n < 10 then 48 + n else 87 + n

def hex (bytes : Bytes) : Bytes :=
  bytes.flatMap fun (b : UInt8) => [hexDigit (b >>> 4), hexDigit (b &&& 15)]

/-- Unsigned octets decide at the first difference; a proper beginning comes first. -/
def order (a b : Bytes) : Ordering := compare a b

end Bytes

end LargeObjects
