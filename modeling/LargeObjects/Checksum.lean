import LargeObjects.Bytes

/-! The 32-bit cyclic redundancy check of IEEE 802.3, bits taken lowest first. -/
namespace LargeObjects.Checksum

def polynomial : UInt32 := 0xEDB88320

def bitStep (register : UInt32) : UInt32 :=
  if register &&& 1 = 1 then (register >>> 1) ^^^ polynomial else register >>> 1

def byteStep (register : UInt32) (byte : UInt8) : UInt32 :=
  let r := register ^^^ byte.toUInt32
  bitStep (bitStep (bitStep (bitStep (bitStep (bitStep (bitStep (bitStep r)))))))

def crc32 (bytes : Bytes) : UInt32 :=
  bytes.foldl byteStep 0xFFFFFFFF ^^^ 0xFFFFFFFF

end LargeObjects.Checksum
