/-!
# CRC-32

The reflected cyclic redundancy check with generator `0x04C11DB7` that every data block carries,
one bit at a time: bits go in least significant first, the register starts as all ones and is
inverted at the end.
-/

namespace NorLoader.Crc32

/-- The generator with its bits reversed; the term of degree 32 is implicit. -/
def generator : UInt32 := 0xEDB88320

/-- Divides the register by `x` once. -/
def shift (c : UInt32) : UInt32 :=
  if c &&& 1 = 1 then (c >>> 1) ^^^ generator else c >>> 1

/-- Takes up a byte, its bits least significant first. -/
def addByte (c : UInt32) (b : UInt8) : UInt32 :=
  let c := c ^^^ b.toUInt32
  shift (shift (shift (shift (shift (shift (shift (shift c)))))))

/-- Takes up some data. -/
def register (c : UInt32) (data : List UInt8) : UInt32 := data.foldl addByte c

/-- The check of a block: the register starts as all ones and is inverted at the end. -/
def checksum (data : List UInt8) : UInt32 := ~~~(register 0xFFFFFFFF data)

end NorLoader.Crc32
