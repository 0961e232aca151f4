/-!
# Flash geometry

The fixed sizes of the NOR family that the loader serves, and the sector arithmetic on them.
A sector is the smallest erase, a block is sixteen sectors, a page is the largest program the
chip takes in one go.
-/

namespace NorLoader

/-- The bytes of a sector, the smallest unit of an erase. -/
def sectorSize : Nat := 4096

/-- The sectors of a block. -/
def sectorsPerBlock : Nat := 16

/-- The bytes of a block, the other unit of an erase. -/
def blockSize : Nat := sectorSize * sectorsPerBlock

/-- The bytes of a page, the unit of a program. -/
def pageSize : Nat := 256

/-- Bytes in the decompression window, which is also the staging buffer of unpacked data. -/
def windowSize : Nat := 32768

/-- The longest payload of one data command on the board. -/
def maxPayload : Nat := 1024

/-- Index of the sector that holds an address. -/
def sectorIndex (addr : UInt32) : UInt32 := addr / UInt32.ofNat sectorSize

/-- Number of sectors that `size` bytes from `offset` on touch.  The span is computed in `Nat`,
    where it cannot wrap; the count itself always fits a word. -/
def sectorCount (offset size : UInt32) : UInt32 :=
  UInt32.ofNat ((offset.toNat % sectorSize + size.toNat + (sectorSize - 1)) / sectorSize)

/-- The units of an erase. -/
inductive EraseSize where
  | sector
  | block
  deriving DecidableEq, Repr

namespace EraseSize

/-- How many sectors a unit has. -/
def sectors : EraseSize → Nat
  | sector => 1
  | block => sectorsPerBlock

/-- How many bytes a unit has. -/
def bytes (s : EraseSize) : Nat := s.sectors * sectorSize

/-- The SPI NOR command of this erase. -/
def opcode : EraseSize → UInt8
  | sector => 0x20
  | block => 0xD8

end EraseSize

/-! ## The status word -/

/-- Status bit: a write or an erase is in progress. -/
def busyBit : UInt32 := 1

/-- Status bit of the second status byte: the four-lane interface is enabled. -/
def quadEnableBit : UInt32 := 0x200

/-- The status word with every protection bit cleared.  Only quad enable survives, since a chip
    that was started over four lanes would be lost without it. -/
def unprotected (status : UInt32) : UInt32 := status &&& quadEnableBit

/-- The sector of an address, without the word it is kept in. -/
theorem toNat_sectorIndex (addr : UInt32) :
    (sectorIndex addr).toNat = addr.toNat / sectorSize := by
  unfold sectorIndex
  rw [UInt32.toNat_div]
  rfl

/-- The sectors of a span, without the word they are counted in: no span has too many of them. -/
theorem toNat_sectorCount (offset size : UInt32) :
    (sectorCount offset size).toNat
      = (offset.toNat % sectorSize + size.toNat + (sectorSize - 1)) / sectorSize := by
  have hs := size.toNat_lt
  have ho : offset.toNat % sectorSize < sectorSize := Nat.mod_lt _ (by decide)
  unfold sectorCount
  apply UInt32.toNat_ofNat_of_lt'
  simp only [sectorSize] at ho ⊢
  show _ < 4294967296
  omega

end NorLoader
