import NorLoader.Flash.Device

/-!
# Driving a NOR chip over SPI

The chip is driven by transactions on a bus: chip select goes low, some bytes go out while as many
come in, and chip select goes high again.  Erases are started and left running.  A program is cut
at the page boundaries, because a chip wraps inside the page; each page is preceded by write enable
and waited for.
-/

namespace NorLoader

/-- A bus with one chip on it. -/
class SpiBus (β : Type) where
  /-- Clocks out some bytes in one transaction and gives the first bytes clocked in. -/
  exchange : List UInt8 → Nat → β → List UInt8 × β
  /-- How many further status reads may find the chip busy. -/
  busyPatience : β → Nat

/-- A NOR chip of some capacity in bytes, on a bus. -/
structure NorChip (β : Type) where
  capacity : Nat
  bus : β

namespace NorChip

/-! ## Commands of the chip -/

/-- Write the status registers. -/
def writeStatusOp : UInt8 := 0x01

/-- Program a page. -/
def programOp : UInt8 := 0x02

/-- Read the first status register. -/
def readStatusOp : UInt8 := 0x05

/-- Set the write enable latch. -/
def enableWriteOp : UInt8 := 0x06

/-- Read the second status register. -/
def readStatus2Op : UInt8 := 0x35

/-- The status bits that protect some of the array or the status itself: block protection 0 to 2,
    top/bottom, sector, complement and both status locks. -/
def protectionBits : UInt32 := 0x41FC

/-- A command with the address it is for, in three bytes. -/
def addressed (op : UInt8) (addr : UInt32) : List UInt8 :=
  [op, (addr >>> 16).toUInt8, (addr >>> 8).toUInt8, addr.toUInt8]

/-- Cuts bytes at the page boundaries; each piece comes with its address. -/
def pages (addr : UInt32) (data : List UInt8) : List (UInt32 × List UInt8) :=
  match data with
  | [] => []
  | b :: rest =>
      let room := pageSize - addr.toNat % pageSize
      let page := (b :: rest).take room
      (addr, page) :: pages (addr + UInt32.ofNat page.length) ((b :: rest).drop room)
termination_by data.length
decreasing_by
  have : addr.toNat % pageSize < pageSize := Nat.mod_lt _ (by decide)
  simp only [List.length_drop, List.length_cons]
  omega

/-- Whether a range lies inside the chip. -/
def holds {β : Type} (c : NorChip β) (addr : UInt32) (len : Nat) : Bool :=
  addr.toNat + len ≤ c.capacity

variable {β : Type} [SpiBus β]

/-- Sends a transaction whose answer does not matter. -/
def transmit (bytes : List UInt8) (c : NorChip β) : NorChip β :=
  let ⟨capacity, bus⟩ := c
  ⟨capacity, (SpiBus.exchange bytes 0 bus).2⟩

/-- Reads a status register. -/
def register (op : UInt8) (c : NorChip β) : UInt8 × NorChip β :=
  let ⟨capacity, bus⟩ := c
  let (answer, bus) := SpiBus.exchange [op] 2 bus
  (answer[1]?.getD 0, ⟨capacity, bus⟩)

/-- Both status registers as one word, the second in the upper byte. -/
def statusWord (c : NorChip β) : UInt32 × NorChip β :=
  let (low, c) := c.register readStatusOp
  let (high, c) := c.register readStatus2Op
  (low.toUInt32 ||| (high.toUInt32 <<< 8), c)

/-- Whether the chip is idle. -/
def poll (c : NorChip β) : Bool × NorChip β :=
  let (status, c) := c.register readStatusOp
  (status.toUInt32 &&& busyBit = 0, c)

/-- Polls until the chip is idle. -/
def await (c : NorChip β) : NorChip β := pollUntilIdle poll (SpiBus.busyPatience c.bus) c

/-- Waits for the chip and sets its write enable latch. -/
def enableWrite (c : NorChip β) : NorChip β := c.await.transmit [enableWriteOp]

/-- Starts an erase.  One that would leave the chip is not sent. -/
def erase (addr : UInt32) (size : EraseSize) (c : NorChip β) : NorChip β :=
  if c.holds addr size.bytes then c.transmit (addressed size.opcode addr) else c

/-- Programs bytes of one page and waits until they are in. -/
def programPage (c : NorChip β) (page : UInt32 × List UInt8) : NorChip β :=
  (c.enableWrite.transmit (addressed programOp page.1 ++ page.2)).await

/-- Programs bytes, page after page.  A range that leaves the chip is refused as a whole. -/
def program (addr : UInt32) (data : List UInt8) (c : NorChip β) :
    Except DeviceFault Unit × NorChip β :=
  if c.holds addr data.length then (.ok (), (pages addr data).foldl programPage c)
  else (.error .outside, c)

/-- Clears the protection bits, if any are set, and looks whether they are clear. -/
def unlock (c : NorChip β) : Except DeviceFault Unit × NorChip β :=
  let (status, c) := c.statusWord
  let wanted := unprotected status
  let c := if wanted = status then c
    else (c.enableWrite.transmit [writeStatusOp, wanted.toUInt8, (wanted >>> 8).toUInt8]).await
  let (status, c) := c.statusWord
  (if status &&& protectionBits ≠ 0 then .error .stillLocked else .ok (), c)

end NorChip

/-- The chip as a device; it has no encryption unit. -/
instance {β : Type} [SpiBus β] : FlashDevice (NorChip β) where
  poll := NorChip.poll
  patience c := SpiBus.busyPatience c.bus
  enableWrite := NorChip.enableWrite
  erase := NorChip.erase
  program := NorChip.program
  unlock := NorChip.unlock

end NorLoader
