import NorLoader.Spi.NorChip

/-!
# A chip at the other end of the bus

A NOR chip as its transactions show it.  It takes a write command only while it is idle and write
enable is set.  Every write command that it takes resets write enable and keeps the chip busy for
a number of status reads, which may be a different one each time.  Programs can only clear bits and
wrap inside their page, and an erase sets the aligned unit around its address.  The driver reads
nothing but the status, so that is all the chip answers.
-/

namespace NorLoader

/-- A chip that keeps its array in memory. -/
structure MemoryChip (capacity : Nat) where
  array : Vector UInt8 capacity
  /-- The first status register; the busy bit and the write enable bit are not kept here. -/
  status1 : UInt8 := 0
  status2 : UInt8 := 0
  writeEnabled : Bool := false
  /-- Status reads that will still find the chip busy. -/
  busy : Nat := 0
  /-- For how many status reads each of the write commands to come keeps the chip busy. -/
  delays : Nat → Nat := fun _ => 0

namespace MemoryChip

variable {capacity : Nat}

/-- What the first status register reads as. -/
def statusByte (c : MemoryChip capacity) : UInt8 :=
  (c.status1 &&& 0xFC) ||| (if c.writeEnabled then 0x02 else 0) ||| (if c.busy = 0 then 0 else 0x01)

/-- Whether some of the array or of the status is protected. -/
def isProtected (c : MemoryChip capacity) : Bool :=
  (c.status1.toUInt32 ||| (c.status2.toUInt32 <<< 8)) &&& NorChip.protectionBits ≠ 0

/-! ## What the write commands do -/

/-- Programs bytes into the page at `base`, the first at an offset.  Past the end of the page they
    go on at its start. -/
def programPage (base : Nat) (array : Vector UInt8 capacity) :
    Nat → List UInt8 → Vector UInt8 capacity
  | _, [] => array
  | offset, b :: rest =>
      let a := base + offset % pageSize
      if h : a < capacity then
        programPage base (array.set a (array[a] &&& b)) (offset + 1) rest
      else programPage base array (offset + 1) rest

/-- Sets a range of the array to ones. -/
def eraseUnit (array : Vector UInt8 capacity) (start len : Nat) : Vector UInt8 capacity :=
  Vector.ofFn fun a => if start ≤ a.val ∧ a.val < start + len then 0xFF else array[a]

/-- The address in the three bytes after an operation code. -/
def address (high middle low : UInt8) : Nat :=
  high.toNat * 65536 + middle.toNat * 256 + low.toNat

/-- Programs a page, from some address on and around its end, unless the array is protected. -/
def program (c : MemoryChip capacity) (addr : Nat) (data : List UInt8) : MemoryChip capacity :=
  if c.isProtected then c
  else { c with array := programPage (addr / pageSize * pageSize) c.array (addr % pageSize) data }

/-- Erases the aligned unit that holds an address. -/
def erase (c : MemoryChip capacity) (addr : Nat) (size : EraseSize) : MemoryChip capacity :=
  if c.isProtected then c
  else { c with array := eraseUnit c.array (addr / size.bytes * size.bytes) size.bytes }

/-- What a write command does, if some bytes are one. -/
def write? (c : MemoryChip capacity) : List UInt8 → Option (MemoryChip capacity)
  | op :: high :: middle :: low :: data =>
      let addr := address high middle low
      if op = NorChip.programOp then some (c.program addr data)
      else if op = EraseSize.sector.opcode then some (c.erase addr .sector)
      else if op = EraseSize.block.opcode then some (c.erase addr .block)
      else none
  | [op, low, high] =>
      if op = NorChip.writeStatusOp then some { c with status1 := low, status2 := high } else none
  | _ => none

/-- Write enable is used up and the chip is busy for a while. -/
def afterWrite (c : MemoryChip capacity) : MemoryChip capacity :=
  { c with writeEnabled := false, busy := c.delays 0, delays := fun n => c.delays (n + 1) }

/-- Takes a command that needs no answer.  What is not a command or comes at the wrong time is
    ignored. -/
def take (c : MemoryChip capacity) (bytes : List UInt8) : MemoryChip capacity :=
  if c.busy ≠ 0 then c
  else if bytes = [NorChip.enableWriteOp] then { c with writeEnabled := true }
  else if c.writeEnabled then
    match c.write? bytes with
    | some c => c.afterWrite
    | none => c
  else c

/-- One transaction: the first `wanted` bytes that the chip answers, and the chip after it. -/
def exchange (bytes : List UInt8) (wanted : Nat) (c : MemoryChip capacity) :
    List UInt8 × MemoryChip capacity :=
  if bytes = [NorChip.readStatusOp] then
    ((0 :: List.replicate (wanted - 1) c.statusByte).take wanted, { c with busy := c.busy - 1 })
  else if bytes = [NorChip.readStatus2Op] then
    ((0 :: List.replicate (wanted - 1) c.status2).take wanted, c)
  else (List.replicate wanted 0, c.take bytes)

end MemoryChip

/-- The bus with the chip on it. -/
instance {capacity : Nat} : SpiBus (MemoryChip capacity) where
  exchange := MemoryChip.exchange
  busyPatience c := c.busy

end NorLoader
