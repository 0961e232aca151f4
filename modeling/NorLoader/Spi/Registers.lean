/-!
# The registers of the serial interface

The flash hangs on a synchronous serial interface with a transmit and a receive FIFO.  Every byte
that is clocked out clocks one in, at a time of the interface's own choosing.  `exchange` moves the
bytes of one transaction through the data register: it looks at the status, writes a byte if there
is room and reads one if there is one, and keeps so few bytes under way that the receive FIFO never
overflows.  Chip select is forced low before the first byte and high after the last.
-/

namespace NorLoader

/-- The registers of the interface and of its chip select pin. -/
class SsiRegisters (δ : Type) where
  readStatus : δ → UInt32 × δ
  writeData : UInt8 → δ → δ
  readData : δ → UInt8 × δ
  readSelect : δ → UInt32
  writeSelect : UInt32 → δ → δ
  /-- How many status reads a transaction of some length may take. -/
  exchangePatience : Nat → δ → Nat

namespace Ssi

/-- Status bit: the transmit FIFO has room. -/
def hasRoomBit : UInt32 := 0x2

/-- Status bit: the receive FIFO holds a byte. -/
def hasByteBit : UInt32 := 0x8

/-- The most bytes under way; the receive FIFO is sixteen deep. -/
def maxUnderWay : Nat := 14

/-- The field of the chip select control register that forces the pin. -/
def selectField : UInt32 := 0x300

/-- The levels that the chip select can be forced to. -/
inductive Level where
  | low
  | high
  deriving DecidableEq, Repr

/-- The setting that forces a level. -/
def Level.bits : Level → UInt32
  | low => 0x200
  | high => 0x300

/-- The control register with the pin forced to a level and all else as it was. -/
def withLevel (control : UInt32) (level : Level) : UInt32 :=
  (control &&& ~~~selectField) ||| level.bits

/-- A transaction under way. -/
structure Transaction (δ : Type) where
  regs : δ
  toSend : List UInt8
  toReceive : Nat
  received : Array UInt8 := #[]

namespace Transaction

variable {δ : Type} [SsiRegisters δ]

omit [SsiRegisters δ] in
/-- Whether all is sent and received. -/
def isComplete (t : Transaction δ) : Bool := t.toSend.isEmpty && t.toReceive = 0

/-- Writes the next byte if there is room for it and not too much is under way. -/
def sendIfRoom (status : UInt32) (t : Transaction δ) : Transaction δ :=
  let ⟨regs, toSend, toReceive, received⟩ := t
  match toSend with
  | [] => ⟨regs, [], toReceive, received⟩
  | b :: rest =>
      if status &&& hasRoomBit ≠ 0 ∧ toReceive - (rest.length + 1) < maxUnderWay then
        ⟨SsiRegisters.writeData b regs, rest, toReceive, received⟩
      else ⟨regs, b :: rest, toReceive, received⟩

/-- Takes a byte that has come, if the transaction wants one. -/
def receiveIfAny (status : UInt32) (t : Transaction δ) : Transaction δ :=
  let ⟨regs, toSend, toReceive, received⟩ := t
  if status &&& hasByteBit ≠ 0 ∧ toReceive > 0 then
    let (b, regs) := SsiRegisters.readData regs
    ⟨regs, toSend, toReceive - 1, received.push b⟩
  else ⟨regs, toSend, toReceive, received⟩

/-- One look at the status, and what it allows. -/
def step (t : Transaction δ) : Transaction δ :=
  let ⟨regs, toSend, toReceive, received⟩ := t
  let (status, regs) := SsiRegisters.readStatus regs
  receiveIfAny status (sendIfRoom status ⟨regs, toSend, toReceive, received⟩)

/-- Takes at most `n` turns, until the transaction is complete. -/
def stepUpTo : Nat → Transaction δ → Transaction δ
  | 0, t => t
  | n + 1, t => if t.isComplete then t else stepUpTo n t.step

end Transaction

variable {δ : Type} [SsiRegisters δ]

/-- Forces the chip select to a level. -/
def forceSelect (level : Level) (regs : δ) : δ :=
  SsiRegisters.writeSelect (withLevel (SsiRegisters.readSelect regs) level) regs

/-- Clocks out some bytes with the chip selected and gives the first `wanted` bytes clocked in.
    Zeros go out once the bytes are used up. -/
def exchange (bytes : List UInt8) (wanted : Nat) (regs : δ) : List UInt8 × δ :=
  let total := max bytes.length wanted
  let regs := forceSelect .low regs
  let padded := bytes ++ List.replicate (total - bytes.length) 0
  let steps := SsiRegisters.exchangePatience total regs
  let ⟨regs, _, _, received⟩ := Transaction.stepUpTo steps ⟨regs, padded, total, #[]⟩
  (received.toList.take wanted, forceSelect .high regs)

end Ssi
end NorLoader
