import NorLoader.Spi.Registers

/-!
# The serial interface at work

A serial interface with its FIFOs and its shifter, and with a timing that is not known beforehand: a
byte that is written waits in the transmit FIFO, goes through the shifter at some later moment, and
brings a byte into the receive FIFO, which holds sixteen.  How far the shifter gets before each access
to a register is written down in a schedule, and so is what the other side answers.  The port keeps a
log of what is seen outside and notes every byte that is lost.
-/

namespace NorLoader

/-- What a port does that can be seen on its lines. -/
inductive PortEvent where
  /-- The chip select control register got a value. -/
  | control (value : UInt32)
  /-- A byte was clocked out, and one was clocked in. -/
  | shift (sent came : UInt8)
  deriving DecidableEq, Repr

/-- What must not happen at a port. -/
inductive PortFault where
  /-- A byte came in that the receive FIFO had no room for. -/
  | overrun
  /-- A byte was written that the transmit FIFO had no room for. -/
  | overflow
  /-- A byte was read from the empty receive FIFO. -/
  | underflow
  deriving DecidableEq, Repr

/-- What is laid down beforehand. -/
structure PortScript where
  sendDepth : Nat := 16
  /-- The byte that comes in for one that goes out, after what has happened so far. -/
  answer : List PortEvent → UInt8 → UInt8
  /-- How many moves the shifter makes before each access to a register. -/
  moves : Nat → Nat
  /-- How many status reads a transaction of some length may take. -/
  patience : Nat → Nat

/-- A port with its two FIFOs and the shifter between them. -/
structure FifoPort where
  script : PortScript
  /-- The transmit FIFO, the oldest byte first. -/
  sending : List UInt8 := []
  shifting : Option UInt8 := none
  /-- The receive FIFO, the oldest byte first. -/
  arrived : List UInt8 := []
  control : UInt32 := 0
  log : List PortEvent := []
  faults : List PortFault := []
  /-- The most bytes that were under way at once. -/
  mostUnderWay : Nat := 0
  /-- Accesses to the registers so far. -/
  accesses : Nat := 0

namespace FifoPort

/-- The bytes that the receive FIFO has room for. -/
def receiveDepth : Nat := 16

/-- The bytes that were written and whose answers were not read. -/
def underWay (p : FifoPort) : Nat :=
  p.sending.length + p.shifting.toList.length + p.arrived.length

/-- Nothing waits to go out or to be read, and the shifter is empty. -/
def AtRest (p : FifoPort) : Prop := p.sending = [] ∧ p.shifting = none ∧ p.arrived = []

/-- Being at rest is a matter of three fields. -/
instance (p : FifoPort) : Decidable p.AtRest := inferInstanceAs (Decidable (_ ∧ _ ∧ _))

/-- One move of the shifter: it takes a byte up, or it is through with the one it has. -/
def move (p : FifoPort) : FifoPort :=
  match p.shifting with
  | some byte =>
      let came := p.script.answer p.log byte
      let p := { p with shifting := none, log := p.log ++ [PortEvent.shift byte came] }
      if p.arrived.length < receiveDepth then { p with arrived := p.arrived ++ [came] }
      else { p with faults := p.faults ++ [PortFault.overrun] }
  | none =>
      match p.sending with
      | byte :: rest => { p with sending := rest, shifting := some byte }
      | [] => p

/-- Moves the shifter a number of times. -/
def movesUpTo : Nat → FifoPort → FifoPort
  | 0, p => p
  | n + 1, p => movesUpTo n p.move

/-- What happens by itself before the next access to a register. -/
def access (p : FifoPort) : FifoPort :=
  { movesUpTo (p.script.moves p.accesses) p with accesses := p.accesses + 1 }

/-- The status register as it stands. -/
def status (p : FifoPort) : UInt32 :=
  (if p.sending.length < p.script.sendDepth then Ssi.hasRoomBit else 0) |||
    (if p.arrived = [] then 0 else Ssi.hasByteBit)

/-- Reads the status register. -/
def readStatus (p : FifoPort) : UInt32 × FifoPort := (p.access.status, p.access)

/-- Puts a byte into the transmit FIFO. -/
def put (byte : UInt8) (p : FifoPort) : FifoPort :=
  if p.sending.length < p.script.sendDepth then
    { p with
      sending := p.sending ++ [byte]
      mostUnderWay := max p.mostUnderWay (p.underWay + 1) }
  else { p with faults := p.faults ++ [PortFault.overflow] }

/-- Takes the oldest byte out of the receive FIFO. -/
def take (p : FifoPort) : UInt8 × FifoPort :=
  match p.arrived with
  | byte :: rest => (byte, { p with arrived := rest })
  | [] => (0, { p with faults := p.faults ++ [PortFault.underflow] })

/-- Writes a byte to the transmit FIFO. -/
def writeData (byte : UInt8) (p : FifoPort) : FifoPort := p.access.put byte

/-- Reads a byte from the receive FIFO. -/
def readData (p : FifoPort) : UInt8 × FifoPort := p.access.take

/-- Writes the chip select control. -/
def writeSelect (value : UInt32) (p : FifoPort) : FifoPort :=
  { p.access with control := value, log := p.access.log ++ [PortEvent.control value] }

end FifoPort

/-- The registers of the port. -/
instance : SsiRegisters FifoPort where
  readStatus := FifoPort.readStatus
  writeData := FifoPort.writeData
  readData := FifoPort.readData
  readSelect p := p.control
  writeSelect := FifoPort.writeSelect
  exchangePatience n p := p.script.patience n

end NorLoader
