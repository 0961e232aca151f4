import NorLoader.Host.MainLoop
import NorLoader.Spi.NorChip
import NorLoader.Spi.Registers

/-!
# A scripted board

A board on which all that the outside does is written down beforehand: the values of the chip's
status registers, the timing of the serial interface's FIFOs, and how much the serial line takes
when bytes are offered.  The board keeps a log of what happens on it.
-/

namespace NorLoader

/-- What can be seen of a board from outside. -/
inductive BoardEvent where
  /-- The flash was connected to the serial interface. -/
  | flashConnected
  /-- The flash was taken out of its memory-mapped mode. -/
  | mappingLeft
  /-- A transaction, as the bytes clocked out. -/
  | transaction (bytes : List UInt8)
  | lineTook (bytes : List UInt8)
  | lineBusy
  | lineFailed
  | light (on : Bool)
  deriving DecidableEq, Repr

/-- The state of the board and of its scripts. -/
structure Board where
  status1 : List UInt8 := []
  status2 : List UInt8 := []
  /-- The first status register once its values are used up; it is never busy then. -/
  status1Rest : UInt8 := 0
  /-- The second status register once its values are used up. -/
  status2Rest : UInt8 := 0
  /-- Whether writing the status registers has no effect. -/
  statusFixed : Bool := false
  /-- Status reads until a byte that was written can be read back, beyond the first. -/
  receiveDelay : Nat := 0
  /-- Status reads between two that find room in the transmit FIFO. -/
  sendStall : Nat := 0
  /-- Status reads since the chip was selected. -/
  time : Nat := 0
  /-- The bytes in the receive FIFO, the oldest first, each with the time it was put there. -/
  fifo : List (Nat × UInt8) := []
  maxUnderWay : Nat := 0
  control : UInt32 := 0
  clocked : Array UInt8 := #[]
  reply : UInt8 := 0
  /-- How the next offers to the serial line end; it takes up to a packet once they are used up. -/
  offers : List SendOutcome := []
  lit : Option Bool := none
  events : Array BoardEvent := #[]

namespace Board

/-- The most bytes that the serial line takes at once. -/
def packetSize : Nat := 64

/-- Keeps an event. -/
def log (b : Board) (e : BoardEvent) : Board := { b with events := b.events.push e }

/-- Prepares the board for talking to the flash directly. -/
def connectFlash (b : Board) : Board := (b.log .flashConnected).log .mappingLeft

/-! ## The serial interface -/

/-- Reads the status of the interface; time goes by first. -/
def readStatus (b : Board) : UInt32 × Board :=
  let b := { b with time := b.time + 1 }
  let room := if b.time % (b.sendStall + 1) = 0 then Ssi.hasRoomBit else 0
  let byte := match b.fifo with
    | (written, _) :: _ =>
        if written + 1 + b.receiveDelay ≤ b.time then Ssi.hasByteBit else 0
    | [] => 0
  (room ||| byte, b)

/-- What the chip answers in a transaction that starts with some byte: the next value of the
    status register that the byte asks for, if it does. -/
def select (b : Board) (op : UInt8) : Board :=
  if op = NorChip.readStatusOp then
    match b.status1 with
    | v :: rest => { b with reply := v, status1 := rest }
    | [] => { b with reply := b.status1Rest &&& 0xFE }
  else if op = NorChip.readStatus2Op then
    match b.status2 with
    | v :: rest => { b with reply := v, status2 := rest }
    | [] => { b with reply := b.status2Rest }
  else { b with reply := 0 }

/-- Clocks a byte out; the byte that comes in waits in the FIFO. -/
def writeData (byte : UInt8) (b : Board) : Board :=
  let first := b.clocked.isEmpty
  let incoming := if first then 0 else b.reply
  let b := if first then b.select byte else b
  let fifo := b.fifo ++ [(b.time, incoming)]
  { b with
    clocked := b.clocked.push byte
    fifo := fifo
    maxUnderWay := max b.maxUnderWay fifo.length }

/-- Reads a byte from the receive FIFO; an empty one reads as zero. -/
def readData (b : Board) : UInt8 × Board :=
  match b.fifo with
  | (_, byte) :: rest => (byte, { b with fifo := rest })
  | [] => (0, b)

/-- The chip is selected: a transaction starts. -/
def startTransaction (b : Board) : Board := { b with time := 0, clocked := #[], reply := 0 }

/-- The chip is released: the transaction takes effect. -/
def endTransaction (b : Board) : Board :=
  let bytes := b.clocked.toList
  let b := b.log (.transaction bytes)
  match bytes with
  | [op, low, high] =>
      if op = NorChip.writeStatusOp && !b.statusFixed then
        { b with status1Rest := low, status2Rest := high }
      else b
  | _ => b

/-- Writes the chip select control: a level that is low begins a transaction, one that is high ends
    it. -/
def writeSelect (control : UInt32) (b : Board) : Board :=
  let b := { b with control := control }
  if control &&& Ssi.selectField = Ssi.Level.low.bits then b.startTransaction
  else if control &&& Ssi.selectField = Ssi.Level.high.bits then b.endTransaction
  else b

/-! ## The line and the light -/

/-- Offers bytes to the serial line, which has its own say in how many it takes. -/
def offer (bytes : List UInt8) (b : Board) : SendOutcome × Board :=
  match b.offers with
  | [] => (.took (min packetSize bytes.length), b.log (.lineTook (bytes.take packetSize)))
  | .took n :: rest =>
      (.took (min n bytes.length), { b.log (.lineTook (bytes.take n)) with offers := rest })
  | .busy :: rest => (.busy, { b.log .lineBusy with offers := rest })
  | .failed :: rest => (.failed, { b.log .lineFailed with offers := rest })

/-- Sets the status light; only a change is an event, and so is the first setting. -/
def setLight (on : Bool) (b : Board) : Board :=
  if b.lit = some on then b else { b.log (.light on) with lit := some on }

end Board

/-- The registers of the serial interface. -/
instance : SsiRegisters Board where
  readStatus := Board.readStatus
  writeData := Board.writeData
  readData := Board.readData
  readSelect b := b.control
  writeSelect := Board.writeSelect
  exchangePatience n b := n * (b.receiveDelay + b.sendStall + 2) + 1

/-- The chip behind those registers. -/
instance : SpiBus Board where
  exchange := Ssi.exchange
  busyPatience b := b.status1.length

/-- The serial line of the board. -/
instance : SerialLine Board where
  offer := Board.offer
  offerPatience b := b.offers.length

/-- The light of the board. -/
instance : StatusLight Board where
  setLight := Board.setLight

/-! ## The chip on its board -/

/-- The line is there whether or not the flash is looked at. -/
instance {β : Type} [SerialLine β] : SerialLine (NorChip β) where
  offer bytes c :=
    let ⟨capacity, bus⟩ := c
    let (outcome, bus) := SerialLine.offer bytes bus
    (outcome, ⟨capacity, bus⟩)
  offerPatience c := SerialLine.offerPatience c.bus

/-- And so is the light. -/
instance {β : Type} [StatusLight β] : StatusLight (NorChip β) where
  setLight on c := ⟨c.capacity, StatusLight.setLight on c.bus⟩

end NorLoader
