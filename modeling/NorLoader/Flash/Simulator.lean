import NorLoader.Flash.Cell
import NorLoader.Flash.Device

/-!
# A simulated NOR flash

A device with the rules of NOR flash: an erase sets a whole unit to `0xFF`, a program can only
clear bits, and either keeps the device busy for a number of polls.  The simulator carries out
what it is told, keeps a log of every call, and notes every misuse of the device beside it.
-/

namespace NorLoader

/-! ## The log -/

/-- What a device can be asked for. -/
inductive DeviceCall where
  | unlock
  | enableWrite
  | erase (addr : UInt32) (size : EraseSize)
  | program (addr : UInt32) (data : List UInt8)
  | encryptAndProgram (addr : UInt32) (data : List UInt8)
  | setEncryptionLatch (on : Bool)
  deriving DecidableEq, Repr

/-- A use of the device that its rules forbid. -/
inductive Misuse where
  /-- A cell was programmed that was not erased since it was last programmed. -/
  | notErased (addr : Nat)
  /-- A unit was erased that holds a programmed cell; the first one is named. -/
  | erasedData (addr : Nat)
  /-- An erase address was not aligned to its unit. -/
  | misaligned (addr : UInt32)
  /-- An erase or a program was issued while the device was busy. -/
  | whileBusy
  /-- An erase was issued without write enable. -/
  | notEnabled
  /-- An erase reached past the end of the device. -/
  | pastEnd (addr : UInt32)
  /-- An encrypted program came with the latch off, or a plain one with the latch on. -/
  | wrongLatch (addr : UInt32) (latched : Bool)
  deriving DecidableEq, Repr

/-- The faults that a simulated device can be made to have. -/
structure FaultSwitches where
  /-- Fail the next program that gets as far as the cells. -/
  nextProgram : Bool := false
  everyProgram : Bool := false
  /-- Refuse to clear the protection bits. -/
  unlock : Bool := false
  deriving DecidableEq, Repr

/-! ## The device -/

/-- A simulated device of a fixed capacity in bytes. -/
structure Simulator (capacity : Nat) where
  cells : Cells capacity := .stale
  /-- Polls that will still find the device busy. -/
  busy : Nat := 0
  writeEnabled : Bool := false
  latched : Bool := false
  /-- How long an erase keeps the device busy, in polls. -/
  eraseTime : Nat := 0
  /-- How long a program keeps the device busy, in polls. -/
  programTime : Nat := 0
  encrypts : Bool := false
  faults : FaultSwitches := {}
  status : UInt32 := 0
  polls : Nat := 0
  /-- The calls, in the order they came. -/
  calls : Array DeviceCall := #[]
  /-- The misuses, in the order they were seen. -/
  misuses : Array Misuse := #[]

namespace Simulator

variable {capacity : Nat}

/-- Encrypted programs store each byte combined with this one by exclusive or. -/
def encryptionKey : UInt8 := 0xA5

/-- Bytes of the device, from `addr` on; none if the range leaves the device. -/
def read? (s : Simulator capacity) (addr len : Nat) : Option (List UInt8) :=
  if addr + len ≤ capacity then
    some (((s.cells.toList.drop addr).take len).map Cell.value)
  else none

/-- The erases so far. -/
def erases (s : Simulator capacity) : List (UInt32 × EraseSize) :=
  s.calls.toList.filterMap fun
    | .erase addr size => some (addr, size)
    | _ => none

/-- How many bytes the log shows as passed to a program primitive. -/
def bytesPassed (s : Simulator capacity) : Nat :=
  (s.calls.toList.flatMap fun
    | .program _ data => data
    | .encryptAndProgram _ data => data
    | _ => []).length

/-- Forgets the calls so far. -/
def clearCalls (s : Simulator capacity) : Simulator capacity := { s with calls := #[] }

/-- Keeps a call. -/
def record (s : Simulator capacity) (c : DeviceCall) : Simulator capacity :=
  { s with calls := s.calls.push c }

/-- Keeps some misuses. -/
def note (s : Simulator capacity) (ms : List Misuse) : Simulator capacity :=
  { s with misuses := s.misuses ++ ms }

/-! ### The primitives -/

/-- Whether the device is idle.  To ask brings it closer to it. -/
def poll (s : Simulator capacity) : Bool × Simulator capacity :=
  if s.busy = 0 then (true, { s with polls := s.polls + 1 })
  else (false, { s with polls := s.polls + 1, busy := s.busy - 1 })

/-- Waits for the device and sets its write enable latch. -/
def enableWrite (s : Simulator capacity) : Simulator capacity :=
  { (pollUntilIdle poll s.busy s).record .enableWrite with writeEnabled := true }

/-- What is wrong with an erase, in the order in which it is noted. -/
def eraseMisuses (s : Simulator capacity) (addr : UInt32) (size : EraseSize) : List Misuse :=
  (if s.busy > 0 then [.whileBusy] else [])
    ++ (if s.writeEnabled then [] else [.notEnabled])
    ++ (if addr.toNat % size.bytes = 0 then [] else [.misaligned addr])
    ++ (if addr.toNat + size.bytes ≤ capacity then
          (s.cells.firstProgrammed? addr.toNat size.bytes).toList.map Misuse.erasedData
        else [.pastEnd addr])

/-- Erases a unit.  The erase is carried out whatever is wrong with it, unless it would leave the
    device. -/
def erase (addr : UInt32) (size : EraseSize) (s : Simulator capacity) : Simulator capacity :=
  let s := (s.record (.erase addr size)).note (s.eraseMisuses addr size)
  let s := { s with writeEnabled := false }
  if addr.toNat + size.bytes ≤ capacity then
    { s with cells := s.cells.erase addr.toNat size.bytes, busy := s.eraseTime }
  else s

/-- Puts bytes into the cells and notes the cells that were not erased. -/
def putBytes (addr : Nat) (data : List UInt8) (s : Simulator capacity) : Simulator capacity :=
  let s := s.note ((s.cells.unerased addr data.length).map Misuse.notErased)
  { s with cells := s.cells.program addr data, busy := s.programTime }

/-- What is wrong with a program before it gets to the cells. -/
def programMisuses (s : Simulator capacity) (encrypted : Bool) (addr : UInt32) : List Misuse :=
  (if s.busy > 0 then [.whileBusy] else [])
    ++ (if s.latched = encrypted then [] else [.wrongLatch addr s.latched])

/-- The bytes that the cells get for some data. -/
def ciphered (encrypted : Bool) (data : List UInt8) : List UInt8 :=
  if encrypted then data.map (· ^^^ encryptionKey) else data

/-- The part that plain and encrypted programs share, once the call is in the log. -/
def programWith (encrypted : Bool) (addr : UInt32) (data : List UInt8)
    (s : Simulator capacity) : Except DeviceFault Unit × Simulator capacity :=
  let s := s.note (s.programMisuses encrypted addr)
  if addr.toNat + data.length ≤ capacity then
    let fails := s.faults.everyProgram || s.faults.nextProgram
    let s := { s with faults := { s.faults with nextProgram := false } }
    if fails then (.error .refused, s)
    else (.ok (), s.putBytes addr.toNat (ciphered encrypted data))
  else (.error .outside, s)

/-- Programs bytes as they are. -/
def program (addr : UInt32) (data : List UInt8) (s : Simulator capacity) :
    Except DeviceFault Unit × Simulator capacity :=
  (s.record (.program addr data)).programWith false addr data

/-- Programs bytes through the encryption unit, if the device has one. -/
def encryptAndProgram (addr : UInt32) (data : List UInt8) (s : Simulator capacity) :
    Except DeviceFault Unit × Simulator capacity :=
  let s := s.record (.encryptAndProgram addr data)
  if s.encrypts then s.programWith true addr data else (.error .unavailable, s)

/-- Turns the latch of the encryption unit on or off. -/
def setEncryptionLatch (on : Bool) (s : Simulator capacity) : Simulator capacity :=
  { s.record (.setEncryptionLatch on) with latched := on }

/-- Clears the protection bits, unless that is made to fail. -/
def unlock (s : Simulator capacity) : Except DeviceFault Unit × Simulator capacity :=
  let s := s.record .unlock
  if s.faults.unlock then (.error .stillLocked, s)
  else (.ok (), { s with status := unprotected s.status })

end Simulator

/-- A wait is over after as many polls as the device is busy for. -/
instance {capacity : Nat} : FlashDevice (Simulator capacity) where
  poll := Simulator.poll
  patience s := s.busy
  enableWrite := Simulator.enableWrite
  erase := Simulator.erase
  program := Simulator.program
  encryptAndProgram := Simulator.encryptAndProgram
  setEncryptionLatch := Simulator.setEncryptionLatch
  unlock := Simulator.unlock

end NorLoader
