import NorLoader.Geometry
import NorLoader.Fault

/-!
# Flash devices

What the loader asks of a flash chip and its driver.  A device is owned by one caller: every
primitive takes the device and gives it back.  An erase only waits until the chip has taken the
command, so the chip may still be busy afterwards, and `poll` looks at that without waiting.

A wait needs a bound to be a total function.  `patience` is that bound: the number of polls that
may still find the device busy.  `LawfulFlashDevice` says that it is one.
-/

namespace NorLoader

/-- The primitives of a flash device. -/
class FlashDevice (δ : Type) where
  poll : δ → Bool × δ
  /-- How many further polls may find the device busy. -/
  patience : δ → Nat
  /-- Waits for the device to be idle and sets the write enable latch. -/
  enableWrite : δ → δ
  /-- Starts an erase and returns once the chip has taken the command. -/
  erase : UInt32 → EraseSize → δ → δ
  /-- Programs bytes from an address on; the range must have been erased. -/
  program : UInt32 → List UInt8 → δ → Except DeviceFault Unit × δ
  /-- Programs bytes through the encryption unit, which only some chips have. -/
  encryptAndProgram : UInt32 → List UInt8 → δ → Except DeviceFault Unit × δ :=
    fun _ _ d => (.error .unavailable, d)
  /-- Sets the latch that sends programs through the encryption unit, if there is one. -/
  setEncryptionLatch : Bool → δ → δ := fun _ d => d
  unlock : δ → Except DeviceFault Unit × δ

/-- Polls until the answer is yes, giving up after `n + 1` polls. -/
def pollUntilIdle {δ : Type} (poll : δ → Bool × δ) : Nat → δ → δ
  | 0, d => (poll d).2
  | n + 1, d =>
      let (ready, d) := poll d
      if ready then d else pollUntilIdle poll n d

namespace FlashDevice

variable {δ : Type} [FlashDevice δ]

/-- Polls until the device is idle. -/
def awaitIdle (d : δ) : δ := pollUntilIdle poll (patience d) d

end FlashDevice

/-- Devices whose `patience` bounds every wait: a poll that finds the device busy lowers it. -/
class LawfulFlashDevice (δ : Type) [FlashDevice δ] : Prop where
  patience_poll_lt : ∀ d : δ, (FlashDevice.poll d).1 = false →
    FlashDevice.patience (FlashDevice.poll d).2 < FlashDevice.patience d

end NorLoader
