import NorLoader.Flash.Simulator

/-!
# A simulated flash behind a plain driver

The same device, driven by someone who knows nothing of its encryption unit: the encrypted program
and the latch are those of every device that lacks them.
-/

namespace NorLoader

/-- A simulated device without a driver for its encryption unit. -/
structure PlainSimulator (capacity : Nat) where
  device : Simulator capacity

namespace PlainSimulator

variable {capacity : Nat}

/-- Has the device behind the driver do something. -/
def run {α : Type} (f : Simulator capacity → α × Simulator capacity)
    (p : PlainSimulator capacity) : α × PlainSimulator capacity :=
  let (a, d) := f p.device
  (a, ⟨d⟩)

end PlainSimulator

/-- What the driver leaves out is as for every device. -/
instance {capacity : Nat} : FlashDevice (PlainSimulator capacity) where
  poll := PlainSimulator.run Simulator.poll
  patience p := p.device.busy
  enableWrite p := ⟨p.device.enableWrite⟩
  erase addr size p := ⟨p.device.erase addr size⟩
  program addr data := PlainSimulator.run (Simulator.program addr data)
  unlock := PlainSimulator.run Simulator.unlock

end NorLoader
