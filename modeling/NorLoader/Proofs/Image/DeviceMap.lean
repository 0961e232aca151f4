import NorLoader.Host.Controller
import NorLoader.Proofs.Image.Upkeep

/-!
# Devices that do the same

A device may be part of something larger, or be watched.  `DeviceMap π` says that the primitives of
the larger thing are those of the device that `π` takes out of it.  All that is done to a device is
done with its primitives, so it does not matter whether `π` is taken before or after: of a write
(`DeviceMap.write`), of a piece of a stream (`DeviceMap.unpack`) and in the end of every request
(`DeviceMap.execute`).
-/

namespace NorLoader

variable {δ φ ρ : Type} [StreamReader ρ]

/-- A loader with another view of its device. -/
def Loader.map (π : δ → φ) (l : Loader δ ρ) : Loader φ ρ := ⟨π l.device, l.job, l.unpacker⟩

/-- The same for an unpacking. -/
def Unpacking.map (π : δ → φ) (k : Unpacking δ ρ) : Unpacking φ ρ :=
  ⟨k.unpacker, k.job, π k.device, k.rest, k.status, k.excess⟩

/-- The same for a controller. -/
def Controller.map (π : δ → φ) (c : Controller δ) : Controller φ :=
  ⟨c.loader.map π, c.taken, c.route⟩

variable [FlashDevice δ] [FlashDevice φ]

/-- A primitive gives the same and does the same, whether `π` is taken before it or after. -/
structure DeviceMap (π : δ → φ) : Prop where
  poll : ∀ d, FlashDevice.poll (π d) = ((FlashDevice.poll d).1, π (FlashDevice.poll d).2)
  patience : ∀ d, FlashDevice.patience (π d) = FlashDevice.patience d
  enableWrite : ∀ d, FlashDevice.enableWrite (π d) = π (FlashDevice.enableWrite d)
  erase : ∀ addr size d,
    FlashDevice.erase addr size (π d) = π (FlashDevice.erase addr size d)
  program : ∀ addr data d, FlashDevice.program addr data (π d)
    = ((FlashDevice.program addr data d).1, π (FlashDevice.program addr data d).2)
  encryptAndProgram : ∀ addr data d, FlashDevice.encryptAndProgram addr data (π d)
    = ((FlashDevice.encryptAndProgram addr data d).1,
        π (FlashDevice.encryptAndProgram addr data d).2)
  setEncryptionLatch : ∀ on d,
    FlashDevice.setEncryptionLatch on (π d) = π (FlashDevice.setEncryptionLatch on d)
  unlock : ∀ d, FlashDevice.unlock (π d) = ((FlashDevice.unlock d).1, π (FlashDevice.unlock d).2)

namespace DeviceMap

variable {π : δ → φ} (h : DeviceMap π)

include h

/-! ## Jobs -/

/-- A wait looks the same in both views. -/
theorem awaitIdle (d : δ) : FlashDevice.awaitIdle (π d) = π (FlashDevice.awaitIdle d) := by
  have loop : ∀ (n : Nat) (d : δ),
      pollUntilIdle FlashDevice.poll n (π d) = π (pollUntilIdle FlashDevice.poll n d) := by
    intro n
    induction n with
    | zero => intro d; simp only [pollUntilIdle, h.poll]
    | succ n ih =>
        intro d
        simp only [pollUntilIdle, h.poll]
        split
        · rfl
        · exact ih _
  rw [FlashDevice.awaitIdle, h.patience, FlashDevice.awaitIdle]
  exact loop _ d

/-- So does an erase of a plan. -/
theorem issue (p : ErasePlan) (size : EraseSize) (d : δ) :
    p.issue size (π d) = ((p.issue size d).1, π (p.issue size d).2) := by
  simp only [ErasePlan.issue, h.enableWrite, h.erase]

/-- So do the erases up to a sector. -/
theorem coverThrough (p : ErasePlan) (last : UInt32) (d : δ) :
    p.coverThrough last (π d) = ((p.coverThrough last d).1, π (p.coverThrough last d).2) := by
  have loop : ∀ (n : Nat) (p : ErasePlan) (d : δ),
      p.issueUpTo last n (π d) = ((p.issueUpTo last n d).1, π (p.issueUpTo last n d).2) := by
    intro n
    induction n with
    | zero => intro p d; rfl
    | succ n ih =>
        intro p d
        cases hs : p.nextSize with
        | none => simp only [ErasePlan.issueUpTo, hs]
        | some size =>
            simp only [ErasePlan.issueUpTo, hs, h.awaitIdle, h.issue]
            split
            · exact ih _ _
            · rfl
  exact loop _ p d

/-- So does opening a job. -/
theorem start (size offset : UInt32) (d : δ) :
    Job.start size offset (π d)
      = ((Job.start size offset d).1, (Job.start size offset d).2.1,
          π (Job.start size offset d).2.2) := by
  simp only [Job.start, h.unlock]
  rcases FlashDevice.unlock d with ⟨_ | _, d'⟩ <;> rfl

/-- So does a program. -/
theorem programVia (storage : Storage) (addr : UInt32) (data : List UInt8) (d : δ) :
    Job.programVia storage addr data (π d)
      = ((Job.programVia storage addr data d).1, π (Job.programVia storage addr data d).2) := by
  cases storage with
  | plain => exact h.program addr data d
  | encrypted => simp only [Job.programVia, h.setEncryptionLatch, h.encryptAndProgram]

/-- So does a delivery. -/
theorem deliver (j : Job) (v : Delivery) (d : δ) :
    j.deliver v (π d) = ((j.deliver v d).1, π (j.deliver v d).2) := by
  simp only [Job.deliver, h.awaitIdle, h.programVia]
  rcases Job.programVia v.storage j.cursor v.bytes (FlashDevice.awaitIdle d) with ⟨_ | _, d'⟩ <;>
    rfl

/-- So does a write. -/
theorem write (j : Job) (storage : Storage) (data : List UInt8) (d : δ) :
    j.write storage data (π d) = ((j.write storage data d).1, π (j.write storage data d).2) := by
  by_cases ha : j.accepted data = []
  · rw [Job.write_of_accepted_nil _ _ _ _ ha, Job.write_of_accepted_nil _ _ _ _ ha]
  · rw [Job.write_of_accepted_ne _ _ _ _ ha, Job.write_of_accepted_ne _ _ _ _ ha, h.coverThrough]
    exact h.deliver _ _ _

/-- So does erasing ahead. -/
theorem eraseAhead (j : Job) (d : δ) :
    j.eraseAhead (π d) = ((j.eraseAhead d).1, (j.eraseAhead d).2.1, π (j.eraseAhead d).2.2) := by
  cases hs : j.plan.nextSize with
  | none => simp only [Job.eraseAhead, ErasePlan.issueIfIdle, hs]
  | some size =>
      simp only [Job.eraseAhead, ErasePlan.issueIfIdle, hs, h.poll, h.issue]
      split <;> rfl

/-! ## Streams -/

/-- So does handing over. -/
theorem handOver (k : Unpacking δ ρ) : (k.map π).handOver = k.handOver.map π := by
  simp only [Unpacking.handOver, Unpacking.map, h.write]
  rfl

/-- So does a cycle. -/
theorem cycle (k : Unpacking δ ρ) : (k.map π).cycle = k.cycle.map π := by
  have hread : (k.map π).afterRead = k.afterRead.map π := by
    simp only [Unpacking.afterRead, Unpacking.map, h.eraseAhead]
    rfl
  rw [Unpacking.cycle_eq, Unpacking.cycle_eq, hread, h.handOver]
  exact (apply_ite (Unpacking.map π) _ _ _).symm

/-- So do any number of cycles. -/
theorem cycleUpTo (n : Nat) (k : Unpacking δ ρ) :
    (k.map π).cycleUpTo n = (k.cycleUpTo n).map π := by
  induction n generalizing k with
  | zero => rfl
  | succ n ih =>
      simp only [Unpacking.cycleUpTo, h.cycle k, ih]
      exact (apply_ite (Unpacking.map π) _ _ _).symm

omit h [FlashDevice δ] [FlashDevice φ] in
/-- So does reading on after the image. -/
theorem readTrailing (k : Unpacking δ ρ) : (k.map π).readTrailing = k.readTrailing.map π := by
  simp only [Unpacking.readTrailing]
  rw [apply_ite (Unpacking.map π), apply_ite (Unpacking.map π)]
  rfl

/-- So does a piece of a stream. -/
theorem unpack (u : Unpacker ρ) (j : Job) (piece : List UInt8) (d : δ) :
    u.unpack j piece (π d)
      = ((u.unpack j piece d).1, (u.unpack j piece d).2.1, π (u.unpack j piece d).2.2) := by
  simp only [Unpacker.unpack]
  split
  · rfl
  · rw [show (⟨u, j, π d, piece, .needsInput, false⟩ : Unpacking φ ρ)
      = Unpacking.map π ⟨u, j, d, piece, .needsInput, false⟩ from rfl, h.cycleUpTo, readTrailing]
    rfl

/-! ## The controller -/

omit h [FlashDevice δ] [FlashDevice φ] in
/-- So does a block. -/
theorem receive (c : Controller δ) (b : DataBlock) :
    (c.map π).receive b = ((c.receive b).1, (c.receive b).2.map π) := by
  show _ = Prod.map id (Controller.map π) (c.receive b)
  simp only [Controller.receive, apply_ite (Prod.map id (Controller.map π))]
  have hroute : (c.map π).route = c.route := rfl
  rw [hroute]
  cases c.route.taking? b.kind <;> rfl

/-- So does the answer to a request. -/
theorem respond (c : Controller δ) (q : Request) :
    (c.map π).respond q = ((c.respond q).1, (c.respond q).2.map π) := by
  cases q with
  | query => rfl
  | start size offset =>
      simp only [Controller.respond, Controller.map, Loader.map, Loader.start, h.start]
      rfl
  | startPacked size packedSize offset =>
      simp only [Controller.respond, Controller.map, Loader.map, Loader.startPacked, h.start]
      rfl
  | data b => exact receive c b
  | finish => rfl
  | reboot => rfl

/-- So does storing a payload. -/
theorem storePayload (c : Controller δ) (kind : BlockKind) (payload : List UInt8) :
    (c.map π).storePayload kind payload = (c.storePayload kind payload).map π := by
  cases kind with
  | plain =>
      simp only [Controller.storePayload, Controller.map, Loader.map, Loader.write, h.write]
  | deflated =>
      simp only [Controller.storePayload, Controller.map, Loader.map, Loader.unpack, h.unpack]
  | encrypted =>
      simp only [Controller.storePayload, Controller.map, Loader.map, Loader.write, h.write]

/-- So does what is left to do after an answer. -/
theorem storePending (c : Controller δ) (verdict : Verdict) (q : Request) :
    (c.map π).storePending verdict q = (c.storePending verdict q).map π := by
  simp only [Controller.storePending]
  split
  · exact h.storePayload _ _ _
  · rfl

/-- So does a request. -/
theorem execute (c : Controller δ) (q : Request) :
    (c.map π).execute q = ((c.execute q).1, (c.execute q).2.map π) := by
  simp only [Controller.execute, h.respond, h.storePending]

/-- So does an idle moment. -/
theorem idle (c : Controller δ) : (c.map π).idle = (c.idle.1, c.idle.2.map π) := by
  simp only [Controller.idle, Controller.map, Loader.map, Loader.eraseAhead, h.eraseAhead]
  split <;> rfl

end DeviceMap
end NorLoader
