import NorLoader.Flash.ErasePlan

/-!
# Write jobs

An image is written in a job: it is opened with a size and an offset, takes the data in any
pieces, and is closed.  Data has no answer of its own.  What goes wrong while it is written is
kept, the first error only, and told when the job is closed; the byte count goes on all the
same, so a job is complete as soon as the host has sent what it declared.
-/

namespace NorLoader

/-- How bytes are to be stored. -/
inductive Storage where
  | plain
  | encrypted
  deriving DecidableEq, Repr

/-- What is known of the image that is being written. -/
structure Job where
  active : Bool := false
  cursor : UInt32 := 0
  remaining : UInt32 := 0
  /-- Sectors of the image that are still to be erased. -/
  plan : ErasePlan := .empty
  /-- The first error of the data phase. -/
  error : Option JobError := none
  deriving DecidableEq, Repr

namespace Job

/-- The job of a loader that was not used yet. -/
def idle : Job := {}

/-- The record of a job that was just opened. -/
def fresh (size offset : UInt32) : Job :=
  { active := true, cursor := offset, remaining := size, plan := .ofSpan offset size }

/-- Keeps an error, unless an earlier one is kept already. -/
def note (j : Job) (e : JobError) : Job :=
  match j.error with
  | none => { j with error := some e }
  | some _ => j

/-- How much of some data the job still takes.  The last piece may be padded, and what goes
    past the declared size is left out. -/
def accepted (j : Job) (data : List UInt8) : List UInt8 := data.take j.remaining.toNat

/-- The record once some bytes were handed to the device. -/
def past (j : Job) (count : UInt32) : Job :=
  { j with cursor := satAdd j.cursor count, remaining := j.remaining - count }

variable {δ : Type} [FlashDevice δ]

/-- Opens a job.  The protection bits are cleared first; if that fails there is no job. -/
def start (size offset : UInt32) (d : δ) : Except JobError Unit × Job × δ :=
  match FlashDevice.unlock d with
  | (.ok (), d) => (.ok (), fresh size offset, d)
  | (.error _, d) => (.error .unlockFailed, idle, d)

/-- Hands bytes to the primitive that stores them.  The encryption latch is on only around an
    encrypted program. -/
def programVia (storage : Storage) (addr : UInt32) (data : List UInt8) (d : δ) :
    Except DeviceFault Unit × δ :=
  match storage with
  | .plain => FlashDevice.program addr data d
  | .encrypted =>
      let (result, d) :=
        FlashDevice.encryptAndProgram addr data (FlashDevice.setEncryptionLatch true d)
      (result, FlashDevice.setEncryptionLatch false d)

/-- Writes the next bytes of the image: erases up to the sector where they end, waits for the
    device and programs them.  Data past the declared size is left out, and without data nothing
    is done. -/
def write (j : Job) (storage : Storage) (data : List UInt8) (d : δ) : Job × δ :=
  match j.accepted data with
  | [] => (j, d)
  | bytes =>
      let count := UInt32.ofNat bytes.length
      let (plan, d) := j.plan.coverThrough (sectorIndex (satAdd j.cursor count)) d
      let j := { j with plan := plan }
      match programVia storage j.cursor bytes (FlashDevice.awaitIdle d) with
      | (.ok (), d) => (j.past count, d)
      | (.error _, d) => ((j.note .programFailed).past count, d)

/-- Issues the next erase of the job if the device is idle; tells whether it did. -/
def eraseAhead (j : Job) (d : δ) : Bool × Job × δ :=
  let (issued, plan, d) := j.plan.issueIfIdle d
  (issued, { j with plan := plan }, d)

/-- Closes the job and tells how it went.  A job that is short of data stays open. -/
def finish (j : Job) : Except JobError Unit × Job :=
  if !j.active then (.error .noJob, j)
  else if j.remaining > 0 then (.error .shortData, j)
  else
    let result := match j.error with
      | some e => .error e
      | none => .ok ()
    (result, { j with active := false })

end Job
end NorLoader
