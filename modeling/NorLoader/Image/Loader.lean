import NorLoader.Image.Unpacker

/-!
# The loader

A loader owns the device, the job and the unpacker.  There is one of each, so there is one
job at a time.
-/

namespace NorLoader

/-- The device with all that is known about the job on it. -/
structure Loader (δ : Type) (ρ : Type := ZlibReader) [StreamReader ρ] where
  device : δ
  job : Job := .idle
  unpacker : Unpacker ρ := {}

namespace Loader

variable {δ ρ : Type} [StreamReader ρ] [FlashDevice δ]

/-- Opens a job for an image that comes as it is. -/
def start (l : Loader δ ρ) (size offset : UInt32) : Except JobError Unit × Loader δ ρ :=
  let ⟨device, _, unpacker⟩ := l
  let (result, job, device) := Job.start size offset device
  (result, ⟨device, job, unpacker.restart 0⟩)

/-- Opens a job for an image of some size that comes as a zlib stream of another size. -/
def startPacked (l : Loader δ ρ) (size packedSize offset : UInt32) :
    Except JobError Unit × Loader δ ρ :=
  let ⟨device, _, unpacker⟩ := l
  let (result, job, device) := Job.start size offset device
  (result, ⟨device, job, unpacker.restart packedSize⟩)

/-- Writes the next bytes of an image. -/
def write (l : Loader δ ρ) (storage : Storage) (data : List UInt8) : Loader δ ρ :=
  let ⟨device, job, unpacker⟩ := l
  let (job, device) := job.write storage data device
  ⟨device, job, unpacker⟩

/-- Unpacks the next piece of a stream and writes what comes out. -/
def unpack (l : Loader δ ρ) (piece : List UInt8) : Loader δ ρ :=
  let ⟨device, job, unpacker⟩ := l
  let (unpacker, job, device) := unpacker.unpack job piece device
  ⟨device, job, unpacker⟩

/-- Closes the job, if it has all its bytes. -/
def finish (l : Loader δ ρ) : Except JobError Unit × Loader δ ρ :=
  let (result, job) := l.job.finish
  (result, { l with job := job })

/-- Issues the next erase of the job if the device is idle; tells whether it did. -/
def eraseAhead (l : Loader δ ρ) : Bool × Loader δ ρ :=
  let ⟨device, job, unpacker⟩ := l
  let (issued, job, device) := job.eraseAhead device
  (issued, ⟨device, job, unpacker⟩)

end Loader
end NorLoader
