import NorLoader.Image.Job
import NorLoader.Deflate.ZlibReader

/-!
# Unpacking into a job

A compressed image is unpacked into the decompression window and handed to the job whenever
the window is full or the stream ends.  The window is also what matches look back into, so it is
never moved or cleared.

Unpacking takes long compared with giving the device an erase command, so every read first lets
the job erase ahead.
-/

namespace NorLoader

/-- How far the compressed stream of the job is. -/
inductive StreamPhase where
  | waiting
  | reading
  | complete
  | rejected
  deriving DecidableEq, Repr

/-- The stream of one job and the data unpacked from it that the job did not get yet. -/
structure Unpacker (ρ : Type := ZlibReader) [StreamReader ρ] where
  reader : ρ := StreamReader.start
  window : Window := Vector.replicate windowSize 0
  /-- How much of the window, from its start, waits to be handed over. -/
  held : Nat := 0
  /-- Compressed bytes that the host has yet to send. -/
  packedLeft : UInt32 := 0
  phase : StreamPhase := .waiting

/-- What came of reading a piece of the stream. -/
structure Unpacking (δ : Type) (ρ : Type := ZlibReader) [StreamReader ρ] where
  unpacker : Unpacker ρ
  job : Job
  device : δ
  rest : List UInt8
  status : ReadStatus := .needsInput
  /-- Whether there was more output than the job takes. -/
  excess : Bool := false

namespace Unpacker

variable {ρ : Type} [StreamReader ρ]

/-- Gets ready for a new stream of some size.  The window keeps what it holds. -/
def restart (u : Unpacker ρ) (packedSize : UInt32) : Unpacker ρ :=
  { reader := StreamReader.start, window := u.window, held := 0, packedLeft := packedSize, phase := .waiting }

/-- Reads once from a piece, adding to the window.  Gives the status and how many bytes of the
    piece were taken. -/
def readOnce (u : Unpacker ρ) (piece : List UInt8) : ReadStatus × Nat × Unpacker ρ :=
  let ⟨reader, window, held, packedLeft, phase⟩ := u
  let more := packedLeft.toNat > piece.length
  let ⟨status, reader, window, pos, consumed⟩ := StreamReader.read reader piece window held more
  let packedLeft := satSub packedLeft (UInt32.ofNat consumed)
  (status, consumed, ⟨reader, window, pos, packedLeft, phase⟩)

end Unpacker

namespace Unpacking

variable {δ ρ : Type} [StreamReader ρ]

/-- Whether there is input to read or output that the window had no room for. -/
def canGoOn (k : Unpacking δ ρ) : Bool :=
  k.status.goesOn && (!k.rest.isEmpty || k.status = .windowFull)

variable [FlashDevice δ]

/-- Writes all that is held, and tells whether the job had room for it. -/
def handOver (k : Unpacking δ ρ) : Unpacking δ ρ :=
  let ⟨⟨reader, window, held, packedLeft, phase⟩, job, device, rest, status, excess⟩ := k
  let excess := excess || held > job.remaining.toNat
  let (job, device) := job.write .plain (window.toList.take held) device
  ⟨⟨reader, window, 0, packedLeft, phase⟩, job, device, rest, status, excess⟩

/-- Lets the job erase ahead, reads once, and hands the output over if the window is full or
    the stream can go no further. -/
def cycle (k : Unpacking δ ρ) : Unpacking δ ρ :=
  let ⟨unpacker, job, device, piece, _, excess⟩ := k
  let (_, job, device) := job.eraseAhead device
  let (status, consumed, unpacker) := unpacker.readOnce piece
  let unpacker := if consumed > 0 then { unpacker with phase := .reading } else unpacker
  let handsOver : Bool := !status.goesOn || unpacker.held = windowSize
  let k : Unpacking δ ρ := ⟨unpacker, job, device, piece.drop consumed, status, excess⟩
  if handsOver then k.handOver else k

/-- Goes through cycles while there is work and the image is incomplete, at most `n` times. -/
def cycleUpTo : Nat → Unpacking δ ρ → Unpacking δ ρ
  | 0, k => k
  | n + 1, k =>
      if k.canGoOn && k.job.remaining > 0 then cycleUpTo n k.cycle else k

omit [FlashDevice δ] in
/-- Reads on after the image is complete.  Only the end of the stream may follow, and any further
    output is excess.  The window is not full then, so one read either uses up the piece or
    settles the matter. -/
def readTrailing (k : Unpacking δ ρ) : Unpacking δ ρ :=
  if k.canGoOn && k.job.remaining = 0 then
    let ⟨unpacker, job, device, piece, _, excess⟩ := k
    let before := unpacker.held
    let (status, consumed, unpacker) := unpacker.readOnce piece
    let rest := piece.drop consumed
    if unpacker.held > before then
      ⟨{ unpacker with held := 0 }, job, device, rest, status, true⟩
    else ⟨unpacker, job, device, rest, status, excess⟩
  else k

omit [FlashDevice δ] in
/-- Settles the phase and the error once a piece was read as far as it goes.  Bytes past the end of
    the stream are excess as well. -/
def settle (k : Unpacking δ ρ) : Unpacker ρ × Job × δ :=
  let ⟨unpacker, job, device, rest, status, excess⟩ := k
  let finished : Bool := status = .done
  let excess := excess || (finished && !rest.isEmpty)
  let phase :=
    if finished then .complete
    else if status.rejects then .rejected
    else unpacker.phase
  let overdue : Bool := !finished && job.remaining = 0 && unpacker.packedLeft = 0
  let job :=
    if status.rejects then job.note .corruptStream
    else if finished && job.remaining > 0 then job.note .shortData
    else if excess || overdue then job.note .excessData
    else job
  ({ unpacker with phase := phase }, job, device)

end Unpacking

namespace Unpacker

variable {δ ρ : Type} [StreamReader ρ] [FlashDevice δ]

/-- Unpacks a piece of the stream into the job.  Every read but the last fills the window, so
    the number of windows left in the image bounds the number of reads. -/
def unpack (u : Unpacker ρ) (j : Job) (piece : List UInt8) (d : δ) : Unpacker ρ × Job × δ :=
  if u.phase = .complete then
    (u, if piece.isEmpty then j else j.note .excessData, d)
  else
    let reads := j.remaining.toNat / windowSize + 2
    (Unpacking.cycleUpTo reads ⟨u, j, d, piece, .needsInput, false⟩).readTrailing.settle

end Unpacker
end NorLoader
