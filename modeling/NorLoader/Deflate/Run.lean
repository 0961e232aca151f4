import NorLoader.Deflate.StreamReader
import NorLoader.Checksum.Adler32
import NorLoader.Deflate.Decoder

/-!
# Running the decoder

A run couples the decoder with a piece of input and with the window that takes its output.  A byte
of input is taken only when one of its bits is wanted, so what is left of the input tells how far
the stream was read.  The window is written from `pos` on and a match looks back around its end.
A run goes on until the input is used up, the window is full and a byte is to be stored, the stream
ends, or the stream turns out to be corrupt.
-/

namespace NorLoader

/-- The decoder with the input that it reads and the window that it writes. -/
structure DecoderRun where
  decoder : Decoder
  /-- The bits of the byte taken last that were not read yet. -/
  bits : List Bool
  input : List UInt8
  window : Window
  /-- Where the next output byte goes. -/
  pos : Nat
  sum : Adler32

/-- Why a run stops. -/
inductive RunHalt where
  | starved
  /-- A byte is to be stored and the window is full. -/
  | full
  /-- The stream is at its end and declares this checksum. -/
  | finished (checksum : Nat)
  /-- The stream is corrupt; `overread` bits were read past what settles that. -/
  | corrupt (overread : Nat)
  deriving DecidableEq, Repr

/-- The bit of a byte that comes first. -/
def firstBit (b : UInt8) : Bool := b.toNat.testBit 0

/-- The other bits of a byte, in the order they are read. -/
def laterBits (b : UInt8) : List Bool :=
  let n := b.toNat
  [n.testBit 1, n.testBit 2, n.testBit 3, n.testBit 4, n.testBit 5, n.testBit 6, n.testBit 7]

namespace DecoderRun

/-- Gives the decoder the first bit of the next input byte. -/
def readByteStart (r : DecoderRun) : Option RunHalt × DecoderRun :=
  match r.input with
  | [] => (some .starved, r)
  | byte :: rest =>
      (none, { r with
        decoder := r.decoder.bit (firstBit byte)
        bits := laterBits byte
        input := rest })

/-- Goes on by one bit. -/
def readBit (r : DecoderRun) : Option RunHalt × DecoderRun :=
  match r.bits with
  | [] => r.readByteStart
  | b :: bits => (none, { r with decoder := r.decoder.bit b, bits := bits })

/-- Stores a byte that the decoder delivers, if there is room for it. -/
def put (r : DecoderRun) (byte : UInt8) : Option RunHalt × DecoderRun :=
  let ⟨decoder, bits, input, window, pos, sum⟩ := r
  if h : pos < windowSize then
    (none, ⟨decoder.delivered, bits, input, window.set pos byte h, pos + 1, sum.addByte byte⟩)
  else (some .full, ⟨decoder, bits, input, window, pos, sum⟩)

/-- The output byte at some distance back, around the end of the window. -/
def lookBack (r : DecoderRun) (distance : Nat) : UInt8 :=
  r.window.get ⟨(r.pos + windowSize - distance) % windowSize, Nat.mod_lt _ (by decide)⟩

/-- Goes on by a byte that stands in the stream as it is. -/
def moveByte (r : DecoderRun) : Option RunHalt × DecoderRun :=
  if r.pos < windowSize then
    match r.input with
    | [] => (some .starved, r)
    | byte :: rest => put { r with input := rest } byte
  else (some .full, r)

/-- Does what the decoder waits for next, or says why that cannot be done. -/
def step (r : DecoderRun) : Option RunHalt × DecoderRun :=
  match r.decoder.demand with
  | .bit => r.readBit
  | .byteStart => r.readByteStart
  | .literal byte => r.put byte
  | .copy distance =>
      let byte := r.lookBack distance
      r.put byte
  | .moveByte => r.moveByte
  | .finished checksum => (some (.finished checksum), r)
  | .broken overread => (some (.corrupt overread), r)

/-- What a run has left to do: bits to read and room to fill.  Taking a byte of input brings
    seven more bits to read, so a byte weighs more than that. -/
def work (r : DecoderRun) : Nat := 9 * r.input.length + r.bits.length + (windowSize - r.pos)

/-! ### Every step uses some of the work -/

/-- With its first bit read, a byte is less work. -/
theorem work_readByteStart {r r' : DecoderRun} (h : r.readByteStart = (none, r')) :
    r'.work < r.work := by
  unfold readByteStart at h
  split at h
  · cases h
  · rename_i byte rest hi
    cases h
    simp only [work, hi, laterBits, List.length_cons, List.length_nil]
    omega

/-- A bit is work. -/
theorem work_readBit {r r' : DecoderRun} (h : r.readBit = (none, r')) : r'.work < r.work := by
  unfold readBit at h
  split at h
  · exact work_readByteStart h
  · rename_i b bits hb
    cases h
    simp only [work, hb, List.length_cons]
    omega

/-- So is a byte of output. -/
theorem work_put {r r' : DecoderRun} {byte : UInt8} (h : r.put byte = (none, r')) :
    r'.work < r.work := by
  obtain ⟨decoder, bits, input, window, pos, sum⟩ := r
  simp only [put] at h
  split at h
  · cases h
    simp only [work]
    omega
  · cases h

/-- So is a byte that is copied to the output. -/
theorem work_moveByte {r r' : DecoderRun} (h : r.moveByte = (none, r')) : r'.work < r.work := by
  unfold moveByte at h
  split at h
  · split at h
    · cases h
    · rename_i byte rest hi
      have := work_put h
      simp only [work, hi, List.length_cons] at this ⊢
      omega
  · cases h

/-- Every step that does not stop the run is work. -/
theorem work_step {r r' : DecoderRun} (h : r.step = (none, r')) : r'.work < r.work := by
  unfold step at h
  split at h
  · exact work_readBit h
  · exact work_readByteStart h
  · exact work_put h
  · exact work_put h
  · exact work_moveByte h
  · cases h
  · cases h

/-- Steps until something stops the run. -/
def run (r : DecoderRun) : RunHalt × DecoderRun :=
  match _h : r.step with
  | (none, r') => run r'
  | (some halt, r') => (halt, r')
termination_by r.work
decreasing_by exact work_step _h

end DecoderRun
end NorLoader
