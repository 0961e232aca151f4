import NorLoader.Deflate.Run

/-!
# Reading a zlib stream in pieces

A zlib reader is what is kept of a stream between two pieces of input: the decoder, the bits of an
unfinished byte and the checksum so far.  `read` decodes a piece into the window as far as it can,
and says how much input it took, where the output ends and what would let it go on.

A read that fails does not count its output into the checksum, although the output stays in the
window.
-/

namespace NorLoader

/-- A zlib stream that was read up to some point. -/
structure ZlibReader where
  decoder : Decoder := .start
  bits : List Bool := []
  sum : Adler32 := .empty
  deriving DecidableEq, Repr

namespace ZlibReader

/-- A reader at the start of a stream. -/
def start : ZlibReader := {}

/-- Reads a piece of the stream into the window from `pos` on; `more` says whether further input
    was announced. -/
def read (z : ZlibReader) (input : List UInt8) (window : Window) (pos : Nat) (more : Bool) :
    ReadResult ZlibReader :=
  let size := input.length
  let (halt, r) := DecoderRun.run ⟨z.decoder, z.bits, input, window, pos, z.sum⟩
  let ⟨decoder, bits, rest, window, pos, sum⟩ := r
  let taken := size - rest.length
  let kept : ZlibReader := ⟨decoder, bits, sum⟩
  match halt with
  | .full => ⟨.windowFull, kept, window, pos, taken⟩
  | .finished checksum =>
      let status := if sum.value = checksum then ReadStatus.done else .badChecksum
      ⟨status, kept, window, pos, taken⟩
  | .starved =>
      if more then
        let status := if pos = windowSize && !decoder.inChecksum then ReadStatus.windowFull
          else .needsInput
        ⟨status, kept, window, pos, taken⟩
      else ⟨.cutShort, ⟨decoder, bits, z.sum⟩, window, pos, taken⟩
  | .corrupt overread =>
      let back := (bits.length + overread) / 8
      ⟨.corrupt, ⟨decoder, bits, z.sum⟩, window, pos, taken - back⟩

end ZlibReader

/-- The reader that is meant where no other is named. -/
@[default_instance] instance : StreamReader ZlibReader where
  start := .start
  read := ZlibReader.read

end NorLoader
