import NorLoader.Geometry

/-!
# Readers of compressed streams

A reader is what is kept of a compressed stream between two pieces of it.  It unpacks a piece into the
window as far as it can, and says how much of the piece it took, where the output ends and what would
let it go on.  Whatever unpacks an image does so by this interface.
-/

namespace NorLoader

/-- The decompression window: the output is written to it, and matches look back into it. -/
abbrev Window := Vector UInt8 windowSize

/-- How a read ended. -/
inductive ReadStatus where
  /-- The input is used up and more was announced. -/
  | needsInput
  | windowFull
  /-- The stream is complete and its checksum is right. -/
  | done
  /-- The stream is complete and its checksum is wrong. -/
  | badChecksum
  /-- The input is used up, no more was announced and the stream is not at its end. -/
  | cutShort
  | corrupt
  deriving DecidableEq, Repr

/-- Whether the reader can go on after a status. -/
def ReadStatus.goesOn : ReadStatus → Bool
  | needsInput => true
  | windowFull => true
  | _ => false

/-- Whether a status means that the stream was rejected. -/
def ReadStatus.rejects (s : ReadStatus) : Bool := !s.goesOn && s != .done

/-- What a read gives back. -/
structure ReadResult (ρ : Type) where
  status : ReadStatus
  reader : ρ
  window : Window
  /-- Where the output ends. -/
  pos : Nat
  /-- How many bytes of the input were taken. -/
  consumed : Nat

/-- Something that reads a compressed stream piece by piece. -/
class StreamReader (ρ : Type) where
  /-- The reader before the first byte of a stream. -/
  start : ρ
  /-- Reads a piece of the stream into the window from some position on; the flag says whether further
      input was announced. -/
  read : ρ → List UInt8 → Window → Nat → Bool → ReadResult ρ

open StreamReader

/-- Without input nothing is put out, wherever the output would go. -/
def StreamReader.Drained {ρ : Type} [StreamReader ρ] (z : ρ) : Prop :=
  ∀ window pos more, (read z [] window pos more).pos = pos ∧
    (read z [] window pos more).window = window

/-- The contract of a reader. -/
class LawfulStreamReader (ρ : Type) [StreamReader ρ] : Prop where
  consumed_read_le : ∀ (z : ρ) input window pos more,
    (read z input window pos more).consumed ≤ input.length
  /-- The output is added to the window, and what is before it stays. -/
  take_read : ∀ (z : ρ) input window pos more,
    pos ≤ (read z input window pos more).pos ∧
      (read z input window pos more).window.toList.take pos = window.toList.take pos
  /-- The output ends within the window. -/
  pos_read_le : ∀ (z : ρ) input window pos more, pos ≤ windowSize →
    (read z input window pos more).pos ≤ windowSize
  /-- A read that can go on has filled the window, or it has used up its input and was told of more. -/
  read_goesOn : ∀ (z : ρ) input window pos more, pos ≤ windowSize →
    (read z input window pos more).status.goesOn = true →
    (read z input window pos more).status = .windowFull ∧
        (read z input window pos more).pos = windowSize ∨
      (read z input window pos more).status = .needsInput ∧
        (read z input window pos more).consumed = input.length ∧ more = true
  drained_start : Drained (start : ρ)
  /-- A reader that wants more input holds nothing back. -/
  drained_read : ∀ (z : ρ) input window pos more,
    (read z input window pos more).status = .needsInput →
      Drained (read z input window pos more).reader

end NorLoader
