import NorLoader.Proofs.Deflate.Expansion

/-!
# A stream that repeats the window

What stands in the window before a stream begins can be reached by a match, although it is no
output of the stream.  `repeating` is a stream of nothing but such matches: each of its blocks
repeats 128 bytes from a whole window back, so together they put out all that the window held
(`repeating_reaches`).
-/

namespace NorLoader

namespace Expansion

/-- The decoder before a block. -/
@[irreducible] def atBlock : Decoder := ((start [0x78, 0x01]).advance 16).decoder

/-- A block of one match, of 128 bytes at the greatest distance. -/
def repeatBlock : List UInt8 := [0x1A, 0xE8, 0xFB, 0xFF, 0x01]

/-- The decoder about to carry out that match. -/
def atRepeat : Decoder := ⟨false, .copy fixedTables windowSize 128⟩

/-- A match that does not reach into its own output repeats the bytes at its distance. -/
theorem reaches_copied {d : Decoder} {tables : CodeTables} {distance : Nat} {piece : List UInt8}
    (hne : piece ≠ []) (hd : d.stage = .copy tables distance piece.length) (bits : List Bool)
    (input before behind : List UInt8) (hdistance : (piece ++ behind).length = distance) :
    Reaches ⟨d, bits, input, before ++ piece ++ behind⟩
      ⟨d.nextLiteral tables, bits, input, before ++ piece ++ behind ++ piece⟩ := by
  induction piece generalizing d before behind with
  | nil => exact absurd rfl hne
  | cons b piece ih =>
      have hdemand : d.demand = .copy distance := by simp only [Decoder.demand, hd]
      have houtput : before ++ b :: piece ++ behind = before ++ b :: (piece ++ behind) :=
        List.append_assoc ..
      have hlength : (before ++ b :: (piece ++ behind)).length = before.length + distance := by
        rw [List.length_append, ← hdistance]
        rfl
      have hnext : Expansion.next? ⟨d, bits, input, before ++ b :: piece ++ behind⟩
          = some ⟨d.delivered, bits, input, before ++ b :: piece ++ behind ++ [b]⟩ := by
        simp only [next?, hdemand, houtput, hlength, Nat.le_add_left, if_true, Nat.add_sub_cancel,
          List.getElem?_append_right (Nat.le_refl _), Nat.sub_self, List.getElem?_cons_zero]
        rfl
      refine .step hnext ?_
      cases piece with
      | nil =>
          have hdelivered : d.delivered = d.nextLiteral tables := by
            simp only [Decoder.delivered, hd, List.length_singleton, Nat.le_refl, if_true]
          rw [hdelivered]
          exact .refl _
      | cons b' piece =>
          -- the byte that was put out stands behind all that is still to be repeated
          have hdelivered : d.delivered = d.goTo (.copy tables distance (b' :: piece).length) := by
            simp [Decoder.delivered, hd]
          have hshifted : (b' :: piece ++ (behind ++ [b])).length = distance := by
            rw [← hdistance, ← List.append_assoc, List.length_append]
            rfl
          have hrest := ih (List.cons_ne_nil _ _) (congrArg Decoder.stage hdelivered)
            (before ++ [b]) (behind ++ [b]) hshifted
          have hnextLiteral : d.delivered.nextLiteral tables = d.nextLiteral tables := by
            rw [hdelivered]
            rfl
          rw [hnextLiteral] at hrest
          simpa using hrest

/-- A block puts out again the piece that a window ago was put out. -/
theorem reaches_repeatBlock {piece : List UInt8} (hpiece : piece.length = 128)
    (before behind rest : List UInt8) (h : (piece ++ behind).length = windowSize) :
    Reaches ⟨atBlock, [], repeatBlock ++ rest, before ++ piece ++ behind⟩
      ⟨atBlock, [], rest, before ++ piece ++ behind ++ piece⟩ := by
  have hmatch : advance 40 ⟨atBlock, [], repeatBlock, []⟩
      = ⟨atRepeat, List.replicate 7 false, [], []⟩ := by decide +kernel
  have hend : advance 8 ⟨atRepeat.nextLiteral fixedTables, List.replicate 7 false, [], []⟩
      = ⟨atBlock, [], [], []⟩ := by decide +kernel
  have hne : piece ≠ [] := by
    rintro rfl
    exact nomatch hpiece
  have hopened := reaches_piece hmatch (before ++ piece ++ behind) rest
  have hstage : atRepeat.stage = .copy fixedTables windowSize piece.length := by
    rw [hpiece]
    rfl
  have hcopied := reaches_copied hne hstage (List.replicate 7 false) rest before behind h
  have hclosed := reaches_piece hend (before ++ piece ++ behind ++ piece) rest
  rw [List.append_nil] at hopened hclosed
  exact (hopened.trans hcopied).trans hclosed

/-- Some blocks in a row repeat as much of the window. -/
theorem reaches_repeatBlocks {window : List UInt8} (hwindow : window.length = windowSize)
    (count : Nat) (hcount : 128 * count ≤ windowSize) (rest : List UInt8) :
    Reaches ⟨atBlock, [], (List.replicate count repeatBlock).flatten ++ rest, window⟩
      ⟨atBlock, [], rest, window ++ window.take (128 * count)⟩ := by
  induction count generalizing rest with
  | zero =>
      rw [Nat.mul_zero, List.take_zero, List.append_nil]
      exact .refl _
  | succ count ih =>
      -- the next block goes on in the window where the ones before it left off
      have hlater : (window.drop (128 * count)).length = windowSize - 128 * count := by
        rw [List.length_drop, hwindow]
      have hpiece : ((window.drop (128 * count)).take 128).length = 128 := by
        rw [List.length_take, hlater]
        omega
      have hnext := reaches_repeatBlock hpiece (window.take (128 * count))
        ((window.drop (128 * count)).drop 128 ++ window.take (128 * count)) rest (by
          rw [← List.append_assoc, List.take_append_drop, List.length_append, hlater,
            List.length_take, hwindow]
          omega)
      rw [← List.append_assoc (window.take _ ++ _), List.append_assoc (window.take _),
        List.take_append_drop, List.take_append_drop, List.append_assoc window, ← List.take_add,
        ← Nat.mul_succ] at hnext
      rw [List.replicate_succ', List.flatten_append, List.flatten_singleton, List.append_assoc]
      exact (ih (by omega) _).trans hnext

/-- Between blocks the decoder waits for the next bit. -/
theorem hungry_atBlock (output : List UInt8) : Hungry ⟨atBlock, [], [], output⟩ := by
  have hdemand : atBlock.demand = .bit := by decide +kernel
  exact Or.inl ⟨hdemand, rfl⟩

end Expansion

open Expansion

/-- A stream that puts out what the window held before it, and then breaks off. -/
def repeating : List UInt8 := [0x78, 0x01] ++ (List.replicate 256 repeatBlock).flatten

/-- All blocks in a row put the window out again. -/
theorem repeating_reaches {window : List UInt8} (hwindow : window.length = windowSize) :
    Reaches ⟨.start, [], repeating, window⟩ ⟨atBlock, [], [], window ++ window⟩ := by
  have hheader : advance 16 ⟨.start, [], [0x78, 0x01], []⟩ = ⟨atBlock, [], [], []⟩ := by
    decide +kernel
  have hfirst := reaches_piece hheader window (List.replicate 256 repeatBlock).flatten
  have hblocks := reaches_repeatBlocks hwindow 256 (Nat.le_refl _) []
  rw [List.append_nil] at hfirst hblocks
  have hall : window.take (128 * 256) = window := List.take_of_length_le (Nat.le_of_eq hwindow)
  rw [hall] at hblocks
  exact hfirst.trans hblocks

end NorLoader
