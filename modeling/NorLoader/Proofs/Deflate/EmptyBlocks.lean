import NorLoader.Proofs.Deflate.Repeating
import NorLoader.Proofs.Deflate.Tracking

/-!
# Streams without output

A stored block may be empty, and as long as it is not the last one another may follow.  So there are
streams of any length that put out nothing (`emptyBlocks_reaches`).  A reader takes such a stream as a
whole and is then short of the next block (`ZlibReader.read_emptyBlocks`).
-/

namespace NorLoader

namespace Expansion

/-- An empty stored block that is not the last one. -/
def emptyBlock : List UInt8 := [0x00, 0x00, 0x00, 0xFF, 0xFF]

/-- Between blocks the decoder takes empty blocks in a row and puts out nothing. -/
theorem reaches_emptyBlocks (count : Nat) (output rest : List UInt8) :
    Reaches ⟨atBlock, [], (List.replicate count emptyBlock).flatten ++ rest, output⟩
      ⟨atBlock, [], rest, output⟩ := by
  induction count with
  | zero => exact .refl _
  | succ count ih =>
      have hblock : advance 48 ⟨atBlock, [], emptyBlock, []⟩ = ⟨atBlock, [], [], []⟩ := by
        decide +kernel
      have hfirst := reaches_piece hblock output ((List.replicate count emptyBlock).flatten ++ rest)
      rw [List.append_nil] at hfirst
      rw [List.replicate_succ, List.flatten_cons, List.append_assoc]
      exact hfirst.trans ih

end Expansion

open Expansion

/-- A stream of some empty blocks that breaks off before the next one. -/
def emptyBlocks (count : Nat) : List UInt8 :=
  [0x78, 0x01] ++ (List.replicate count emptyBlock).flatten

/-- An empty block has five bytes, and the stream starts with two. -/
theorem length_emptyBlocks (count : Nat) : (emptyBlocks count).length = 5 * count + 2 := by
  rw [emptyBlocks, List.length_append, List.length_flatten, List.map_replicate,
    List.sum_replicate_nat]
  show 2 + count * 5 = _
  omega

/-- However many blocks there are, they put out nothing. -/
theorem emptyBlocks_reaches (count : Nat) (output : List UInt8) :
    Reaches ⟨.start, [], emptyBlocks count, output⟩ ⟨atBlock, [], [], output⟩ := by
  have hheader : advance 16 ⟨.start, [], [0x78, 0x01], []⟩ = ⟨atBlock, [], [], []⟩ := by
    decide +kernel
  have hfirst := reaches_piece hheader output (List.replicate count emptyBlock).flatten
  have hblocks := reaches_emptyBlocks count output []
  rw [List.append_nil] at hfirst hblocks
  exact hfirst.trans hblocks

/-- A run over all that is left of a stream takes all of it, if the stream breaks off and there is room
    for what it puts out until then. -/
theorem DecoderRun.Follows.run_of_hungry {r : DecoderRun} {x y : Expansion} {given : Nat}
    (h : r.Follows x [] given) (hy : x.Reaches y) (hungry : y.Hungry) (hinput : y.input = [])
    (hroom : y.output.length < given + windowSize) :
    r.run.1 = .starved ∧ r.run.2.input = [] ∧ r.run.2.pos ≤ y.output.length - given := by
  obtain ⟨x', -, hrest, hfollows, hhalts⟩ := h.run hy (hungry.next? hinput)
  have hlength := hfollows.length
  have hle := hrest.input_output.2.length_le
  generalize r.run = result at hfollows hhalts hlength ⊢
  obtain ⟨halt, r'⟩ := result
  dsimp only at hlength
  cases hhalts with
  | full hfull =>
      dsimp only at hfull
      omega
  | starved hempty => exact ⟨rfl, hempty, Nat.le_sub_of_add_le (by dsimp only; omega)⟩
  | finished hfinished =>
      obtain rfl := hrest.eq_of_end (next?_of_finished hfinished)
      exact absurd hfinished (hungry.not_finished _)
  | corrupt hbroken =>
      obtain rfl := hrest.eq_of_end (next?_of_broken hbroken)
      exact absurd hbroken (hungry.not_broken _)

/-- Where no more was announced, empty blocks are taken as a whole and nothing is put out. -/
theorem ZlibReader.read_emptyBlocks (count : Nat) (window : Window) :
    let result := ZlibReader.start.read (emptyBlocks count) window 0 false
    result.status = .cutShort ∧ result.consumed = (emptyBlocks count).length ∧ result.pos = 0 := by
  intro result
  let r : DecoderRun := ⟨.start, [], emptyBlocks count, window, 0, .empty⟩
  let x : Expansion := ⟨.start, [], emptyBlocks count, window.toList⟩
  have hseed : window.toList.length = windowSize := Vector.length_toList
  have hfollows : r.Follows x [] windowSize :=
    { decoder := rfl
      bits := rfl
      input := (List.append_nil _).symm
      pos_le := Nat.zero_le _
      length := hseed
      seeded := Nat.le_refl _
      recalls := .seed window
      sum := by rw [List.drop_eq_nil_of_le (Nat.le_of_eq hseed)]; rfl
      near := Decoder.near_start }
  have hreaches := emptyBlocks_reaches count window.toList
  obtain ⟨hstarved, hempty, hpos⟩ := hfollows.run_of_hungry hreaches (hungry_atBlock _) rfl
    (by show window.toList.length < _; rw [hseed]; decide)
  have hnone : r.run.2.pos = 0 := by
    rw [show (window.toList.length - windowSize) = 0 by omega] at hpos
    exact Nat.le_zero.mp hpos
  rcases hrun : r.run with ⟨halt, r'⟩
  rw [hrun] at hstarved hempty hnone
  obtain rfl : halt = .starved := hstarved
  have hresult : result = ⟨.cutShort, ⟨r'.decoder, r'.bits, .empty⟩, r'.window, r'.pos,
      (emptyBlocks count).length - r'.input.length⟩ := by
    show ZlibReader.read ZlibReader.start _ _ _ _ = _
    have hrun' : DecoderRun.run ⟨ZlibReader.start.decoder, ZlibReader.start.bits, emptyBlocks count,
      window, 0, ZlibReader.start.sum⟩ = (.starved, r') := hrun
    simp only [ZlibReader.read, hrun']
    rfl
  rw [hresult]
  refine ⟨rfl, ?_, hnone⟩
  show (emptyBlocks count).length - r'.input.length = _
  rw [hempty]
  rfl

end NorLoader
