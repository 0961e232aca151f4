import NorLoader.Proofs.Deflate.Expansion

/-!
# Streams that break off

For every length there is a short stream that puts out that many bytes and then stops in the
middle of a block: zeros, first as literals and then in matches that take two bytes of the stream
for 114 of output.  Every piece of it leaves the decoder at the end of a byte and in one of two
states, so that pieces can be put together at will.
-/

namespace NorLoader

namespace Expansion

/-- A stream up to the first bits of a literal zero. -/
def opening : List UInt8 := [0x78, 0x01, 0x62]

/-- The end of a literal zero and the first bits of another. -/
def literalOn : UInt8 := 0x60

/-- The end of a literal zero and the first bits of a match. -/
def literalEnd : UInt8 := 0xA0

/-- The end of a match of 114 bytes at distance one and the first bits of another. -/
def matchOn : List UInt8 := [0x3F, 0xA0]

/-- The decoder inside a literal zero. -/
@[irreducible] def inLiteral : Decoder := ((start opening).advance 32).decoder

/-- The decoder inside a match. -/
@[irreducible] def inMatch : Decoder := (advance 32 ⟨inLiteral, [], [literalEnd], []⟩).decoder

/-- After its opening the stream is inside its first literal. -/
theorem reaches_opening (rest : List UInt8) :
    (start (opening ++ rest)).Reaches ⟨inLiteral, [], rest, []⟩ := by
  have h : advance 32 ⟨.start, [], opening, []⟩ = ⟨inLiteral, [], [], []⟩ := by decide +kernel
  exact reaches_piece h [] rest

/-- With the last bits of a literal zero its byte is put out, whatever `next` comes after it. -/
theorem reaches_literal {last : UInt8} {next : Decoder}
    (h : advance 32 ⟨inLiteral, [], [last], []⟩ = ⟨next, [], [], [0]⟩) (output rest : List UInt8) :
    Reaches ⟨inLiteral, [], last :: rest, output⟩ ⟨next, [], rest, output ++ [0]⟩ := by
  have hpiece := reaches_piece h output rest
  rw [List.append_nil] at hpiece
  exact hpiece

/-- After a literal zero there may be another. -/
theorem advance_literalOn :
    advance 32 ⟨inLiteral, [], [literalOn], []⟩ = ⟨inLiteral, [], [], [0]⟩ := by
  decide +kernel

/-- After a literal zero there may be a match. -/
theorem advance_literalEnd :
    advance 32 ⟨inLiteral, [], [literalEnd], []⟩ = ⟨inMatch, [], [], [0]⟩ := by
  decide +kernel

/-- A match puts out the zero before it another 114 times, and a match may come after it. -/
theorem reaches_matchOn (output rest : List UInt8) :
    Reaches ⟨inMatch, [], matchOn ++ rest, output ++ [0]⟩
      ⟨inMatch, [], rest, output ++ (List.replicate 114 0 ++ [0])⟩ := by
  have h : advance 160 ⟨inMatch, [], matchOn, [0]⟩
      = ⟨inMatch, [], [], List.replicate 114 0 ++ [0]⟩ := by decide +kernel
  exact reaches_piece h output rest

/-! ## Pieces in a row -/

/-- A row of literal zeros puts out as many zeros. -/
theorem reaches_literals (count : Nat) (output rest : List UInt8) :
    Reaches ⟨inLiteral, [], List.replicate count literalOn ++ rest, output⟩
      ⟨inLiteral, [], rest, output ++ List.replicate count 0⟩ := by
  induction count generalizing output with
  | zero =>
      simp only [List.replicate_zero, List.nil_append, List.append_nil]
      exact .refl _
  | succ count ih =>
      have hmore := ih (output ++ [0])
      rw [List.append_assoc, List.singleton_append, ← List.replicate_succ] at hmore
      rw [List.replicate_succ, List.cons_append]
      exact (reaches_literal advance_literalOn output _).trans hmore

/-- Some matches, one after the other. -/
def matchRow (count : Nat) : List UInt8 := (List.replicate count matchOn).flatten

/-- A match takes two bytes. -/
theorem length_matchRow (count : Nat) : (matchRow count).length = 2 * count := by
  rw [matchRow, List.length_flatten, List.map_replicate, List.sum_replicate_nat]
  exact Nat.mul_comm count 2

/-- A row of matches repeats the last zero 114 times for each of them. -/
theorem reaches_matchRow (count : Nat) (output rest : List UInt8) :
    Reaches ⟨inMatch, [], matchRow count ++ rest, output ++ [0]⟩
      ⟨inMatch, [], rest, output ++ List.replicate (114 * count) 0 ++ [0]⟩ := by
  induction count generalizing output with
  | zero =>
      simp only [matchRow, Nat.mul_zero, List.replicate_zero, List.flatten_nil, List.nil_append,
        List.append_nil]
      exact .refl _
  | succ count ih =>
      -- the zero that stands last is what the next match repeats
      have hfirst := reaches_matchOn output (matchRow count ++ rest)
      have hmore := ih (output ++ List.replicate 114 0)
      rw [← List.append_assoc output] at hfirst
      rw [List.append_assoc output (List.replicate 114 0) (List.replicate (114 * count) 0),
        List.replicate_append_replicate] at hmore
      have hrow : matchRow (count + 1) ++ rest = matchOn ++ (matchRow count ++ rest) := by
        simp only [matchRow, List.replicate_succ, List.flatten_cons, List.append_assoc]
      rw [hrow, Nat.mul_succ, Nat.add_comm (114 * count)]
      exact hfirst.trans hmore

/-- In a match the decoder waits for the next bit. -/
theorem hungry_inMatch (output : List UInt8) : Hungry ⟨inMatch, [], [], output⟩ := by
  have hdemand : inMatch.demand = .bit := by decide +kernel
  exact Or.inl ⟨hdemand, rfl⟩

end Expansion

open Expansion in
/-- A stream that puts out `n` bytes and then breaks off. -/
def breakingOff : Nat → List UInt8
  | 0 => []
  | n + 1 =>
      opening ++ (List.replicate (n % 114) literalOn ++ literalEnd :: matchRow (n / 114))

/-- The stream is short: two bytes for 114 of output, and the literals before the matches. -/
theorem length_breakingOff_le (n : Nat) : (breakingOff n).length ≤ n / 57 + 117 := by
  cases n with
  | zero => exact Nat.zero_le _
  | succ n =>
      simp only [breakingOff, List.length_append, List.length_replicate, List.length_cons,
        Expansion.length_matchRow]
      show 3 + (n % 114 + (2 * (n / 114) + 1)) ≤ (n + 1) / 57 + 117
      omega

open Expansion in
/-- All of the stream is read, `n` bytes are put out, and then more input is wanted. -/
theorem breakingOff_ends (n : Nat) : ∃ y, (start (breakingOff n)).Reaches y ∧ y.Hungry ∧
    y.input = [] ∧ y.output.length = n := by
  cases n with
  | zero => exact ⟨start [], .refl _, Or.inl ⟨rfl, rfl⟩, rfl, rfl⟩
  | succ n =>
      have hliterals := reaches_literals (n % 114) [] (literalEnd :: matchRow (n / 114))
      have hend := reaches_literal advance_literalEnd ([] ++ List.replicate (n % 114) 0)
        (matchRow (n / 114))
      have hmatches := reaches_matchRow (n / 114) ([] ++ List.replicate (n % 114) 0) []
      rw [List.append_nil] at hmatches
      refine ⟨_, ((reaches_opening _).trans hliterals).trans (hend.trans hmatches),
        hungry_inMatch _, rfl, ?_⟩
      simp only [List.nil_append, List.length_append, List.length_replicate,
        List.length_singleton]
      omega

end NorLoader
