import Mathlib.Algebra.Order.Ring.Nat
import NorLoader.Deflate.Run

/-!
# What a stream stands for

An expansion is the decoder with a whole stream before it and all of its output behind it: there
is no window, no piece of input ends, and a match repeats a byte of the output itself, which has
to be there.  `Packs` says by it which image a zlib stream stands for.  Whatever reads a stream
through a window and in pieces is measured by it.
-/

namespace NorLoader

/-- A stream on its way to its output, of which all is kept. -/
structure Expansion where
  decoder : Decoder
  /-- The bits of the byte taken last that were not read yet. -/
  bits : List Bool
  input : List UInt8
  output : List UInt8
  deriving DecidableEq, Repr

namespace Expansion

/-- A stream of which nothing was read. -/
def start (packed : List UInt8) : Expansion := ⟨.start, [], packed, []⟩

/-- Reads the first bit of the next byte. -/
def takeByte (x : Expansion) : Option Expansion :=
  match x.input with
  | [] => none
  | byte :: rest =>
      some { x with
        decoder := x.decoder.bit (firstBit byte)
        bits := laterBits byte
        input := rest }

/-- Puts out a byte that the decoder delivers. -/
def emit (x : Expansion) (byte : UInt8) : Expansion :=
  { x with decoder := x.decoder.delivered, output := x.output ++ [byte] }

/-- Does what the decoder waits for next, if that can be done. -/
def next? (x : Expansion) : Option Expansion :=
  match x.decoder.demand with
  | .bit =>
      match x.bits with
      | [] => x.takeByte
      | b :: bits => some { x with decoder := x.decoder.bit b, bits := bits }
  | .byteStart => x.takeByte
  | .literal byte => some (x.emit byte)
  | .copy distance =>
      if distance ≤ x.output.length then (x.output[x.output.length - distance]?).map x.emit
      else none
  | .moveByte =>
      match x.input with
      | [] => none
      | byte :: rest => some ({ x with input := rest }.emit byte)
  | .finished _ => none
  | .broken _ => none

/-- One expansion comes before another. -/
inductive Reaches : Expansion → Expansion → Prop where
  | refl (x : Expansion) : Reaches x x
  | step {x x' y : Expansion} : x.next? = some x' → Reaches x' y → Reaches x y

/-- As many steps as there are, but at most `n`. -/
def advance : Nat → Expansion → Expansion
  | 0, x => x
  | n + 1, x =>
      match x.next? with
      | none => x
      | some x' => advance n x'

/-- The decoder cannot go on without another byte of the stream. -/
def Hungry (x : Expansion) : Prop :=
  (x.decoder.demand = .bit ∧ x.bits = []) ∨ x.decoder.demand = .byteStart ∨
    x.decoder.demand = .moveByte

end Expansion

/-- A zlib stream that stands for an image: it is read to its end, nothing follows it, and the
    checksum that it declares is that of the image. -/
def Packs (packed image : List UInt8) : Prop :=
  ∃ y, (Expansion.start packed).Reaches y ∧ y.input = [] ∧ y.output = image ∧
    y.decoder.demand = .finished (Adler32.empty.addBytes image).value

namespace Decoder

/-- A bound on the bytes that a decoder puts out before it wants to read on. -/
def pending (d : Decoder) : Nat :=
  match d.stage with
  | .literal .. => 1
  | .copy _ _ left => left + 1
  | _ => 0

/-- A literal is put out once. -/
theorem pending_delivered_literal {d : Decoder} {byte : UInt8} (h : d.demand = .literal byte) :
    d.delivered.pending < d.pending := by
  obtain ⟨lastBlock, stage⟩ := d
  cases stage with
  | literal => exact Nat.zero_lt_one
  | field goal width got value => cases goal <;> cases got <;> cases h
  | _ => cases h

/-- Every byte of a match is put out once. -/
theorem pending_delivered_copy {d : Decoder} {distance : Nat} (h : d.demand = .copy distance) :
    d.delivered.pending < d.pending := by
  obtain ⟨lastBlock, stage⟩ := d
  cases stage with
  | copy tables dist left =>
      simp only [delivered]
      split
      · exact Nat.zero_lt_succ left
      · simp only [goTo, pending]
        omega
  | field goal width got value => cases goal <;> cases got <;> cases h
  | _ => cases h

end Decoder

namespace Expansion

variable {x x' y z : Expansion}

/-! ## One step -/

/-- What reading a byte takes is the first byte of the input. -/
theorem takeByte_eq_some (h : x.takeByte = some x') :
    ∃ byte rest, x.input = byte :: rest ∧ x' = { x with
      decoder := x.decoder.bit (firstBit byte)
      bits := laterBits byte
      input := rest } := by
  cases hi : x.input with
  | nil => simp [takeByte, hi] at h
  | cons byte rest =>
      simp only [takeByte, hi, Option.some.injEq] at h
      exact ⟨byte, rest, rfl, h.symm⟩

/-- There has to be a byte. -/
theorem takeByte_eq_none (h : x.input = []) : x.takeByte = none := by
  simp only [takeByte, h]

/-- Reading a byte takes input and leaves the output alone. -/
theorem takeByte_input_output (h : x.takeByte = some x') :
    x'.input <:+ x.input ∧ x.output <+: x'.output := by
  obtain ⟨byte, rest, hi, rfl⟩ := takeByte_eq_some h
  constructor
  · rw [hi]
    exact List.suffix_cons byte rest
  · exact List.prefix_rfl

/-- A step only takes from the front of the input and adds to the end of the output. -/
theorem next?_input_output (h : x.next? = some x') :
    x'.input <:+ x.input ∧ x.output <+: x'.output := by
  simp only [next?] at h
  split at h
  · split at h  -- a bit, of the next byte or of the one taken last
    · exact takeByte_input_output h
    · cases h
      exact ⟨List.suffix_rfl, List.prefix_rfl⟩
  · exact takeByte_input_output h
  · cases h
    exact ⟨List.suffix_rfl, List.prefix_append _ _⟩
  · split at h  -- a match, which needs what it repeats
    · obtain ⟨byte, -, rfl⟩ := Option.map_eq_some_iff.mp h
      exact ⟨List.suffix_rfl, List.prefix_append _ _⟩
    · cases h
  · split at h  -- a byte that is moved
    · cases h
    · rename_i byte rest hi
      cases h
      rw [hi]
      exact ⟨List.suffix_cons byte rest, List.prefix_append _ _⟩
  · cases h
  · cases h

/-! ## Many steps -/

/-- What is reached from there is reached. -/
theorem Reaches.trans (h : Reaches x y) (h' : Reaches y z) : Reaches x z := by
  induction h with
  | refl => exact h'
  | step hnext _ ih => exact .step hnext (ih h')

/-- On the way the input gets shorter and the output longer, at the same end each. -/
theorem Reaches.input_output (h : Reaches x y) : y.input <:+ x.input ∧ x.output <+: y.output := by
  induction h with
  | refl => exact ⟨List.suffix_rfl, List.prefix_rfl⟩
  | step hnext _ ih =>
      obtain ⟨hinput, houtput⟩ := next?_input_output hnext
      exact ⟨ih.1.trans hinput, houtput.trans ih.2⟩

/-- Steps in a row reach what they end with. -/
theorem reaches_advance (n : Nat) (x : Expansion) : x.Reaches (x.advance n) := by
  induction n generalizing x with
  | zero => exact .refl x
  | succ n ih =>
      simp only [advance]
      split
      · exact .refl x
      · rename_i x' hnext
        exact .step hnext (ih x')

/-- There is no step from the end of the stream. -/
theorem next?_of_finished {checksum : Nat} (h : x.decoder.demand = .finished checksum) :
    x.next? = none := by
  simp only [Expansion.next?, h]

/-- Nor is there one from where it is corrupt. -/
theorem next?_of_broken {overread : Nat} (h : x.decoder.demand = .broken overread) :
    x.next? = none := by
  simp only [Expansion.next?, h]

/-- Nor is there one that would need input where there is none. -/
theorem Hungry.next? (h : x.Hungry) (hinput : x.input = []) : x.next? = none := by
  rcases h with ⟨hdemand, hbits⟩ | hdemand | hdemand
  · simp only [Expansion.next?, hdemand, hbits, takeByte_eq_none hinput]
  · simp only [Expansion.next?, hdemand, takeByte_eq_none hinput]
  · simp only [Expansion.next?, hdemand, hinput]

/-- At its end a stream needs nothing. -/
theorem Hungry.not_finished (h : x.Hungry) (checksum : Nat) :
    x.decoder.demand ≠ .finished checksum := by
  intro hfinished
  rcases h with ⟨hdemand, -⟩ | hdemand | hdemand
  · exact nomatch hdemand.symm.trans hfinished
  · exact nomatch hdemand.symm.trans hfinished
  · exact nomatch hdemand.symm.trans hfinished

/-- Nor does it where it is corrupt. -/
theorem Hungry.not_broken (h : x.Hungry) (overread : Nat) :
    x.decoder.demand ≠ .broken overread := by
  intro hbroken
  rcases h with ⟨hdemand, -⟩ | hdemand | hdemand
  · exact nomatch hdemand.symm.trans hbroken
  · exact nomatch hdemand.symm.trans hbroken
  · exact nomatch hdemand.symm.trans hbroken

/-- From an end nothing else is reached. -/
theorem Reaches.eq_of_end (hy : x.Reaches y) (hends : x.next? = none) : x = y := by
  cases hy with
  | refl => rfl
  | step hnext _ => exact nomatch hends.symm.trans hnext

/-- Whatever is reached on the way, the end is still ahead. -/
theorem Reaches.on_to_end (hy : x.Reaches y) (hz : x.Reaches z) (hends : z.next? = none) :
    y.Reaches z := by
  induction hy with
  | refl => exact hz
  | step hnext _ ih =>
      cases hz with
      | refl => exact nomatch hends.symm.trans hnext
      | step hnext' hz =>
          cases hnext.symm.trans hnext'
          exact ih hz

/-- There is one end at most. -/
theorem Reaches.end_unique (hy : x.Reaches y) (hz : x.Reaches z) (hyends : y.next? = none)
    (hzends : z.next? = none) : y = z :=
  (hy.on_to_end hz hzends).eq_of_end hyends

/-! ## The end -/

/-- What is left of the stream; a byte of it brings seven more bits. -/
def unread (x : Expansion) : Nat := 9 * x.input.length + x.bits.length

/-- Reading a byte takes more than it brings. -/
theorem unread_takeByte (h : x.takeByte = some x') : x'.unread < x.unread := by
  obtain ⟨byte, rest, hi, rfl⟩ := takeByte_eq_some h
  simp only [unread, hi, laterBits, List.length_cons, List.length_nil]
  omega

/-- A step reads on in the stream, or puts out a byte that the decoder has at hand. -/
theorem next?_less (h : x.next? = some x') : x'.unread < x.unread ∨
    (x'.unread = x.unread ∧ x'.decoder.pending < x.decoder.pending) := by
  simp only [next?] at h
  split at h
  · split at h
    · exact Or.inl (unread_takeByte h)
    · rename_i b bits hb
      cases h
      refine Or.inl ?_
      simp only [unread, hb, List.length_cons]
      omega
  · exact Or.inl (unread_takeByte h)
  · rename_i byte hd
    cases h
    exact Or.inr ⟨rfl, Decoder.pending_delivered_literal hd⟩
  · rename_i distance hd
    split at h
    · obtain ⟨byte, -, rfl⟩ := Option.map_eq_some_iff.mp h
      exact Or.inr ⟨rfl, Decoder.pending_delivered_copy hd⟩
    · cases h
  · split at h
    · cases h
    · rename_i byte rest hi
      cases h
      refine Or.inl ?_
      simp only [unread, emit, hi, List.length_cons]
      omega
  · cases h
  · cases h

/-- Every expansion comes to an end. -/
theorem exists_last (x : Expansion) : ∃ y, x.Reaches y ∧ y.next? = none := by
  induction hn : x.unread using Nat.strong_induction_on generalizing x with
  | _ n ih =>
      -- for one and the same rest of the stream, by what the decoder still has to put out
      induction hm : x.decoder.pending using Nat.strong_induction_on generalizing x with
      | _ m ih' =>
          cases hnext : x.next? with
          | none => exact ⟨x, .refl x, hnext⟩
          | some x' =>
              obtain ⟨y, hreaches, hends⟩ : ∃ y, x'.Reaches y ∧ y.next? = none := by
                rcases next?_less hnext with hless | ⟨hsame, hless⟩
                · exact ih _ (hn ▸ hless) x' rfl
                · exact ih' _ (hm ▸ hless) x' (hsame.trans hn) rfl
              exact ⟨y, .step hnext hreaches, hends⟩

/-- The same place in a stream with more input behind and more output before. -/
def framed (before : List UInt8) (behind : List UInt8) (x : Expansion) : Expansion :=
  { x with input := x.input ++ behind, output := before ++ x.output }

/-- Reading a byte does not look at what is around. -/
theorem takeByte_framed (before behind : List UInt8) (h : x.takeByte = some x') :
    (x.framed before behind).takeByte = some (x'.framed before behind) := by
  obtain ⟨byte, rest, hi, rfl⟩ := takeByte_eq_some h
  simp only [takeByte, framed, hi, List.cons_append]

/-- Nor does any other step. -/
theorem next?_framed (before behind : List UInt8) (h : x.next? = some x') :
    (x.framed before behind).next? = some (x'.framed before behind) := by
  have hdemand : (x.framed before behind).decoder.demand = x.decoder.demand := rfl
  simp only [next?] at h ⊢
  rw [hdemand]
  cases hd : x.decoder.demand with
  | bit =>
      simp only [hd] at h ⊢
      have hbits : (x.framed before behind).bits = x.bits := rfl
      rw [hbits]
      cases hb : x.bits with
      | nil =>
          simp only [hb] at h ⊢
          exact takeByte_framed before behind h
      | cons b bits =>
          simp only [hb] at h ⊢
          cases h
          rfl
  | byteStart =>
      simp only [hd] at h ⊢
      exact takeByte_framed before behind h
  | literal byte =>
      simp only [hd] at h ⊢
      cases h
      simp only [framed, emit, List.append_assoc]
  | copy distance =>
      simp only [hd] at h ⊢
      split at h
      · rename_i hle
        obtain ⟨byte, hbyte, rfl⟩ := Option.map_eq_some_iff.mp h
        -- the distance counts from the end, so what is put before moves nothing
        have hlength : (x.framed before behind).output.length
            = before.length + x.output.length := List.length_append
        have hsame : (before ++ x.output)[before.length + x.output.length - distance]?
            = x.output[x.output.length - distance]? := by
          rw [List.getElem?_append_right (by omega)]
          congr 1
          omega
        rw [hlength, if_pos (Nat.le_add_left_of_le hle)]
        refine Option.map_eq_some_iff.mpr ⟨byte, hsame.trans hbyte, ?_⟩
        simp only [framed, emit, List.append_assoc]
      · cases h
  | moveByte =>
      simp only [hd] at h ⊢
      cases hi : x.input with
      | nil =>
          simp only [hi] at h
          exact nomatch h
      | cons byte rest =>
          simp only [hi, framed, List.cons_append] at h ⊢
          cases h
          simp only [emit, List.append_assoc]
  | finished checksum =>
      simp only [hd] at h
      exact nomatch h
  | broken overread =>
      simp only [hd] at h
      exact nomatch h

/-- What is reached is reached in any surroundings. -/
theorem Reaches.framed (before behind : List UInt8) (h : x.Reaches y) :
    (x.framed before behind).Reaches (y.framed before behind) := by
  induction h with
  | refl => exact .refl _
  | step hnext _ ih => exact .step (next?_framed before behind hnext) ih

/-- What a piece does does not depend on what comes before and behind it. -/
theorem reaches_piece {n : Nat} {d d' : Decoder} {bits bits' : List Bool}
    {piece out out' : List UInt8} (h : advance n ⟨d, bits, piece, out⟩ = ⟨d', bits', [], out'⟩)
    (output rest : List UInt8) :
    Reaches ⟨d, bits, piece ++ rest, output ++ out⟩ ⟨d', bits', rest, output ++ out'⟩ := by
  have hreaches := reaches_advance n ⟨d, bits, piece, out⟩
  rw [h] at hreaches
  exact hreaches.framed output rest

end Expansion

/-- A stream stands for one image at most. -/
theorem Packs.unique {packed image image' : List UInt8} (h : Packs packed image)
    (h' : Packs packed image') : image = image' := by
  obtain ⟨y, hreaches, -, rfl, hfinished⟩ := h
  obtain ⟨y', hreaches', -, rfl, hfinished'⟩ := h'
  rw [hreaches.end_unique hreaches' (Expansion.next?_of_finished hfinished)
    (Expansion.next?_of_finished hfinished')]

end NorLoader
