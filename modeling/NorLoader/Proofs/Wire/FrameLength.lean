import Mathlib.Algebra.Order.Ring.Nat
import NorLoader.Host.MainLoop
import NorLoader.Proofs.Wire.ReadBack

/-!
# The length of a frame

A number takes a byte for every seven of its bits, and a frame is little longer than what is in it.
So every answer fits the buffer that it is sent from (`fitting_toFrame`), and every request that
the board has room for fits the receiver (`Request.length_toFrame_le`).
-/

namespace NorLoader

namespace Varint

/-- Each byte of a varint has room for seven bits. -/
theorem length_encode_le {n k : Nat} (h : n < 128 ^ (k + 1)) : (encode n).length ≤ k + 1 := by
  induction k generalizing n with
  | zero =>
      rw [encode, if_pos (by simpa using h)]
      exact Nat.le_refl 1
  | succ k ih =>
      rw [encode]
      split
      · exact Nat.succ_le_succ (Nat.zero_le _)
      · rw [List.length_cons]
        refine Nat.succ_le_succ (ih ?_)
        rw [Nat.div_lt_iff_lt_mul (by decide), ← Nat.pow_succ]
        exact h

/-- The number of an alternative takes a byte. -/
theorem length_encode_of_lt {n : Nat} (h : n < 128) : (encode n).length ≤ 1 :=
  length_encode_le (k := 0) h

end Varint

namespace Wire

theorem length_writeWord_le (w : UInt32) : (writeWord w).length ≤ 5 :=
  Varint.length_encode_le (k := 4) (Nat.lt_trans w.toNat_lt (by decide))

end Wire

theorem JobError.length_encode_le (e : JobError) : e.encode.length ≤ 1 :=
  Varint.length_encode_of_lt (by cases e <;> decide)

theorem Ack.length_encode_le (a : Ack) : a.encode.length ≤ 2 := by
  have hnumber : ∀ n < 128, (Varint.encode n).length ≤ 1 := fun _ => Varint.length_encode_of_lt
  cases a with
  | failed e =>
      have := hnumber 1 (by decide)
      have := e.length_encode_le
      simp only [encode, List.length_append]
      omega
  | ok => exact Nat.le_succ_of_le (hnumber 0 (by decide))
  | damaged => exact Nat.le_succ_of_le (hnumber 2 (by decide))
  | outOfOrder => exact Nat.le_succ_of_le (hnumber 3 (by decide))
  | wrongKind => exact Nat.le_succ_of_le (hnumber 4 (by decide))

namespace Answer

/-- The longest answer is a status with an error and a large count. -/
theorem length_encode_le (a : Answer) : a.encode.length ≤ 9 := by
  cases a with
  | ack a =>
      have := Varint.length_encode_of_lt (n := 0) (by decide)
      have := a.length_encode_le
      simp only [encode, List.length_append]
      omega
  | status active error remaining =>
      have := Varint.length_encode_of_lt (n := 1) (by decide)
      have := Wire.length_writeWord_le remaining
      have herror : (Wire.writeOption JobError.encode error).length ≤ 2 := by
        cases error with
        | none => exact Nat.le_succ 1
        | some e => exact Nat.succ_le_succ e.length_encode_le
      simp only [encode, List.length_append, Wire.writeBool, List.length_singleton]
      omega

/-- The frame of an answer is short. -/
theorem length_toFrame_le (a : Answer) : a.toFrame.length ≤ 11 := by
  have := a.length_encode_le
  have := Cobs.length_frame_le a.encode
  simp only [Cobs.groupSize] at this
  rw [toFrame]
  omega

/-- No answer is too long to be sent. -/
theorem fitting_toFrame (a : Answer) : fitting answerCapacity a.toFrame = .ok a.toFrame :=
  if_pos (Nat.le_trans a.length_toFrame_le (by decide))

end Answer

namespace Request

/-- Every request but a data block is shorter than the block's own numbers may be. -/
theorem length_encode_le (q : Request) (h : q.payloadLength < 128 ^ 2) :
    q.encode.length ≤ q.payloadLength + 16 := by
  have hnumber : ∀ n < 128, (Varint.encode n).length ≤ 1 := fun _ => Varint.length_encode_of_lt
  cases q with
  | query => exact Nat.le_trans (hnumber 0 (by decide)) (by decide)
  | start size offset =>
      have := hnumber 1 (by decide)
      have := Wire.length_writeWord_le size
      have := Wire.length_writeWord_le offset
      simp only [encode, List.length_append]
      omega
  | startPacked size packedSize offset =>
      have := hnumber 2 (by decide)
      have := Wire.length_writeWord_le size
      have := Wire.length_writeWord_le packedSize
      have := Wire.length_writeWord_le offset
      simp only [encode, List.length_append]
      omega
  | data b =>
      have := hnumber 3 (by decide)
      have := Varint.length_encode_of_lt (n := b.kind.number) (by cases b.kind <;> decide)
      have := Wire.length_writeWord_le b.seq
      have := Wire.length_writeWord_le b.crc
      have : (Varint.encode b.payload.length).length ≤ 2 := Varint.length_encode_le (k := 1) h
      simp only [encode, DataBlock.encode, Wire.writePayload, List.length_append, payloadLength]
      omega
  | finish => exact Nat.le_trans (hnumber 4 (by decide)) (by decide)
  | reboot => exact Nat.le_trans (hnumber 5 (by decide)) (by decide)

/-- No request is too long to be received, unless it carries more than the board takes. -/
theorem length_toFrame_le {q : Request} (h : q.payloadLength ≤ maxPayload) :
    q.toFrame.length ≤ Receiver.frameCapacity := by
  have hmost : maxPayload = 1024 := rfl
  have := q.length_encode_le (Nat.lt_of_le_of_lt h (by decide))
  have := Cobs.length_frame_le q.encode
  simp only [Cobs.groupSize] at this
  rw [toFrame, Receiver.frameCapacity]
  omega

end Request
end NorLoader
