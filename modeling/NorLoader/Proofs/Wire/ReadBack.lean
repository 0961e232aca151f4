import Mathlib.Algebra.Order.Ring.Nat
import NorLoader.Proofs.Wire.Stuffing
import NorLoader.Wire.Codec

/-!
# Messages are read back

A writer and its reader belong together if the reader takes exactly what was written, whatever
follows it (`Takes`).  Readers that come one after the other then take what was written one after
the other (`Takes.bind`), so the proof for a message goes along its fields.
-/

namespace NorLoader

/-- Reading takes some bytes, whatever comes after them, and gives a value. -/
def Takes {α : Type} (read : Reader α) (bytes : List UInt8) (a : α) : Prop :=
  ∀ rest, read (bytes ++ rest) = .ok (a, rest)

namespace Takes

variable {α β : Type} {read : Reader α} {next : α → Reader β} {bytes bytes' : List UInt8}
  {a : α} {b : β}

/-- Parts are read one behind the other. -/
theorem bind (h : Takes read bytes a) (h' : Takes (next a) bytes' b) :
    Takes (read >>= next) (bytes ++ bytes') b := by
  intro rest
  show (read (bytes ++ bytes' ++ rest) >>= fun out => next out.1 out.2) = _
  rw [List.append_assoc, h]
  exact h' rest

/-- The last field of a message. -/
theorem last (h : Takes read bytes a) (h' : next a = pure b) : Takes (read >>= next) bytes b := by
  intro rest
  show (read (bytes ++ rest) >>= fun out => next out.1 out.2) = _
  rw [h]
  show next a rest = _
  rw [h']
  rfl

/-- What is read in bytes that hold nothing else. -/
theorem run' (h : Takes read bytes a) : read.run' bytes = .ok a := by
  have hread := h []
  rw [List.append_nil] at hread
  show (fun out => out.1) <$> read bytes = _
  rw [hread]
  rfl

end Takes

/-! ## Numbers -/

namespace Varint

theorem readUpTo_encode {k n : Nat} (h : n < 128 ^ (k + 1)) (rest : List UInt8) :
    readUpTo (k + 1) (encode n ++ rest) = .ok (n, rest) := by
  induction k generalizing n with
  | zero =>
      rw [encode, if_pos (by simpa using h)]
      have hbyte : (UInt8.ofNat n).toNat = n := by
        rw [UInt8.toNat_ofNat']
        omega
      simp only [List.cons_append, List.nil_append, readUpTo, hbyte]
      exact if_pos (by simpa using h)
  | succ k ih =>
      rw [encode]
      split
      · rename_i hlast
        have hbyte : (UInt8.ofNat n).toNat = n := by
          rw [UInt8.toNat_ofNat']
          omega
        simp only [List.cons_append, List.nil_append, readUpTo, hbyte, if_pos hlast]
      · have hbyte : (UInt8.ofNat (n % 128 + 128)).toNat = n % 128 + 128 := by
          rw [UInt8.toNat_ofNat']
          omega
        have hhigh : n / 128 < 128 ^ (k + 1) := by
          rw [Nat.div_lt_iff_lt_mul (by decide), ← Nat.pow_succ]
          exact h
        have hmore : ¬n % 128 + 128 < 128 := by omega
        rw [List.cons_append, readUpTo, hbyte, if_neg hmore, ih hhigh]
        refine congrArg (fun number => Except.ok (number, rest)) ?_
        rw [Nat.add_sub_cancel]
        exact Nat.mod_add_div n 128

/-- The bytes that a width allows for hold every number of that width. -/
theorem read_encode {width n : Nat} (hwidth : 0 < width) (h : n < 2 ^ width)
    (rest : List UInt8) : read width (encode n ++ rest) = .ok (n, rest) := by
  obtain ⟨k, hk⟩ : ∃ k, (width + 6) / 7 = k + 1 := ⟨(width + 6) / 7 - 1, by omega⟩
  have hbytes : n < 128 ^ (k + 1) := by
    refine Nat.lt_of_lt_of_le h ?_
    rw [show 128 = 2 ^ 7 from rfl, ← Nat.pow_mul]
    exact Nat.pow_le_pow_right (by decide) (by omega)
  rw [read, hk, readUpTo_encode hbytes]
  simp only [Nat.shiftLeft_eq, Nat.one_mul, if_pos h]

end Varint

/-! ## Elements -/

namespace Wire

/-- A number is read back by a type that holds it. -/
theorem takes_number {width n : Nat} (hwidth : 0 < width) (h : n < 2 ^ width) :
    Takes (readNumber width) (Varint.encode n) n :=
  Varint.read_encode hwidth h

theorem takes_word (w : UInt32) : Takes readWord (writeWord w) w := by
  refine (takes_number (by decide) w.toNat_lt).last ?_
  rw [UInt32.ofNat_toNat]

theorem takes_variant {α : Type} {ofNumber : Nat → Option α} {n : Nat} {a : α} (hn : n < 2 ^ 32)
    (h : ofNumber n = some a) : Takes (readVariant ofNumber) (Varint.encode n) a := by
  refine (takes_number (by decide) hn).last ?_
  rw [h]

theorem takes_byte (b : UInt8) : Takes readByte [b] b := fun _ => rfl

theorem takes_bool (b : Bool) : Takes readBool (writeBool b) b := by
  refine (takes_byte _).last ?_
  cases b <;> rfl

theorem takes_option {α : Type} {read : Reader α} {write : α → List UInt8}
    (h : ∀ a, Takes read (write a) a) (o : Option α) :
    Takes (readOption read) (writeOption write o) o := by
  cases o with
  | none => exact (takes_byte 0).last rfl
  | some a => exact (takes_byte 1).bind ((h a).last rfl)

theorem takes_bytes (payload : List UInt8) :
    Takes (readBytes payload.length) payload payload := by
  intro rest
  have hlength : ¬(payload ++ rest).length < payload.length := by
    rw [List.length_append]
    exact Nat.not_lt.mpr (Nat.le_add_right _ _)
  rw [readBytes, if_neg hlength, List.take_left, List.drop_left]

/-- Whether a container has room for a number of bytes.  One without a limit still counts them in a
    size. -/
def HasRoom [Platform] (limit : Option Nat) (length : Nat) : Prop :=
  length < 2 ^ Platform.sizeBits ∧ ∀ most ∈ limit, length ≤ most

theorem takes_length [Platform] {n : Nat} (h : n < 2 ^ Platform.sizeBits) :
    Takes readLength (Varint.encode n) n :=
  takes_number (Nat.lt_of_lt_of_le (by decide) Platform.words_fit) h

/-- A payload is read back if there is room for it. -/
theorem takes_payload [Platform] {limit : Option Nat} {payload : List UInt8}
    (h : HasRoom limit payload.length) :
    Takes (readPayload limit) (writePayload payload) payload := by
  refine (takes_length h.1).bind ?_
  cases limit with
  | none => exact takes_bytes payload
  | some most =>
      simp only [if_pos (h.2 most rfl)]
      exact takes_bytes payload

end Wire

open Wire

/-! ## Messages -/

/-- An error is read back. -/
theorem JobError.takes_read (e : JobError) : Takes read e.encode e := by
  cases e <;> exact takes_variant (by decide) rfl

/-- So is a block. -/
theorem DataBlock.takes_read [Platform] {limit : Option Nat} {b : DataBlock}
    (h : HasRoom limit b.payload.length) : Takes (read limit) b.encode b := by
  have hkind : Takes (readVariant BlockKind.ofNumber?) (Varint.encode b.kind.number) b.kind := by
    cases b.kind <;> exact takes_variant (by decide) rfl
  rw [encode, List.append_assoc, List.append_assoc]
  refine hkind.bind ((takes_word b.seq).bind ((takes_word b.crc).bind ?_))
  exact (takes_payload h).last rfl

/-- How much of an image a request carries. -/
def Request.payloadLength : Request → Nat
  | data block => block.payload.length
  | _ => 0

/-- So is a request. -/
theorem Request.takes_read [Platform] {limit : Option Nat} {q : Request}
    (h : HasRoom limit q.payloadLength) : Takes (read limit) q.encode q := by
  have hnumber : ∀ n < 2 ^ 32, Takes (readNumber 32) (Varint.encode n) n :=
    fun n => takes_number (by decide)
  cases q with
  | query => exact (hnumber 0 (by decide)).last rfl
  | start size offset =>
      rw [encode, List.append_assoc]
      exact (hnumber 1 (by decide)).bind ((takes_word size).bind ((takes_word offset).last rfl))
  | startPacked size packedSize offset =>
      rw [encode, List.append_assoc, List.append_assoc]
      refine (hnumber 2 (by decide)).bind ((takes_word size).bind ?_)
      exact (takes_word packedSize).bind ((takes_word offset).last rfl)
  | data block => exact (hnumber 3 (by decide)).bind ((DataBlock.takes_read h).last rfl)
  | finish => exact (hnumber 4 (by decide)).last rfl
  | reboot => exact (hnumber 5 (by decide)).last rfl

/-- So is an acknowledgement. -/
theorem Ack.takes_read (a : Ack) : Takes read a.encode a := by
  have hnumber : ∀ n < 2 ^ 32, Takes (readNumber 32) (Varint.encode n) n :=
    fun n => takes_number (by decide)
  cases a with
  | ok => exact (hnumber 0 (by decide)).last rfl
  | failed e => exact (hnumber 1 (by decide)).bind (e.takes_read.last rfl)
  | damaged => exact (hnumber 2 (by decide)).last rfl
  | outOfOrder => exact (hnumber 3 (by decide)).last rfl
  | wrongKind => exact (hnumber 4 (by decide)).last rfl

/-- So is an answer. -/
theorem Answer.takes_read (a : Answer) : Takes read a.encode a := by
  have hnumber : ∀ n < 2 ^ 32, Takes (readNumber 32) (Varint.encode n) n :=
    fun n => takes_number (by decide)
  cases a with
  | ack a => exact (hnumber 0 (by decide)).bind (a.takes_read.last rfl)
  | status active error remaining =>
      rw [encode, List.append_assoc, List.append_assoc]
      refine (hnumber 1 (by decide)).bind ((takes_bool active).bind ?_)
      exact (takes_option JobError.takes_read error).bind ((takes_word remaining).last rfl)

/-! ## Frames -/

/-- What is sent in frames comes back from them.  A frame fits any buffer that is not shorter, the
    delimiter at its end is its only one, what it holds is read whatever follows it, and no two
    values have the same frame. -/
structure ReadBack {α : Type} (toFrame : α → List UInt8)
    (ofFrame : List UInt8 → Except WireError α) (Sendable : α → Prop) : Prop where
  fits : ∀ a, Sendable a → ∀ capacity, (toFrame a).length ≤ capacity →
    fitting capacity (toFrame a) = .ok (toFrame a)
  one_delimiter : ∀ a, Sendable a →
    ∃ body, Cobs.delimiter ∉ body ∧ toFrame a = body ++ [Cobs.delimiter]
  read_back : ∀ a, Sendable a → ∀ rest, ofFrame (toFrame a ++ rest) = .ok a
  injective : ∀ a a', Sendable a → Sendable a' → toFrame a = toFrame a' → a = a'

/-- What is read in the frame of a message is the message, if its reader takes what its writer
    writes. -/
theorem readBack_of_takes {α : Type} {encode : α → List UInt8} {read : Reader α}
    {Sendable : α → Prop} (h : ∀ a, Sendable a → Takes read (encode a) a) :
    ReadBack (fun a => Cobs.frame (encode a)) (fun data => Cobs.unframe data >>= read.run')
      Sendable := by
  have hback : ∀ a, Sendable a → ∀ rest,
      (Cobs.unframe (Cobs.frame (encode a) ++ rest) >>= read.run') = .ok a := by
    intro a ha rest
    rw [Cobs.unframe_frame]
    exact (h a ha).run'
  refine ⟨?_, ?_, hback, ?_⟩
  · exact fun a _ capacity hfits => if_pos hfits
  · exact fun a _ => ⟨Cobs.stuff (encode a), Cobs.delimiter_not_mem_stuff _, rfl⟩
  · intro a a' ha ha' hframe
    have hread := hback a ha []
    simp only [hframe] at hread
    exact (Except.ok.inj ((hback a' ha' []).symm.trans hread)).symm

end NorLoader
