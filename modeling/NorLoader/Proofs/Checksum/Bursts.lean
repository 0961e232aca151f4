import Mathlib.Data.Nat.Bits
import Mathlib.Logic.Function.Iterate
import NorLoader.Checksum.Crc32

/-!
# Bursts of wrong bits

The check goes over the data bit by bit.  Dividing the register by `x` loses nothing, since the
generator has a constant term (`Crc32.shift_injective`), and as long as there are no more bits than
the register is wide, feeding them one by one is the same as adding all of them to it first and
dividing then (`Crc32.feedAll_eq`).  So a register that is the same before some bits and after them
was fed the same bits, and data that differs within 32 consecutive bits has another checksum
(`Crc32.checksum_ne_of_burst`).
-/

namespace NorLoader

/-! ## Strings of bits -/

/-- The bits of a byte, the least significant one first. -/
def bitsOfByte (b : UInt8) : List Bool := (List.range 8).map b.toNat.testBit

/-- The bits of some bytes, those of each byte the least significant one first. -/
def bitsOf (data : List UInt8) : List Bool := data.flatMap bitsOfByte

/-- Two strings of bits agree before and behind a window. -/
def AgreeOutside (start width : Nat) (xs ys : List Bool) : Prop :=
  xs.take start = ys.take start ∧ xs.drop (start + width) = ys.drop (start + width)

theorem length_bitsOfByte (b : UInt8) : (bitsOfByte b).length = 8 := rfl

/-- The bits of a byte come least significant first. -/
theorem getElem?_bitsOfByte (b : UInt8) (i : Nat) :
    (bitsOfByte b)[i]?.getD false = b.toNat.testBit i := by
  by_cases h : i < 8
  · simp [bitsOfByte, h]
  · have hhigh : b.toNat.testBit i = false :=
      Nat.testBit_lt_two_pow
        (Nat.lt_of_lt_of_le b.toNat_lt (Nat.pow_le_pow_right (by decide) (Nat.not_lt.mp h)))
    simp [bitsOfByte, h, hhigh]

/-- The bits tell the byte. -/
theorem bitsOfByte_injective : Function.Injective bitsOfByte := by
  intro b b' h
  refine UInt8.toNat_inj.mp (Nat.eq_of_testBit_eq fun i => ?_)
  rw [← getElem?_bitsOfByte, h, getElem?_bitsOfByte]

/-- The bits tell the data. -/
theorem bitsOf_injective : Function.Injective bitsOf := by
  intro data
  induction data with
  | nil =>
      intro data' h
      cases data' with
      | nil => rfl
      | cons b rest => exact nomatch h
  | cons b rest ih =>
      intro data' h
      cases data' with
      | nil => exact nomatch h
      | cons b' rest' =>
          obtain ⟨hbyte, hrest⟩ := List.append_inj h (length_bitsOfByte b)
          rw [bitsOfByte_injective hbyte, ih hrest]

/-- A byte has eight bits. -/
theorem length_bitsOf (data : List UInt8) : (bitsOf data).length = 8 * data.length := by
  induction data with
  | nil => rfl
  | cons b rest ih =>
      show (bitsOfByte b ++ bitsOf rest).length = _
      rw [List.length_append, length_bitsOfByte, ih, List.length_cons]
      omega

/-! ## Words by their bits -/

/-- Words with the same bits are the same. -/
theorem eq_of_testBit {a b : UInt32} (h : ∀ i, a.toNat.testBit i = b.toNat.testBit i) : a = b :=
  UInt32.toNat_inj.mp (Nat.eq_of_testBit_eq h)

/-- The word with some bits, the least significant one first. -/
def wordOf (bits : List Bool) : UInt32 := UInt32.ofNat (bits.foldr Nat.bit 0)

/-- The bits of a word are those it was made of. -/
theorem testBit_wordOf {bits : List Bool} (hle : bits.length ≤ 32) (i : Nat) :
    (wordOf bits).toNat.testBit i = bits[i]?.getD false := by
  have hnumber (bits : List Bool) (i : Nat) :
      (bits.foldr Nat.bit 0).testBit i = bits[i]?.getD false := by
    induction bits generalizing i with
    | nil => simp
    | cons b rest ih =>
        cases i with
        | zero => exact Nat.testBit_bit_zero b _
        | succ i => exact (Nat.testBit_bit_succ i b _).trans (ih i)
  rw [wordOf, UInt32.toNat_ofNat', Nat.testBit_mod_two_pow, hnumber]
  by_cases hi : i < 32
  · rw [decide_eq_true hi, Bool.true_and]
  · rw [decide_eq_false hi, List.getElem?_eq_none (by omega)]
    rfl

theorem length_bitsOfByte_le (b : UInt8) : (bitsOfByte b).length ≤ 32 := by
  rw [length_bitsOfByte]
  decide

/-- A byte as a word is the word of its bits. -/
theorem wordOf_bitsOfByte (b : UInt8) : wordOf (bitsOfByte b) = b.toUInt32 := by
  refine eq_of_testBit fun i => ?_
  rw [testBit_wordOf (length_bitsOfByte_le b), getElem?_bitsOfByte, UInt8.toNat_toUInt32]

/-- Strings of bits that a word has room for are told apart by it. -/
theorem eq_of_wordOf_eq {bits bits' : List Bool} (hlength : bits'.length = bits.length)
    (hle : bits.length ≤ 32) (h : wordOf bits = wordOf bits') : bits = bits' := by
  refine List.ext_getElem hlength.symm fun i hi hi' => ?_
  have hbit := testBit_wordOf hle i
  rw [h, testBit_wordOf (hlength ▸ hle), List.getElem?_eq_getElem hi,
    List.getElem?_eq_getElem hi'] at hbit
  exact hbit.symm

namespace Crc32

/-! ## The register -/

/-- A shift moves every bit down and adds the generator if a one falls out. -/
theorem testBit_shift (c : UInt32) (i : Nat) : (shift c).toNat.testBit i
    = (c.toNat.testBit (i + 1) ^^ (c.toNat.testBit 0 && generator.toNat.testBit i)) := by
  have hlow : (c &&& 1 = 1) ↔ c.toNat.testBit 0 = true := by
    rw [← UInt32.toNat_inj, UInt32.toNat_and, Nat.testBit_zero, decide_eq_true_iff]
    show c.toNat &&& 1 = 1 ↔ _
    rw [Nat.and_one_is_mod]
  have hhalf : (c >>> 1).toNat.testBit i = c.toNat.testBit (i + 1) := by
    rw [UInt32.toNat_shiftRight, Nat.testBit_shiftRight, Nat.add_comm]
    rfl
  unfold shift
  by_cases h : c &&& 1 = 1
  · rw [if_pos h, UInt32.toNat_xor, Nat.testBit_xor, hhalf, hlow.mp h, Bool.true_and]
  · have hclear : c.toNat.testBit 0 = false := Bool.not_eq_true _ ▸ mt hlow.mpr h
    rw [if_neg h, hhalf, hclear, Bool.false_and, Bool.xor_false]

/-- The constant term of the generator goes into the highest bit, which a division leaves free. -/
theorem shift_injective : Function.Injective shift := by
  intro a b h
  have hbits (i : Nat) :
      (a.toNat.testBit (i + 1) ^^ (a.toNat.testBit 0 && generator.toNat.testBit i))
        = (b.toNat.testBit (i + 1) ^^ (b.toNat.testBit 0 && generator.toNat.testBit i)) := by
    rw [← testBit_shift, ← testBit_shift, h]
  have hlow : a.toNat.testBit 0 = b.toNat.testBit 0 := by
    have hfree (c : UInt32) : c.toNat.testBit 32 = false := Nat.testBit_lt_two_pow c.toNat_lt
    have hconstant : generator.toNat.testBit 31 = true := by decide
    have htop := hbits 31
    rw [hfree, hfree, hconstant, Bool.false_xor, Bool.false_xor, Bool.and_true,
      Bool.and_true] at htop
    exact htop
  refine eq_of_testBit fun i => ?_
  cases i with
  | zero => exact hlow
  | succ i =>
      have hbit := hbits i
      rw [hlow] at hbit
      exact Bool.xor_left_inj.mp hbit

/-- Puts one bit into the register. -/
def feed (c : UInt32) (b : Bool) : UInt32 := shift (c ^^^ wordOf [b])

/-- Puts some bits into the register. -/
def feedAll (c : UInt32) (bits : List Bool) : UInt32 := bits.foldl feed c

/-- Bits may come in pieces. -/
theorem feedAll_append (c : UInt32) (xs ys : List Bool) :
    feedAll c (xs ++ ys) = feedAll (feedAll c xs) ys :=
  List.foldl_append

/-- Registers that differ do so after any bits. -/
theorem feedAll_injective (bits : List Bool) : Function.Injective fun c => feedAll c bits := by
  induction bits with
  | nil => exact Function.injective_id
  | cons b rest ih =>
      intro a c h
      exact UInt32.xor_left_inj _ |>.mp (shift_injective (ih h))

/-- What follows a bit may be added to the register before the bit is fed, one place higher. -/
theorem feed_xor_wordOf (c : UInt32) (b : Bool) {rest : List Bool} (hle : rest.length < 32) :
    feed c b ^^^ wordOf rest = shift (c ^^^ wordOf (b :: rest)) := by
  refine eq_of_testBit fun i => ?_
  have hone : [b].length ≤ 32 := Nat.succ_le_succ (Nat.zero_le 31)
  have hall : (b :: rest).length ≤ 32 := hle
  rw [UInt32.toNat_xor, Nat.testBit_xor, feed, testBit_shift, testBit_shift, UInt32.toNat_xor,
    UInt32.toNat_xor]
  simp only [Nat.testBit_xor, testBit_wordOf hone, testBit_wordOf hall,
    testBit_wordOf (Nat.le_of_lt hle), List.getElem?_cons_zero,
    List.getElem?_cons_succ, List.getElem?_nil, Option.getD_some, Option.getD_none, Bool.xor_false]
  rw [Bool.xor_assoc, Bool.xor_assoc, Bool.xor_comm _ (rest[i]?.getD false)]

/-- Bits that the register has room for may all be added to it before they are fed. -/
theorem feedAll_eq (c : UInt32) {bits : List Bool} (hle : bits.length ≤ 32) :
    feedAll c bits = shift^[bits.length] (c ^^^ wordOf bits) := by
  induction bits generalizing c with
  | nil => exact UInt32.xor_zero.symm
  | cons b rest ih =>
      rw [List.length_cons] at hle
      show feedAll (feed c b) rest = _
      rw [ih _ (by omega), feed_xor_wordOf c b hle, List.length_cons, Function.iterate_succ_apply]

/-- One register tells apart all bits that it has room for. -/
theorem eq_of_feedAll_eq {c : UInt32} {bits bits' : List Bool}
    (hlength : bits'.length = bits.length) (hle : bits.length ≤ 32)
    (h : feedAll c bits = feedAll c bits') : bits = bits' := by
  rw [feedAll_eq c hle, feedAll_eq c (hlength ▸ hle), hlength] at h
  have hsum := shift_injective.iterate bits.length h
  exact eq_of_wordOf_eq hlength hle (UInt32.xor_right_inj _ |>.mp hsum)

/-- The register depends on the bits of the data alone. -/
theorem register_eq_feedAll (c : UInt32) (data : List UInt8) :
    register c data = feedAll c (bitsOf data) := by
  induction data generalizing c with
  | nil => rfl
  | cons b rest ih =>
      have hbyte : addByte c b = feedAll c (bitsOfByte b) := by
        rw [feedAll_eq c (length_bitsOfByte_le b), wordOf_bitsOfByte]
        rfl
      show register (addByte c b) rest = feedAll c (bitsOfByte b ++ bitsOf rest)
      rw [feedAll_append, ih, hbyte]

/-- Data that is changed within 32 consecutive bits has another checksum. -/
theorem checksum_ne_of_burst {data altered : List UInt8} (hlength : altered.length = data.length)
    (hne : altered ≠ data) {start : Nat}
    (hburst : AgreeOutside start 32 (bitsOf data) (bitsOf altered)) :
    checksum altered ≠ checksum data := by
  intro hsame
  have hregister : feedAll 0xFFFFFFFF (bitsOf altered) = feedAll 0xFFFFFFFF (bitsOf data) := by
    rw [← register_eq_feedAll, ← register_eq_feedAll]
    exact UInt32.not_inj.mp hsame
  obtain ⟨hbefore, hbehind⟩ := hburst
  -- both strings are cut at the two ends of the window
  have hcut (bits : List Bool) : bits
      = bits.take start ++ ((bits.drop start).take 32 ++ bits.drop (start + 32)) := by
    rw [← List.drop_drop, List.take_append_drop, List.take_append_drop]
  rw [hcut (bitsOf altered), hcut (bitsOf data), feedAll_append, feedAll_append, feedAll_append,
    feedAll_append, hbefore, hbehind] at hregister
  have hwindow : ((bitsOf data).drop start).take 32 = ((bitsOf altered).drop start).take 32 := by
    refine (eq_of_feedAll_eq ?_ ?_ (feedAll_injective _ hregister)).symm
    · simp only [List.length_take, List.length_drop, length_bitsOf, hlength]
    · exact List.length_take_le _ _
  refine hne (bitsOf_injective ?_)
  rw [hcut (bitsOf altered), hcut (bitsOf data), hbefore, hbehind, hwindow]

end Crc32
end NorLoader
