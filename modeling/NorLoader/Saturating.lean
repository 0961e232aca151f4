/-!
# Saturating words

Addresses and byte counts are 32-bit words.  Where a sum or a product may pass the top of the
address space it stops there; `toNat_satAdd`, `toNat_satMul` and `toNat_satSub` say so in `Nat`.
-/

namespace NorLoader

/-- The greatest word. -/
def topWord : UInt32 := 0xFFFFFFFF

/-- The word nearest to a natural number. -/
def clampWord (n : Nat) : UInt32 :=
  if n < UInt32.size then UInt32.ofNat n else topWord

/-- Addition that stops at the largest word. -/
def satAdd (a b : UInt32) : UInt32 := clampWord (a.toNat + b.toNat)

/-- Multiplication that stops at the largest word. -/
def satMul (a b : UInt32) : UInt32 := clampWord (a.toNat * b.toNat)

/-- Subtraction that stops at zero. -/
def satSub (a b : UInt32) : UInt32 := clampWord (a.toNat - b.toNat)

/-- A clamped number is the number itself, or the greatest word. -/
theorem toNat_clampWord (n : Nat) : (clampWord n).toNat = min n 0xFFFFFFFF := by
  unfold clampWord
  split
  · rename_i h
    rw [UInt32.toNat_ofNat_of_lt' h]
    have : n < 0x100000000 := h
    omega
  · rename_i h
    have : ¬ n < 0x100000000 := h
    show (0xFFFFFFFF : Nat) = _
    omega

/-- Saturating addition in numbers. -/
theorem toNat_satAdd (a b : UInt32) :
    (satAdd a b).toNat = min (a.toNat + b.toNat) 0xFFFFFFFF :=
  toNat_clampWord _

/-- Saturating multiplication in numbers. -/
theorem toNat_satMul (a b : UInt32) :
    (satMul a b).toNat = min (a.toNat * b.toNat) 0xFFFFFFFF :=
  toNat_clampWord _

/-- Saturating subtraction in numbers. -/
theorem toNat_satSub (a b : UInt32) : (satSub a b).toNat = a.toNat - b.toNat := by
  have ha := a.toNat_lt
  rw [satSub, toNat_clampWord]
  omega

end NorLoader
