import NorLoader.Platform
import NorLoader.Proofs.Flash.EraseFrontier

/-!
# Erasing with checked words

A sum of words wraps at the top of the word, a difference wraps below zero, and a number that is made
a word keeps its low bits alone.  None of that shows in the result.  So here a plan is made and used up
once more with all of these operations checked: where a result does not fit its word there is none
(`word?`, `add?`, `sub?`).  What stops at the last word on purpose (`satAdd`, `satMul`) is left as it is.

A plan can be made for every span (`Checked.ofSpan_eq`).  It can be used up as long as its end fits a
word, since the first sector never passes the end and the count of those that are left pays for every
step (`Checked.after_eq`).
-/

namespace NorLoader

/-! ## Words that are exact -/

/-- A number, if so many bits hold it. -/
def fits? (bits n : Nat) : Option Nat := if n < 2 ^ bits then some n else none

/-- A number as a word, if it fits one. -/
def word? (n : Nat) : Option UInt32 := (fits? 32 n).map UInt32.ofNat

/-- A number, if it is a size of the platform. -/
def size? [Platform] (n : Nat) : Option Nat := fits? Platform.sizeBits n

/-- A sum, if it fits a word. -/
def add? (a b : UInt32) : Option UInt32 := word? (a.toNat + b.toNat)

/-- A difference, if it is not below zero. -/
def sub? (a b : UInt32) : Option UInt32 :=
  if b.toNat ≤ a.toNat then word? (a.toNat - b.toNat) else none

/-- A number that fits is itself. -/
theorem fits?_eq {bits n : Nat} (h : n < 2 ^ bits) : fits? bits n = some n := if_pos h

/-- A checked word is the number it was made of. -/
theorem word?_eq_some_iff {n : Nat} {w : UInt32} : word? n = some w ↔ w.toNat = n := by
  rw [word?, Option.map_eq_some_iff]
  constructor
  · rintro ⟨m, hfits, rfl⟩
    obtain ⟨hlt, hsame⟩ := Option.ite_none_right_eq_some.mp hfits
    cases hsame
    exact UInt32.toNat_ofNat_of_lt' hlt
  · rintro rfl
    exact ⟨w.toNat, fits?_eq w.toNat_lt, UInt32.ofNat_toNat⟩

/-- A number below the range of words is one. -/
theorem word?_eq {n : Nat} (h : n < 2 ^ 32) : word? n = some (UInt32.ofNat n) :=
  word?_eq_some_iff.mpr (UInt32.toNat_ofNat_of_lt' h)

/-- A size is at least as wide as a word. -/
theorem size?_eq [Platform] {n : Nat} (h : n < 2 ^ 32) : size? n = some n :=
  fits?_eq (Nat.lt_of_lt_of_le h (Nat.pow_le_pow_right (by decide) Platform.words_fit))

/-- A checked sum is the sum. -/
theorem add?_eq_some_iff {a b c : UInt32} : add? a b = some c ↔ c.toNat = a.toNat + b.toNat :=
  word?_eq_some_iff

/-- A checked difference is the difference. -/
theorem sub?_eq_some_iff {a b c : UInt32} : sub? a b = some c ↔ c.toNat + b.toNat = a.toNat := by
  rw [sub?, Option.ite_none_right_eq_some, word?_eq_some_iff]
  omega

namespace Checked

/-! ## Plans -/

/-- Every sector that `size` bytes from `offset` on touch.  The span is computed in 64 bits. -/
def ofSpan (offset size : UInt32) : Option ErasePlan := do
  let span ← fits? 64 (offset.toNat % sectorSize + size.toNat)
  let count ← word? ((span + (sectorSize - 1)) / sectorSize)
  return ⟨sectorIndex offset, count⟩

/-- The span is far from 64 bits, and its sectors are fewer than a word counts. -/
theorem ofSpan_eq (offset size : UInt32) : ofSpan offset size = some (.ofSpan offset size) := by
  have hoffset := offset.toNat_lt
  have hsize := size.toNat_lt
  have hspan : offset.toNat % sectorSize + size.toNat < 2 ^ 64 := by
    have hle := Nat.mod_le offset.toNat sectorSize
    omega
  have hcount : word? ((offset.toNat % sectorSize + size.toNat + (sectorSize - 1)) / sectorSize)
      = some (sectorCount offset size) := word?_eq_some_iff.mpr (toNat_sectorCount offset size)
  simp only [ofSpan, fits?_eq hspan, hcount, Option.bind_eq_bind, Option.bind_some]
  rfl

/-- What an erase leaves of a plan. -/
def after (p : ErasePlan) (size : EraseSize) : Option ErasePlan := do
  let first ← add? p.first (UInt32.ofNat size.sectors)
  let count ← sub? p.count (UInt32.ofNat size.sectors)
  return ⟨first, count⟩

/-- An erase that the plan asks for passes the checks. -/
theorem after_eq {p : ErasePlan} {size : EraseSize} (h : p.nextSize = some size)
    (hend : p.lastSector < 2 ^ 32) : after p size = some (p.after size) := by
  have hle := (ErasePlan.nextSize_some h).1
  have hfirst : add? p.first (UInt32.ofNat size.sectors) = some (p.after size).first := by
    rw [add?_eq_some_iff, size.toNat_ofNat_sectors]
    exact ErasePlan.toNat_first_after h hend
  have hcount : sub? p.count (UInt32.ofNat size.sectors) = some (p.after size).count := by
    rw [sub?_eq_some_iff, size.toNat_ofNat_sectors, ErasePlan.toNat_count_after h]
    exact Nat.sub_add_cancel hle
  rw [after, hfirst, hcount]
  rfl

/-- A plan whose end is past the last word comes to a sector that no word counts. -/
example : after ⟨0xFFFFFFFF, 2⟩ .sector = none := by decide

/-! ## Erasing -/

variable {δ : Type} [FlashDevice δ]

/-- Issues an erase, with the counts checked. -/
def issue (p : ErasePlan) (size : EraseSize) (d : δ) : Option (ErasePlan × δ) := do
  let rest ← after p size
  return (rest, FlashDevice.erase p.nextAddress size (FlashDevice.enableWrite d))

/-- So it is issued. -/
theorem issue_eq {p : ErasePlan} {size : EraseSize} (h : p.nextSize = some size)
    (hend : p.lastSector < 2 ^ 32) (d : δ) : issue p size d = some (p.issue size d) := by
  rw [issue, after_eq h hend]
  rfl

/-- Issues the next erase if there is one and the device is idle, and tells whether it did. -/
def issueIfIdle (p : ErasePlan) (d : δ) : Option (Bool × ErasePlan × δ) :=
  match p.nextSize with
  | none => some (false, p, d)
  | some size =>
      match FlashDevice.poll d with
      | (false, d) => some (false, p, d)
      | (true, d) => (issue p size d).map (true, ·)

/-- Erasing ahead passes the checks. -/
theorem issueIfIdle_eq {p : ErasePlan} (hend : p.lastSector < 2 ^ 32) (d : δ) :
    issueIfIdle p d = some (p.issueIfIdle d) := by
  cases hnext : p.nextSize with
  | none => simp only [issueIfIdle, ErasePlan.issueIfIdle, hnext]
  | some size =>
      rcases hpoll : FlashDevice.poll d with ⟨_ | _, polled⟩
      · simp [issueIfIdle, ErasePlan.issueIfIdle, hnext, hpoll]
      · simp [issueIfIdle, ErasePlan.issueIfIdle, hnext, hpoll, issue_eq hnext hend]

/-- Issues at most `n` erases, waiting for each, until the plan is past a sector or done. -/
def issueUpTo (last : UInt32) : Nat → ErasePlan → δ → Option (ErasePlan × δ)
  | 0, p, d => some (p, d)
  | n + 1, p, d =>
      match p.nextSize with
      | none => some (p, d)
      | some size =>
          if p.first ≤ last then do
            let (p, d) ← issue p size (FlashDevice.awaitIdle d)
            issueUpTo last n p d
          else some (p, d)

/-- So do the erases up to a sector, at most so many of them. -/
theorem issueUpTo_eq (last : UInt32) (n : Nat) {p : ErasePlan} (hend : p.lastSector < 2 ^ 32)
    (d : δ) : issueUpTo last n p d = some (p.issueUpTo last n d) := by
  induction n generalizing p d with
  | zero => rfl
  | succ n ih =>
      cases hnext : p.nextSize with
      | none => simp only [issueUpTo, ErasePlan.issueUpTo, hnext]
      | some size =>
          by_cases hfirst : p.first ≤ last
          · -- the end stays where it is, so the next erase is exact as well
            have hrest : (p.after size).lastSector < 2 ^ 32 := by
              rw [ErasePlan.lastSector_after hnext hend]
              exact hend
            simp only [issueUpTo, ErasePlan.issueUpTo, hnext, if_pos hfirst, issue_eq hnext hend]
            exact ih hrest _
          · simp only [issueUpTo, ErasePlan.issueUpTo, hnext, if_neg hfirst]

/-- Erases until a sector is covered or nothing is left. -/
def coverThrough (p : ErasePlan) (last : UInt32) (d : δ) : Option (ErasePlan × δ) :=
  issueUpTo last p.count.toNat p d

/-- So do as many of them as there are. -/
theorem coverThrough_eq {p : ErasePlan} (hend : p.lastSector < 2 ^ 32) (last : UInt32) (d : δ) :
    coverThrough p last d = some (p.coverThrough last d) :=
  issueUpTo_eq last _ hend d

end Checked
end NorLoader
