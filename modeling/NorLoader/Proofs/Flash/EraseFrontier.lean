import NorLoader.Flash.ErasePlan
import NorLoader.Proofs.Flash.Primitives

/-!
# The erase frontier

A plan is read here in `Nat`: it runs from the byte address `start`, where the next erase begins,
to the sector `lastSector` that closes the span.  The sum of its two words is fixed when the plan
is made, so an erase moves the frontier and never the end, and no word of a plan wraps.

On a device that holds a whole number of the units in play (`Fits`), one erase clears exactly the
cells that the frontier passes.
-/

namespace NorLoader

/-- The sector after the last one that `size` bytes from `offset` on touch. -/
def endSector (offset size : Nat) : Nat := (offset + size + (sectorSize - 1)) / sectorSize

/-- The sectors of a span hold it. -/
theorem le_endSector (offset size : Nat) : offset + size ≤ endSector offset size * sectorSize := by
  simp only [endSector, sectorSize]
  omega

/-- On a device of whole sectors they are all there. -/
theorem endSector_mul_le {offset size bound : Nat} (hb : sectorSize ∣ bound)
    (h : offset + size ≤ bound) : endSector offset size * sectorSize ≤ bound := by
  obtain ⟨k, rfl⟩ := hb
  simp only [endSector, sectorSize] at h ⊢
  omega

/-- A device that a span is erased on without an erase that is partly outside: either the device
    is made of whole blocks and ends below the top of the address space, or it is made of whole
    sectors and holds the span at addresses that there are. -/
def Fits (capacity offset size : Nat) : Prop :=
  (blockSize ∣ capacity ∧ capacity < 2 ^ 32) ∨
    (sectorSize ∣ capacity ∧ offset + size ≤ capacity ∧ offset + size ≤ 2 ^ 32)

namespace EraseSize

theorem bytes_pos (size : EraseSize) : 0 < size.bytes := by
  cases size <;> decide

theorem bytes_eq (size : EraseSize) : size.bytes = size.sectors * sectorSize := rfl

theorem sectors_pos (size : EraseSize) : 0 < size.sectors := by
  cases size <;> decide

/-- No unit has more sectors than a word counts. -/
theorem toNat_ofNat_sectors (size : EraseSize) :
    (UInt32.ofNat size.sectors).toNat = size.sectors := by
  cases size <;> rfl

end EraseSize

namespace ErasePlan

/-- The address of the first byte that is still to be erased. -/
def start (p : ErasePlan) : Nat := p.first.toNat * sectorSize

/-- The sector at which the plan ends. -/
def lastSector (p : ErasePlan) : Nat := p.first.toNat + p.count.toNat

/-! ## Plans in `Nat` -/

/-- A plan for a span ends with the sectors of the span. -/
theorem lastSector_ofSpan (offset size : UInt32) :
    (ofSpan offset size).lastSector = endSector offset.toNat size.toNat := by
  show (sectorIndex offset).toNat + (sectorCount offset size).toNat = _
  rw [toNat_sectorIndex, toNat_sectorCount]
  simp only [endSector, sectorSize]
  omega

/-- A plan begins no later than its span. -/
theorem start_ofSpan_le (offset size : UInt32) : (ofSpan offset size).start ≤ offset.toNat := by
  show (sectorIndex offset).toNat * sectorSize ≤ _
  rw [toNat_sectorIndex]
  exact Nat.div_mul_le_self _ _

/-- No span goes beyond what words count in sectors. -/
theorem endSector_lt (offset size : UInt32) :
    endSector offset.toNat size.toNat < 2 ^ 32 := by
  have ho := offset.toNat_lt
  have hs := size.toNat_lt
  simp only [endSector, sectorSize]
  omega

/-- The address of the next erase is where the plan stands, unless addresses end before. -/
theorem toNat_nextAddress (p : ErasePlan) : p.nextAddress.toNat = min p.start (2 ^ 32 - 1) := by
  show (satMul p.first (UInt32.ofNat sectorSize)).toNat = _
  rw [toNat_satMul]
  rfl

/-- The next erase lies within the plan, and a block erase begins on a block. -/
theorem nextSize_some {p : ErasePlan} {size : EraseSize} (h : p.nextSize = some size) :
    size.sectors ≤ p.count.toNat ∧ p.first.toNat % size.sectors = 0 := by
  have hcount : p.isEmpty = false → 1 ≤ p.count.toNat := by
    intro he
    have hne : p.count ≠ 0 := by simpa [isEmpty] using he
    have : p.count.toNat ≠ 0 := fun h0 => hne (UInt32.toNat_inj.mp h0)
    omega
  cases he : p.isEmpty with
  | true => simp [nextSize, he] at h
  | false =>
      by_cases hb : p.count.toNat ≥ sectorsPerBlock ∧ p.first.toNat % sectorsPerBlock = 0
      · simp only [nextSize, he, Bool.false_eq_true, if_false, if_pos hb] at h
        cases h
        exact hb
      · simp only [nextSize, he, Bool.false_eq_true, if_false, if_neg hb] at h
        cases h
        exact ⟨hcount he, Nat.mod_one _⟩

/-- A plan is empty if no sector is left. -/
theorem isEmpty_iff (p : ErasePlan) : p.isEmpty = true ↔ p.count.toNat = 0 := by
  simp [isEmpty, ← UInt32.toNat_inj]

/-- Only an empty plan has no next erase. -/
theorem nextSize_none {p : ErasePlan} (h : p.nextSize = none) : p.isEmpty = true := by
  cases he : p.isEmpty with
  | true => rfl
  | false =>
      simp only [nextSize, he, Bool.false_eq_true, if_false] at h
      split at h <;> cases h

/-- An erase takes its sectors off the count. -/
theorem toNat_count_after {p : ErasePlan} {size : EraseSize} (h : p.nextSize = some size) :
    (p.after size).count.toNat = p.count.toNat - size.sectors := by
  have hle := (nextSize_some h).1
  have hs := size.toNat_ofNat_sectors
  show (p.count - UInt32.ofNat size.sectors).toNat = _
  rw [UInt32.toNat_sub_of_le _ _ (UInt32.le_iff_toNat_le.mpr (by omega)), hs]

/-- An erase moves the first sector on. -/
theorem toNat_first_after {p : ErasePlan} {size : EraseSize} (h : p.nextSize = some size)
    (hend : p.lastSector < 2 ^ 32) :
    (p.after size).first.toNat = p.first.toNat + size.sectors := by
  have hle := (nextSize_some h).1
  simp only [lastSector] at hend
  show (p.first + UInt32.ofNat size.sectors).toNat = _
  rw [UInt32.toNat_add, size.toNat_ofNat_sectors]
  exact Nat.mod_eq_of_lt (by omega)

/-- An erase does not move the end of a plan. -/
theorem lastSector_after {p : ErasePlan} {size : EraseSize} (h : p.nextSize = some size)
    (hend : p.lastSector < 2 ^ 32) : (p.after size).lastSector = p.lastSector := by
  have hle := (nextSize_some h).1
  simp only [lastSector, toNat_first_after h hend, toNat_count_after h]
  omega

/-- An erase moves the frontier by the bytes that it covers. -/
theorem start_after {p : ErasePlan} {size : EraseSize} (h : p.nextSize = some size)
    (hend : p.lastSector < 2 ^ 32) : (p.after size).start = p.start + size.bytes := by
  simp only [start, toNat_first_after h hend, EraseSize.bytes_eq, Nat.add_mul]

/-- On the device the address that an erase sends is not below the frontier. -/
theorem start_le_of_nextAddress_le {capacity offset span : Nat} {p : ErasePlan} {size : EraseSize}
    (hfits : Fits capacity offset span) (hspan : p.lastSector = endSector offset span)
    (h : p.nextSize = some size) {a : Nat} (ha : a < capacity) (haddr : p.nextAddress.toNat ≤ a) :
    p.start ≤ a := by
  have hle := (nextSize_some h).1
  have hpos := size.bytes_pos
  rw [toNat_nextAddress] at haddr
  rcases hfits with ⟨-, hlt⟩ | ⟨-, -, haddressable⟩
  · -- the device ends below the last address, so a clamped address is off it
    omega
  · -- the frontier itself has an address, so that is not clamped
    have hend : endSector offset span * sectorSize ≤ 2 ^ 32 :=
      endSector_mul_le ⟨2 ^ 20, rfl⟩ haddressable
    rw [← hspan, lastSector, Nat.add_mul] at hend
    have hbytes := Nat.mul_le_mul_right sectorSize hle
    rw [← EraseSize.bytes_eq] at hbytes
    have hstart : p.start = p.first.toNat * sectorSize := rfl
    omega

/-! ## Covering a sector -/

/-- Nothing is left to erase up to some sector. -/
def Covers (p : ErasePlan) (sector : UInt32) : Prop := p.isEmpty = true ∨ sector < p.first

section Covering

variable {δ : Type} [FlashDevice δ]

/-- With enough turns the plan gets past the sector. -/
theorem issueUpTo_covers (last : UInt32) (n : Nat) (p : ErasePlan) (d : δ)
    (h : p.count.toNat ≤ n) : (issueUpTo last n p d).1.Covers last := by
  induction n generalizing p d with
  | zero => exact Or.inl ((isEmpty_iff p).mpr (by omega))
  | succ n ih =>
      cases hs : p.nextSize with
      | none =>
          simp only [issueUpTo, hs]
          exact Or.inl (nextSize_none hs)
      | some size =>
          by_cases hl : p.first ≤ last
          · simp only [issueUpTo, hs, if_pos hl]
            refine ih _ _ ?_
            show (p.after size).count.toNat ≤ n
            have hpos := size.sectors_pos
            rw [toNat_count_after hs]
            omega
          · simp only [issueUpTo, hs, if_neg hl]
            exact Or.inr (UInt32.not_le.mp hl)

/-- There are as many erases as it takes. -/
theorem coverThrough_covers (p : ErasePlan) (last : UInt32) (d : δ) :
    (p.coverThrough last d).1.Covers last :=
  issueUpTo_covers last _ p d (Nat.le_refl _)

end Covering

/-! ## What an erase of a plan does to the device -/

/-- An erase is two calls. -/
theorem calls_issue {capacity : Nat} (p : ErasePlan) (size : EraseSize) (s : Simulator capacity) :
    (p.issue size s).2.calls
      = s.calls ++ [DeviceCall.enableWrite, .erase p.nextAddress size] := by
  show (s.enableWrite.erase p.nextAddress size).calls = _
  rw [Simulator.calls_erase, Simulator.enableWrite_eq]
  exact Array.ext' (by simp)

/-- An erase leaves alone what decides how programs end. -/
theorem conduct_issue {capacity : Nat} (p : ErasePlan) (size : EraseSize)
    (s : Simulator capacity) : (p.issue size s).2.conduct = s.conduct := by
  show (s.enableWrite.erase p.nextAddress size).conduct = _
  rw [Simulator.conduct_erase, Simulator.enableWrite_eq]
  rfl

/-- One erase of a plan clears a unit from the address that is sent, unless the unit is not on the device
    as a whole. -/
theorem cells_issue {capacity : Nat} (p : ErasePlan) (size : EraseSize) (s : Simulator capacity)
    (a : Nat) (ha : a < capacity) :
    (p.issue size s).2.cells[a]
      = if p.nextAddress.toNat + size.bytes ≤ capacity ∧ p.nextAddress.toNat ≤ a ∧
          a < p.nextAddress.toNat + size.bytes
        then .erased else s.cells[a] := by
  have hold : s.enableWrite.cells[a] = s.cells[a] := by
    simp only [Simulator.enableWrite_eq]
  show (Simulator.erase p.nextAddress size s.enableWrite).cells[a] = _
  rw [Simulator.getElem_cells_erase, hold]

/-- One erase of a plan clears the cells between the old frontier and the new one, and no
    other. -/
theorem getElem_issue {capacity offset span : Nat} (p : ErasePlan) (size : EraseSize)
    (s : Simulator capacity) (hfits : Fits capacity offset span)
    (hspan : p.lastSector = endSector offset span) (h : p.nextSize = some size)
    (a : Nat) (ha : a < capacity) :
    (p.issue size s).2.cells[a]
      = if p.start ≤ a ∧ a < p.start + size.bytes then .erased else s.cells[a] := by
  have hpos := size.bytes_pos
  obtain ⟨hle, hmod⟩ := nextSize_some h
  -- a unit is either on the device as a whole and has an address, or is beyond its end as a whole
  have hwhole : (p.start + size.bytes ≤ capacity ∧ p.start < 2 ^ 32) ∨
      capacity ≤ min p.start (2 ^ 32 - 1) := by
    rcases hfits with ⟨⟨k, hk⟩, hlt⟩ | ⟨hsector, hin, haddressable⟩
    · cases size with
      | sector => simp only [start, EraseSize.bytes_eq, EraseSize.sectors, blockSize, sectorSize,
          sectorsPerBlock] at hk ⊢; omega
      | block => simp only [start, EraseSize.bytes_eq, EraseSize.sectors, blockSize, sectorSize,
          sectorsPerBlock] at hk hmod ⊢; omega
    · have hend := endSector_mul_le hsector hin
      have htop : endSector offset span * sectorSize ≤ 2 ^ 32 :=
        endSector_mul_le ⟨2 ^ 20, rfl⟩ haddressable
      rw [← hspan, lastSector, Nat.add_mul] at hend htop
      have := Nat.mul_le_mul_right sectorSize hle
      simp only [start, EraseSize.bytes_eq] at hpos ⊢
      omega
  have haddr := p.toNat_nextAddress
  rw [cells_issue p size s a ha]
  rcases hwhole with ⟨hin, hlow⟩ | hout
  · have hexact : p.nextAddress.toNat = p.start := by omega
    rw [hexact]
    by_cases hunit : p.start ≤ a ∧ a < p.start + size.bytes
    · rw [if_pos ⟨hin, hunit⟩, if_pos hunit]
    · rw [if_neg (fun hall => hunit hall.2), if_neg hunit]
  · -- the address that is sent is beyond the end as well
    rw [if_neg (by omega), if_neg (by omega)]

end ErasePlan
end NorLoader
