import Mathlib.Data.Finset.Image
import Mathlib.Order.Interval.Finset.Nat
import NorLoader.Proofs.Image.EraseTiling

/-!
# The sectors of a plan

A plan is to erase the sectors in which its span has a byte and no other one, because the rest of the
device belongs to somebody else.  It rounds twice, down to the sector where the span begins and up to
the one where it ends, and between the two is what the span touches (`touchedSectors_eq`), wherever it
begins and ends.  The one exception is a span without bytes that begins inside a sector: it touches
nothing, and yet the two roundings leave that sector between them (`sectors_ofSpan_of_empty`).
-/

namespace NorLoader

/-- The sectors in which a span has a byte. -/
def touchedSectors (offset size : Nat) : Finset Nat :=
  (Finset.Ico offset (offset + size)).image (· / sectorSize)

/-- A sector is touched if it has a byte of the span. -/
theorem mem_touchedSectors {offset size sector : Nat} : sector ∈ touchedSectors offset size ↔
    ∃ a, offset ≤ a ∧ a < offset + size ∧ a / sectorSize = sector := by
  simp only [touchedSectors, Finset.mem_image, Finset.mem_Ico, and_assoc]

/-- The two roundings meet what the span touches. -/
theorem touchedSectors_eq {offset size : Nat} (h : size = 0 → offset % sectorSize = 0) :
    touchedSectors offset size = Finset.Ico (offset / sectorSize) (endSector offset size) := by
  ext sector
  rw [mem_touchedSectors, Finset.mem_Ico, endSector]
  simp only [sectorSize] at h ⊢
  constructor
  · rintro ⟨a, hfrom, hto, rfl⟩
    omega
  · rintro ⟨hfirst, hlast⟩
    -- the first byte of the sector, or of the span if that begins inside it
    exact ⟨max offset (sector * 4096), by omega, by omega, by omega⟩

/-! ## Plans that are carried out -/

namespace ErasePlan

/-- The sectors that are still to be erased. -/
def sectors (p : ErasePlan) : Finset Nat := Finset.Ico p.first.toNat p.lastSector

/-- There are as many sectors in a plan as it counts. -/
theorem card_sectors (p : ErasePlan) : p.sectors.card = p.count.toNat := by
  rw [sectors, Nat.card_Ico, lastSector, Nat.add_sub_cancel_left]

/-- The plan of a span is the sectors of the span. -/
theorem sectors_ofSpan (offset size : UInt32) : (ofSpan offset size).sectors
    = Finset.Ico (offset.toNat / sectorSize) (endSector offset.toNat size.toNat) := by
  rw [sectors, lastSector_ofSpan]
  exact congrArg (Finset.Ico · _) (toNat_sectorIndex offset)

/-- A span without bytes that begins inside a sector has that sector in its plan. -/
theorem sectors_ofSpan_of_empty {offset : UInt32} (h : offset.toNat % sectorSize ≠ 0) :
    (ofSpan offset 0).sectors = {offset.toNat / sectorSize} := by
  have hend : endSector offset.toNat (0 : UInt32).toNat = offset.toNat / sectorSize + 1 := by
    show endSector offset.toNat 0 = _
    simp only [endSector, sectorSize] at h ⊢
    omega
  rw [sectors_ofSpan, hend, Nat.Ico_succ_singleton]

section Repeated

variable {δ : Type} [FlashDevice δ]

/-- Asks a number of times for the next erase. -/
def issueRepeatedly : Nat → ErasePlan → δ → ErasePlan × δ
  | 0, p, d => (p, d)
  | n + 1, p, d =>
      let (_, p, d) := p.issueIfIdle d
      issueRepeatedly n p d

/-- The erases that are sent when it is asked for a number of times. -/
def erasesSent (p : ErasePlan) (n : Nat) (d : δ) : List (UInt32 × EraseSize) :=
  erasesOf (p.issueRepeatedly n ({ device := d } : Recorder δ)).2.calls

variable {log : δ → List DeviceCall}

/-- What is sent when the next erase is asked for, and what is left, make up the plan. -/
theorem commands_issueIfIdle (hlog : CallLog log) (p : ErasePlan) (hend : p.lastSector < 2 ^ 32)
    (d : δ) : let after := (p.issueIfIdle d).2
    after.1.lastSector = p.lastSector ∧ ∃ calls, log after.2 = log d ++ calls ∧
      erasesOf calls ++ after.1.commands = p.commands := by
  cases hnext : p.nextSize with
  | none =>
      simp only [issueIfIdle, hnext]
      exact ⟨trivial, [], (List.append_nil _).symm, rfl⟩
  | some size =>
      cases hready : (FlashDevice.poll d).1 with
      | false =>
          simp only [issueIfIdle, hnext, hready, Bool.false_eq_true, if_false]
          exact ⟨trivial, [], (hlog.poll d).trans (List.append_nil _).symm, rfl⟩
      | true =>
          simp only [issueIfIdle, hnext, hready, if_true]
          refine ⟨lastSector_after hnext hend, [.enableWrite, .erase p.nextAddress size], ?_, ?_⟩
          · rw [hlog.issue, hlog.poll]
          · exact (commands_of_next hnext hend).symm

/-- Erases issued one after the other come off the front of the plan. -/
theorem commands_issueRepeatedly (hlog : CallLog log) (n : Nat) (p : ErasePlan)
    (hend : p.lastSector < 2 ^ 32) (d : δ) : let after := p.issueRepeatedly n d
    ∃ calls, log after.2 = log d ++ calls ∧ erasesOf calls ++ after.1.commands = p.commands := by
  induction n generalizing p d with
  | zero => exact ⟨[], (List.append_nil _).symm, rfl⟩
  | succ n ih =>
      obtain ⟨hsame, calls, hcalls, hcommands⟩ := commands_issueIfIdle hlog p hend d
      obtain ⟨calls', hcalls', hcommands'⟩ :=
        ih (p.issueIfIdle d).2.1 (hsame ▸ hend) (p.issueIfIdle d).2.2
      refine ⟨calls ++ calls', ?_, ?_⟩
      · rw [← List.append_assoc, ← hcalls]
        exact hcalls'
      · rw [erasesOf_append, List.append_assoc, ← hcommands]
        exact congrArg (erasesOf calls ++ ·) hcommands'

/-- The erases that are sent are the first ones of the plan. -/
theorem erasesSent_prefix (p : ErasePlan) (hend : p.lastSector < 2 ^ 32) (n : Nat) (d : δ) :
    p.erasesSent n d <+: p.commands := by
  obtain ⟨calls, hcalls, hcommands⟩ :=
    commands_issueRepeatedly Recorder.callLog n p hend ({ device := d } : Recorder δ)
  refine ⟨(p.issueRepeatedly n ({ device := d } : Recorder δ)).1.commands, ?_⟩
  rw [erasesSent, hcalls]
  exact hcommands

end Repeated

/-- However often the next erase of a span is asked for, only sectors of its plan are erased. -/
theorem cleared_subset_sectors {offset size : UInt32}
    (haddressable : offset.toNat + size.toNat ≤ 2 ^ 32) {δ : Type} [FlashDevice δ] (n : Nat) (d : δ)
    {sector : Nat} (h : sector ∈ clearedSectors ((ofSpan offset size).erasesSent n d)) :
    sector ∈ (ofSpan offset size).sectors := by
  have hend : (ofSpan offset size).lastSector < 2 ^ 32 := by
    rw [lastSector_ofSpan]
    exact endSector_lt offset size
  obtain ⟨rest, hrest⟩ := erasesSent_prefix (ofSpan offset size) hend n d
  have hall : sector ∈ clearedSectors (spanErases offset size) := by
    rw [← commands_ofSpan, ← hrest, clearedSectors, List.flatMap_append]
    exact List.mem_append_left _ h
  rw [clearedSectors_spanErases haddressable, List.mem_range'_1] at hall
  rw [sectors_ofSpan, Finset.mem_Ico]
  omega

/-- The plan of a span within the address space has exactly the sectors that the span touches, their
    number is the count, and no other sector is erased by whoever asks any device for the erases of the
    plan; each of the three unless the span has no bytes and begins inside a sector. -/
theorem sectors_touched_iff (offset size : UInt32)
    (haddressable : offset.toNat + size.toNat ≤ 2 ^ 32) :
    ((ofSpan offset size).sectors = touchedSectors offset.toNat size.toNat ↔
      (size = 0 → offset.toNat % sectorSize = 0)) ∧
    ((sectorCount offset size).toNat = (touchedSectors offset.toNat size.toNat).card ↔
      (size = 0 → offset.toNat % sectorSize = 0)) ∧
    ((∀ (δ : Type) [FlashDevice δ] (n : Nat) (d : δ),
        ∀ sector ∈ clearedSectors ((ofSpan offset size).erasesSent n d),
          sector ∈ touchedSectors offset.toNat size.toNat) ↔
      (size = 0 → offset.toNat % sectorSize = 0)) := by
  have hcard : (ofSpan offset size).sectors.card = (sectorCount offset size).toNat :=
    (ofSpan offset size).card_sectors
  by_cases hfits : size = 0 → offset.toNat % sectorSize = 0
  · have hsame : (ofSpan offset size).sectors = touchedSectors offset.toNat size.toNat := by
      have hfits' : size.toNat = 0 → offset.toNat % sectorSize = 0 := fun hzero =>
        hfits (UInt32.toNat_inj.mp hzero)
      rw [sectors_ofSpan]
      exact (touchedSectors_eq hfits').symm
    refine ⟨iff_of_true hsame hfits, iff_of_true (hsame ▸ hcard.symm) hfits, iff_of_true ?_ hfits⟩
    intro δ _ n d sector hsector
    rw [← hsame]
    exact cleared_subset_sectors haddressable n d hsector
  · obtain ⟨rfl, hinside⟩ := Classical.not_imp.mp hfits
    have hone : (ofSpan offset 0).sectors = {offset.toNat / sectorSize} :=
      sectors_ofSpan_of_empty hinside
    have hnone : touchedSectors offset.toNat (0 : UInt32).toNat = ∅ := by
      show touchedSectors offset.toNat 0 = ∅
      rw [touchedSectors, Nat.add_zero, Finset.Ico_self, Finset.image_empty]
    rw [hone, Finset.card_singleton] at hcard
    rw [hone, hnone]
    refine ⟨iff_of_false ?_ hfits, iff_of_false ?_ hfits, iff_of_false ?_ hfits⟩
    · exact Finset.singleton_ne_empty _
    · rw [← hcard, Finset.card_empty]
      exact Nat.one_ne_zero
    · -- a device that is idle takes the erase of the sector
      intro hall
      let plan := ofSpan offset 0
      have hnext : plan.nextSize = some .sector := by
        have hcount : plan.count.toNat = 1 := hcard.symm
        have hne : ¬plan.isEmpty = true := by
          rw [isEmpty_iff, hcount]
          exact Nat.one_ne_zero
        rw [nextSize, if_neg hne, hcount, if_neg (fun h => absurd h.1 (by decide))]
      have hsent : plan.erasesSent 1 ({} : Simulator 0) = [(plan.nextAddress, .sector)] := by
        simp only [erasesSent, issueRepeatedly, issueIfIdle, hnext]
        rfl
      have hmem : plan.nextAddress.toNat / sectorSize
          ∈ clearedSectors (plan.erasesSent 1 ({} : Simulator 0)) := by
        rw [hsent]
        exact List.mem_cons_self
      exact absurd (hall (Simulator 0) 1 {} _ hmem) (Finset.notMem_empty _)

/-- A span that begins with the last byte of a sector and ends with the last byte that has an
    address. -/
theorem sectors_touched_up_to_top :
    (0xFFFEFFFF : UInt32).toNat + (0x10001 : UInt32).toNat ≤ 2 ^ 32 ∧
      (ofSpan 0xFFFEFFFF 0x10001).sectors = touchedSectors 0xFFFEFFFF 0x10001 ∧
      (ofSpan 0xFFFEFFFF 0x10001).erasesSent 3 ({} : Simulator 0)
        = [(0xFFFEF000, .sector), (0xFFFF0000, .block)] := by
  have haddressable : (0xFFFEFFFF : UInt32).toNat + (0x10001 : UInt32).toNat ≤ 2 ^ 32 := by decide
  obtain ⟨hsectors, -, -⟩ := sectors_touched_iff 0xFFFEFFFF 0x10001 haddressable
  exact ⟨haddressable, hsectors.mpr nofun, by decide +kernel⟩

/-- A span without bytes touches no sector, but the sector is erased that it begins in. -/
theorem untouched_sector_erased : touchedSectors 100 0 = ∅ ∧ sectorCount 100 0 = 1 ∧
    (ofSpan 100 0).sectors = {0} ∧
    (ofSpan 100 0).erasesSent 1 ({} : Simulator 4096) = [(0, .sector)] := by
  have hinside : (100 : UInt32).toNat % sectorSize ≠ 0 := by decide
  exact ⟨rfl, by decide, sectors_ofSpan_of_empty hinside, by decide +kernel⟩

end ErasePlan
end NorLoader
