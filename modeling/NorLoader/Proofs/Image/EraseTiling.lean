import NorLoader.Proofs.Image.CallRecord
import NorLoader.Proofs.Image.Surroundings

/-!
# The erases of a job

Erases are sent when the device happens to be idle, between the reads of a stream and before a write
that needs them, so when they are sent depends on the device and on the host.  Which ones are sent does
not: they are always the first of one list that offset and size determine (`spanErases`), and all of
it by the time the job has its bytes (`erases_tile_span`).  That list clears every sector of the
span once, in ascending order, and takes a block wherever all of it is cleared (`TilesSpan`).
-/

namespace NorLoader

/-- The sectors that some erases clear, one erase after the other. -/
def clearedSectors (es : List (UInt32 × EraseSize)) : List Nat :=
  es.flatMap fun e => List.range' (e.1.toNat / sectorSize) e.2.sectors

/-- Erases that clear the sectors of a span and no other sector. -/
structure TilesSpan (offset size : Nat) (es : List (UInt32 × EraseSize)) : Prop where
  ascending : (clearedSectors es).Pairwise (· < ·)
  touched : ∀ sector, sector ∈ clearedSectors es ↔ Touches offset size (sector * sectorSize)
  /-- A block is erased as a whole if it is cleared as a whole. -/
  block_mem : ∀ addr, (addr, .block) ∈ es ↔ addr.toNat % blockSize = 0 ∧
    ∀ a, a / blockSize = addr.toNat / blockSize → Touches offset size a
  /-- Any other sector is erased by itself. -/
  sector_mem : ∀ addr, (addr, .sector) ∈ es ↔ addr.toNat % sectorSize = 0 ∧
    Touches offset size addr.toNat ∧
      ¬∀ a, a / blockSize = addr.toNat / blockSize → Touches offset size a

/-- All of a block is cleared if it lies between the first sector of the span and the last. -/
theorem block_touched_iff {offset size : Nat} (hpos : 0 < size) (addr : Nat) :
    (∀ a, a / blockSize = addr / blockSize → Touches offset size a) ↔
      WholeBlock (offset / sectorSize) (endSector offset size) (addr / sectorSize) := by
  simp only [touches_iff hpos, WholeBlock, endSector, blockSize, sectorSize, sectorsPerBlock]
  constructor
  · intro hall
    -- the first byte of the block and the last one
    have hfirst := hall (addr / 65536 * 65536) (by omega)
    have hlast := hall (addr / 65536 * 65536 + 65535) (by omega)
    omega
  · intro hwhole a ha
    omega

section Spans

variable {offset size : UInt32} (haddressable : offset.toNat + size.toNat ≤ 2 ^ 32)

include haddressable

/-- Up to the last address every tile has an address. -/
theorem toNat_eraseCommand (tile : Nat × EraseSize)
    (h : tile.1 < endSector offset.toNat size.toNat) :
    (eraseCommand tile).1.toNat = tile.1 * sectorSize := by
  have hend : endSector offset.toNat size.toNat * sectorSize ≤ 2 ^ 32 :=
    endSector_mul_le ⟨2 ^ 20, rfl⟩ haddressable
  show (clampWord (tile.1 * sectorSize)).toNat = _
  rw [toNat_clampWord]
  simp only [sectorSize] at hend ⊢
  omega

/-- A span is erased from sector starts, by the tiles of its sectors. -/
theorem mem_spanErases {addr : UInt32} {unit : EraseSize} : (addr, unit) ∈ spanErases offset size ↔
    addr.toNat % sectorSize = 0 ∧ (addr.toNat / sectorSize, unit) ∈
      tiles (offset.toNat / sectorSize) (endSector offset.toNat size.toNat) := by
  have hpos : 0 < sectorSize := by decide
  rw [spanErases, List.mem_map]
  constructor
  · rintro ⟨⟨sector, unit'⟩, htile, hcommand⟩
    obtain ⟨haddr, rfl⟩ := Prod.mk.inj hcommand
    have hexact := toNat_eraseCommand haddressable _ (lt_of_mem_tiles htile)
    have haddr' : addr.toNat = sector * sectorSize := haddr ▸ hexact
    rw [haddr', Nat.mul_mod_left, Nat.mul_div_cancel _ hpos]
    exact ⟨rfl, htile⟩
  · rintro ⟨haligned, htile⟩
    refine ⟨_, htile, ?_⟩
    have hexact := toNat_eraseCommand haddressable _ (lt_of_mem_tiles htile)
    have haddr : (eraseCommand (addr.toNat / sectorSize, unit)).1 = addr := by
      refine UInt32.toNat_inj.mp (hexact.trans ?_)
      simp only [sectorSize] at haligned ⊢
      omega
    exact Prod.ext haddr rfl

/-- The erases of a span clear its sectors, one after the other. -/
theorem clearedSectors_spanErases : clearedSectors (spanErases offset size)
    = List.range' (offset.toNat / sectorSize)
        (endSector offset.toNat size.toNat - offset.toNat / sectorSize) := by
  have hpos : 0 < sectorSize := by decide
  rw [← sectorsOf_tiles, clearedSectors, spanErases, List.flatMap_map, sectorsOf]
  refine List.flatMap_congr ?_
  intro tile htile
  rw [toNat_eraseCommand haddressable _ (lt_of_mem_tiles htile), Nat.mul_div_cancel _ hpos]
  rfl

/-- The erases that a span calls for clear its sectors. -/
theorem spanErases_tilesSpan (hsize : size ≠ 0) :
    TilesSpan offset.toNat size.toNat (spanErases offset size) := by
  have hpos : 0 < size.toNat := by
    rw [Nat.pos_iff_ne_zero]
    exact fun h0 => hsize (UInt32.toNat_inj.mp h0)
  refine ⟨?_, ?_, ?_, ?_⟩
  · rw [clearedSectors_spanErases haddressable]
    exact List.pairwise_lt_range'
  · intro sector
    rw [clearedSectors_spanErases haddressable, List.mem_range'_1, touches_iff hpos]
    simp only [endSector, sectorSize]
    omega
  · intro addr
    rw [mem_spanErases haddressable, block_mem_tiles, block_touched_iff hpos, ← and_assoc]
    refine and_congr_left ?_
    intro _
    simp only [blockSize, sectorSize, sectorsPerBlock]
    omega
  · intro addr
    rw [mem_spanErases haddressable, sector_mem_tiles, block_touched_iff hpos, touches_iff hpos]
    refine and_congr_right ?_
    intro haligned
    refine and_congr_left ?_
    intro _
    simp only [sectorSize] at haligned ⊢
    omega

end Spans

namespace Loader

/-- Whatever is asked of a loader after a job was opened, and however long the device takes, the
    erases are the first ones of a list that offset and size determine.  It clears each sector of the
    span once, in ascending order, with a block wherever all of one is cleared.  Once the job has
    its bytes the list is used up, and so is the plan. -/
theorem erases_tile_span {capacity : Nat} (l : Loader (Simulator capacity))
    (packed : Option UInt32) (size offset : UInt32) (cs : List LoaderCall)
    (hopen : (l.openJob packed size offset).1 = .ok ()) (hsize : size ≠ 0)
    (haddressable : offset.toNat + size.toNat ≤ 2 ^ 32) (hcs : ∀ c ∈ cs, c.span? = none) :
    let opened := (l.openJob packed size offset).2
    let l' := opened.calls cs
    TilesSpan offset.toNat size.toNat (spanErases offset size) ∧
      ∃ issued, l'.device.erases = opened.device.erases ++ issued ∧
        issued <+: spanErases offset size ∧
        (l'.job.remaining = 0 → issued = spanErases offset size ∧ l'.job.plan.isEmpty = true) := by
  intro opened l'
  have hjob : opened.job = .fresh size offset := by
    rw [show opened = _ from openJob_ok hopen]
  obtain ⟨w, calls, hcalls, hchart⟩ := charted_calls Simulator.callLog hjob hcs
  refine ⟨spanErases_tilesSpan haddressable hsize, erasesOf calls, ?_, ?_, ?_⟩
  · show erasesOf l'.device.calls.toList = erasesOf opened.device.calls.toList ++ _
    rw [← erasesOf_append]
    exact congrArg erasesOf hcalls
  · exact ⟨_, hchart.erases⟩
  · intro hremaining
    have hspent : opened.job.Spent offset size [] opened.device := by
      rw [hjob]
      exact Job.Spent.fresh ⟨fun h0 => absurd h0 hsize, haddressable⟩ _
    have hempty := spent_calls haddressable hspent hcs hremaining
    refine ⟨?_, hempty⟩
    rw [← hchart.erases, ErasePlan.commands, ErasePlan.tiles_of_empty hempty]
    exact (List.append_nil _).symm

/-- A span of a sector, a block and a sector.  The first byte ends where the block begins, so both
    are erased for it; the device is busy when it is asked to erase ahead, and the last sector waits. -/
theorem erases_tile_span_around_block :
    let d : Simulator (48 * 4096) := { eraseTime := 3, programTime := 1 }
    let opened := (Loader.openJob { device := d } none 0x10002 0xFFFF).2
    let l' := opened.calls [.write .plain [1], .eraseAhead, .write .plain [2]]
    (∃ issued, l'.device.erases = opened.device.erases ++ issued ∧
        issued <+: spanErases 0xFFFF 0x10002) ∧
      l'.device.erases = [(0xF000, .sector), (0x10000, .block)] ∧
      spanErases 0xFFFF 0x10002 = [(0xF000, .sector), (0x10000, .block), (0x20000, .sector)] := by
  intro d opened l'
  obtain ⟨-, issued, hissued, hfirst, -⟩ := erases_tile_span { device := d } none 0x10002 0xFFFF
    [.write .plain [1], .eraseAhead, .write .plain [2]] rfl (by decide) (by decide)
    (by decide)
  exact ⟨⟨issued, hissued, hfirst⟩, by decide +kernel, by decide +kernel⟩

end Loader
end NorLoader
