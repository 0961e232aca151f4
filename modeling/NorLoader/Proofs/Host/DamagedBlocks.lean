import NorLoader.Proofs.Checksum.Bursts
import NorLoader.Proofs.Host.Run

/-!
# Damaged blocks

A block whose payload was changed on the way, within 32 consecutive bits, does not carry the
checksum of what arrived.  If it is the one that the open job waits for it gets as far as that check
and no further: the host is told, and of the block nothing is kept.
-/

namespace NorLoader

/-- The check of a block tells a payload from every other that differs within 32 bits. -/
theorem DataBlock.not_intact_of_burst (kind : BlockKind) (seq : UInt32) {payload altered : List UInt8}
    (hlength : altered.length = payload.length) (hne : altered ≠ payload) {start : Nat}
    (hburst : AgreeOutside start 32 (bitsOf payload) (bitsOf altered)) :
    (⟨kind, seq, Crc32.checksum payload, altered⟩ : DataBlock).isIntact = false :=
  decide_eq_false (Crc32.checksum_ne_of_burst hlength hne hburst)

namespace Controller

variable {δ : Type}

/-- The checksum of the next block is checked before its kind. -/
theorem receive_of_not_intact {c : Controller δ} {b : DataBlock}
    (hactive : c.loader.job.active = true) (hseq : b.seq = c.taken) (hdamaged : b.isIntact = false) :
    c.receive b = (.ack .damaged, c) := by
  rw [receive, if_neg (by rw [hactive]; decide), if_neg (not_not.mpr hseq),
    if_pos (by rw [hdamaged]; rfl)]

variable [FlashDevice δ]

/-- While a job is open, the next block is dropped if its payload differs from the one that its
    checksum was computed for within 32 consecutive bits.  The host is told that it is damaged,
    nothing is left to be written, and the controller is as it was, with its job and its device. -/
theorem damaged_block_dropped (c : Controller δ) (hactive : c.loader.job.active = true)
    (kind : BlockKind) {payload altered : List UInt8} (hlength : altered.length = payload.length)
    (hne : altered ≠ payload) {start : Nat}
    (hburst : AgreeOutside start 32 (bitsOf payload) (bitsOf altered)) :
    let block : DataBlock := ⟨kind, c.taken, Crc32.checksum payload, altered⟩
    c.respond (.data block) = ({ answer := .ack .damaged, toStore := none }, c) ∧
      c.execute (.data block) = (.ack .damaged, c) := by
  intro block
  have hrespond : c.respond (.data block) = ({ answer := .ack .damaged, toStore := none }, c) :=
    receive_of_not_intact hactive rfl (DataBlock.not_intact_of_burst kind c.taken hlength hne hburst)
  refine ⟨hrespond, ?_⟩
  rw [execute, hrespond]
  rfl

/-- A block of a stream, the second of its job, in which all bits of a window across five bytes are
    wrong. -/
theorem damaged_block_dropped_across_bytes :
    let c : Controller (Simulator 65536) :=
      (powerOn {}).run [.request (.startPacked 10 11 0),
        .request (.data ⟨.deflated, 0, Crc32.checksum [0x78, 0x9C], [0x78, 0x9C]⟩)]
    let payload : List UInt8 := [0x4B, 0x4C, 0x84, 0x01, 0x00, 0x14]
    let altered : List UInt8 := [0xAB, 0xB3, 0x7B, 0xFE, 0x1F, 0x14]
    let block : DataBlock := ⟨.deflated, c.taken, Crc32.checksum payload, altered⟩
    c.taken = 1 ∧ c.execute (.data block) = (.ack .damaged, c) := by
  intro c payload altered block
  refine ⟨by decide +kernel, ?_⟩
  have hburst : AgreeOutside 5 32 (bitsOf payload) (bitsOf altered) :=
    ⟨by decide +kernel, by decide +kernel⟩
  have hactive : c.loader.job.active = true := by decide +kernel
  have hlength : altered.length = payload.length := rfl
  exact (damaged_block_dropped c hactive .deflated hlength (by decide) hburst).2

end Controller
end NorLoader
