import NorLoader.Flash.Device
import NorLoader.Saturating

/-!
# Erase plans

The flash under an image is erased a unit at a time, just ahead of the data.  A plan is the run
of sectors that is still to be erased.  An erase is left running once the chip has taken it, so
that the time it needs overlaps whatever the loader does next; only what needs the chip waits.
-/

namespace NorLoader

/-- The sectors that are still to be erased. -/
structure ErasePlan where
  /-- Index of the first of them. -/
  first : UInt32 := 0
  count : UInt32 := 0
  deriving DecidableEq, Repr

namespace ErasePlan

/-- Nothing to erase. -/
def empty : ErasePlan := {}

/-- Every sector that `size` bytes from `offset` on touch. -/
def ofSpan (offset size : UInt32) : ErasePlan :=
  ⟨sectorIndex offset, sectorCount offset size⟩

/-- The address of the first sector that is still to be erased. -/
def nextAddress (p : ErasePlan) : UInt32 := satMul p.first (UInt32.ofNat sectorSize)

/-- Whether everything is erased. -/
def isEmpty (p : ErasePlan) : Bool := p.count = 0

/-- The size of the next erase.  A block is taken only when it is aligned and whole. -/
def nextSize (p : ErasePlan) : Option EraseSize :=
  if p.isEmpty then none
  else if p.count.toNat ≥ sectorsPerBlock ∧ p.first.toNat % sectorsPerBlock = 0 then
    some .block
  else some .sector

/-- What is left after an erase. -/
def after (p : ErasePlan) (size : EraseSize) : ErasePlan :=
  { first := p.first + UInt32.ofNat size.sectors
    count := p.count - UInt32.ofNat size.sectors }

variable {δ : Type} [FlashDevice δ]

/-- Issues an erase and moves on behind it. -/
def issue (p : ErasePlan) (size : EraseSize) (d : δ) : ErasePlan × δ :=
  (p.after size, FlashDevice.erase p.nextAddress size (FlashDevice.enableWrite d))

/-- Issues the next erase if there is one and the device is idle, and tells whether it did.
    Never waits, and leaves the device alone when nothing is left to erase. -/
def issueIfIdle (p : ErasePlan) (d : δ) : Bool × ErasePlan × δ :=
  match p.nextSize with
  | none => (false, p, d)
  | some size =>
      let (ready, d) := FlashDevice.poll d
      if ready then (true, p.issue size d) else (false, p, d)

/-- Issues at most `n` erases, waiting for each, until the plan is past a sector or done. -/
def issueUpTo (last : UInt32) : Nat → ErasePlan → δ → ErasePlan × δ
  | 0, p, d => (p, d)
  | n + 1, p, d =>
      match p.nextSize with
      | none => (p, d)
      | some size =>
          if p.first ≤ last then
            let (p, d) := p.issue size (FlashDevice.awaitIdle d)
            issueUpTo last n p d
          else (p, d)

/-- Erases until a sector is covered or nothing is left.  Each erase covers at least one sector,
    so there are no more of them than sectors. -/
def coverThrough (p : ErasePlan) (last : UInt32) (d : δ) : ErasePlan × δ :=
  issueUpTo last p.count.toNat p d

end ErasePlan
end NorLoader
