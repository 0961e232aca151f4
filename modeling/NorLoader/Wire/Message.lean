import NorLoader.Fault
import NorLoader.Checksum.Crc32

/-!
# Messages

What the host sends and what it is told.  The host opens a job, sends the image as numbered
data blocks, each with its checksum, and closes the job; every request has one answer.
-/

namespace NorLoader

/-- How the payload of a data block is to be written. -/
inductive BlockKind where
  | plain
  /-- A piece of the zlib stream of the image. -/
  | deflated
  /-- Bytes of the image, stored through the encryption unit. -/
  | encrypted
  deriving DecidableEq, Repr

/-- A piece of an image on its way to the flash. -/
structure DataBlock where
  kind : BlockKind
  /-- The number of the block in its job. -/
  seq : UInt32
  /-- The CRC-32 of the payload as the host computed it. -/
  crc : UInt32
  payload : List UInt8
  deriving DecidableEq, Repr

/-- Whether the payload arrived as it was sent, as far as the checksum tells. -/
def DataBlock.isIntact (b : DataBlock) : Bool := Crc32.checksum b.payload = b.crc

/-- What the host asks for. -/
inductive Request where
  | query
  /-- Opens a job for an image that comes as it is. -/
  | start (size offset : UInt32)
  /-- Opens a job for an image that comes as a zlib stream. -/
  | startPacked (size packedSize offset : UInt32)
  | data (block : DataBlock)
  | finish
  | reboot
  deriving DecidableEq, Repr

/-- The kind and the payload of a request that brings a block. -/
def Request.payload? : Request → Option (BlockKind × List UInt8)
  | data block => some (block.kind, block.payload)
  | _ => none

/-- How the host is told what became of a request. -/
inductive Ack where
  | ok
  /-- A job error: of this request, or one kept earlier. -/
  | failed (error : JobError)
  /-- The block was dropped because its checksum is wrong. -/
  | damaged
  /-- The block was dropped because it is out of sequence. -/
  | outOfOrder
  /-- The block was dropped because the job takes another kind. -/
  | wrongKind
  deriving DecidableEq, Repr

/-- The acknowledgement of an outcome. -/
def Ack.ofResult : Except JobError Unit → Ack
  | .ok () => ok
  | .error e => failed e

/-- What the host is told. -/
inductive Answer where
  | ack (ack : Ack)
  /-- Whether a job is open, the error it keeps, and the bytes it still expects. -/
  | status (active : Bool) (error : Option JobError) (remaining : UInt32)
  deriving DecidableEq, Repr

end NorLoader
