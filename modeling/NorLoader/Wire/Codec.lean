import NorLoader.Platform
import NorLoader.Wire.Cobs
import NorLoader.Wire.Message
import NorLoader.Wire.Varint

/-!
# The binary form of messages

A value with alternatives is the number of the alternative, as a variable-length number, and then
its fields.  Words are variable-length numbers, truth values one byte, an optional value a mark
and then the value, and a payload its length and then its bytes.  Every writer here has a reader
that undoes it and gives the bytes that follow.
-/

namespace NorLoader

/-- A reader takes bytes from the front and gives a value and the bytes after it. -/
abbrev Reader := StateT (List UInt8) (Except WireError)

namespace Wire

/-! ## Elements -/

/-- A word goes out as a varint. -/
def writeWord (w : UInt32) : List UInt8 := Varint.encode w.toNat

/-- Reads a number of a type that is `width` bits wide. -/
def readNumber (width : Nat) : Reader Nat := Varint.read width

/-- Reads a word. -/
def readWord : Reader UInt32 := do
  return UInt32.ofNat (← readNumber 32)

/-- Reads one of several cases by its number. -/
def readVariant {α : Type} (ofNumber : Nat → Option α) : Reader α := do
  match ofNumber (← readNumber 32) with
  | some a => return a
  | none => throw .unknownVariant

/-- Reads a byte. -/
def readByte : Reader UInt8
  | [] => .error .unexpectedEnd
  | b :: rest => .ok (b, rest)

/-- A truth value goes out as a zero or a one. -/
def writeBool (b : Bool) : List UInt8 := [b.toUInt8]

/-- Reads a truth value; it may be nothing else. -/
def readBool : Reader Bool := do
  let b ← readByte
  if b = 0 then return false
  else if b = 1 then return true
  else throw .badBool

/-- An optional value goes out behind a mark that tells whether it is there. -/
def writeOption {α : Type} (write : α → List UInt8) : Option α → List UInt8
  | none => [0]
  | some a => 1 :: write a

/-- Reads an optional value. -/
def readOption {α : Type} (read : Reader α) : Reader (Option α) := do
  let b ← readByte
  if b = 0 then return none
  else if b = 1 then return some (← read)
  else throw .badOption

/-- A payload goes out behind its length. -/
def writePayload (payload : List UInt8) : List UInt8 :=
  Varint.encode payload.length ++ payload

/-- Reads a number of bytes. -/
def readBytes (count : Nat) : Reader (List UInt8) := fun bytes =>
  if bytes.length < count then .error .unexpectedEnd
  else .ok (bytes.take count, bytes.drop count)

/-- Reads the length of a payload, which is a size of the platform. -/
def readLength [Platform] : Reader Nat := readNumber Platform.sizeBits

/-- Reads a payload into a container, of limited size on the board and unlimited on the host.  A
    limit shows once the first byte past it was read. -/
def readPayload [Platform] (limit : Option Nat) : Reader (List UInt8) := do
  let length ← readLength
  match limit with
  | none => readBytes length
  | some most =>
      if length ≤ most then readBytes length
      else
        let _ ← readBytes (most + 1)
        throw .payloadTooLong

end Wire

open Wire

/-! ## Alternatives without fields -/

namespace BlockKind

/-- The number of a kind on the wire. -/
def number : BlockKind → Nat
  | plain => 0
  | deflated => 1
  | encrypted => 2

/-- The kind with a number. -/
def ofNumber? : Nat → Option BlockKind
  | 0 => some plain
  | 1 => some deflated
  | 2 => some encrypted
  | _ => none

end BlockKind

namespace JobError

/-- The number of an error, counted from the first. -/
def number : JobError → Nat
  | programFailed => 0
  | unlockFailed => 1
  | noJob => 2
  | corruptStream => 3
  | shortData => 4
  | excessData => 5

/-- The error with a number. -/
def ofNumber? : Nat → Option JobError
  | 0 => some programFailed
  | 1 => some unlockFailed
  | 2 => some noJob
  | 3 => some corruptStream
  | 4 => some shortData
  | 5 => some excessData
  | _ => none

/-- An error goes out as its number. -/
def encode (e : JobError) : List UInt8 := Varint.encode e.number

/-- Reads an error. -/
def read : Reader JobError := readVariant ofNumber?

end JobError

/-! ## Data blocks -/

namespace DataBlock

/-- The fields of a block go out one behind the other, and the payload is the last. -/
def encode (b : DataBlock) : List UInt8 :=
  Varint.encode b.kind.number ++ writeWord b.seq ++ writeWord b.crc ++ writePayload b.payload

/-- Reads a block with a payload of at most `limit` bytes. -/
def read [Platform] (limit : Option Nat) : Reader DataBlock := do
  let kind ← readVariant BlockKind.ofNumber?
  let seq ← readWord
  let crc ← readWord
  let payload ← readPayload limit
  return ⟨kind, seq, crc, payload⟩

end DataBlock

/-! ## Requests -/

namespace Request

/-- A request goes out as its number and what it comes with. -/
def encode : Request → List UInt8
  | query => Varint.encode 0
  | start size offset => Varint.encode 1 ++ writeWord size ++ writeWord offset
  | startPacked size packedSize offset =>
      Varint.encode 2 ++ writeWord size ++ writeWord packedSize ++ writeWord offset
  | data block => Varint.encode 3 ++ block.encode
  | finish => Varint.encode 4
  | reboot => Varint.encode 5

/-- Reads a request whose payload goes into a container of limited size, if there is a limit. -/
def read [Platform] (limit : Option Nat) : Reader Request := do
  match ← readNumber 32 with
  | 0 => return query
  | 1 =>
      let size ← readWord
      let offset ← readWord
      return start size offset
  | 2 =>
      let size ← readWord
      let packedSize ← readWord
      let offset ← readWord
      return startPacked size packedSize offset
  | 3 => return data (← DataBlock.read limit)
  | 4 => return finish
  | 5 => return reboot
  | _ => throw .unknownVariant

/-- Reads a request from the bytes of a message. -/
def decode [Platform] (limit : Option Nat) (bytes : List UInt8) : Except WireError Request :=
  (read limit).run' bytes

/-- Reads a request from a frame. -/
def ofFrame [Platform] (limit : Option Nat) (data : List UInt8) : Except WireError Request :=
  Cobs.unframe data >>= decode limit

/-- The frame of a request. -/
def toFrame (q : Request) : List UInt8 := Cobs.frame q.encode

end Request

/-! ## Answers -/

namespace Ack

/-- An acknowledgement goes out as its number and what it comes with. -/
def encode : Ack → List UInt8
  | ok => Varint.encode 0
  | failed e => Varint.encode 1 ++ e.encode
  | damaged => Varint.encode 2
  | outOfOrder => Varint.encode 3
  | wrongKind => Varint.encode 4

/-- Reads an acknowledgement. -/
def read : Reader Ack := do
  match ← readNumber 32 with
  | 0 => return ok
  | 1 => return failed (← JobError.read)
  | 2 => return damaged
  | 3 => return outOfOrder
  | 4 => return wrongKind
  | _ => throw .unknownVariant

end Ack

namespace Answer

/-- An answer goes out as its number and what it comes with. -/
def encode : Answer → List UInt8
  | ack a => Varint.encode 0 ++ a.encode
  | status active error remaining =>
      Varint.encode 1 ++ writeBool active ++ writeOption JobError.encode error
        ++ writeWord remaining

/-- Reads an answer. -/
def read : Reader Answer := do
  match ← readNumber 32 with
  | 0 => return ack (← Ack.read)
  | 1 =>
      let active ← readBool
      let error ← readOption JobError.read
      let remaining ← readWord
      return status active error remaining
  | _ => throw .unknownVariant

/-- Reads an answer from the bytes of a message. -/
def decode (bytes : List UInt8) : Except WireError Answer := read.run' bytes

/-- Reads an answer from a frame. -/
def ofFrame (data : List UInt8) : Except WireError Answer := Cobs.unframe data >>= decode

/-- The frame of an answer. -/
def toFrame (a : Answer) : List UInt8 := Cobs.frame a.encode

end Answer

/-- The bytes, if a buffer holds them. -/
def fitting (capacity : Nat) (bytes : List UInt8) : Except WireError (List UInt8) :=
  if bytes.length ≤ capacity then .ok bytes else .error .bufferFull

end NorLoader
