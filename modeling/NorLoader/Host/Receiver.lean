import NorLoader.Geometry
import NorLoader.Wire.Codec

/-!
# Receiving requests

The serial line hands out bytes in packets that need not agree with the frames on it.  The
receiver collects the bytes of a frame up to its delimiter, over as many packets as it takes, and
keeps what is left of a packet once a request is complete.  Frames without bytes and frames that
hold no request are skipped.
-/

namespace NorLoader

/-- What the serial line gives when it is read. -/
inductive LineRead where
  | packet (bytes : List UInt8)
  /-- No packet came, or it could not be read. -/
  | nothing
  deriving DecidableEq, Repr

/-- The bytes that came with a look at the line. -/
def LineRead.bytes : LineRead → List UInt8
  | packet bytes => bytes
  | nothing => []

/-- What a receiver keeps between two looks at the line. -/
structure Receiver where
  /-- The bytes of the frame that is being received. -/
  frame : Array UInt8 := #[]
  /-- The bytes of the last packet that were not looked at. -/
  unread : List UInt8 := []
  deriving DecidableEq, Repr

namespace Receiver

variable [Platform]

/-- The longest frame, without its delimiter. -/
def frameCapacity : Nat := 2048

/-- Looks at bytes until a request is complete.  A byte that the frame has no room for drops the
    frame and itself. -/
def scan (frame : Array UInt8) : List UInt8 → Option Request × Receiver
  | [] => (none, ⟨frame, []⟩)
  | b :: rest =>
      if b = Cobs.delimiter then
        if frame.isEmpty then scan frame rest
        else
          match Request.ofFrame (some maxPayload) frame.toList with
          | .ok request => (some request, ⟨#[], rest⟩)
          | .error _ => scan #[] rest
      else if frame.size < frameCapacity then scan (frame.push b) rest
      else scan #[] rest

/-- Whether the next request may need a new packet. -/
def wantsPacket (r : Receiver) : Bool := r.unread.isEmpty

/-- Takes a packet, once all of the last one was looked at. -/
def takePacket (r : Receiver) (packet : List UInt8) : Receiver := { r with unread := packet }

/-- The next request in what was received so far. -/
def next (r : Receiver) : Option Request × Receiver :=
  let ⟨frame, unread⟩ := r
  scan frame unread

/-- Looks once for a request, and reads the line before if all of the last packet was looked at.
    What the line has yet to give is known beforehand; there is no look once it gives no more. -/
def look (r : Receiver) (reads : List LineRead) :
    Option (Option Request × Receiver × List LineRead) :=
  if r.wantsPacket then
    match reads with
    | [] => none
    | read :: reads =>
        let found := (r.takePacket read.bytes).next
        some (found.1, found.2, reads)
  else some (r.next.1, r.next.2, reads)

/-- Bytes and reads that are still to be looked at. -/
def pending (r : Receiver) (reads : List LineRead) : Nat :=
  r.unread.length + (reads.flatMap LineRead.bytes).length + reads.length

/-- A scan leaves no more unread than it was given. -/
theorem unread_scan_le (frame : Array UInt8) (bytes : List UInt8) :
    (scan frame bytes).2.unread.length ≤ bytes.length := by
  induction bytes generalizing frame with
  | nil => simp [scan]
  | cons b rest ih =>
      unfold scan
      split
      · split
        · exact Nat.le_succ_of_le (ih frame)
        · split
          · exact Nat.le_succ _
          · exact Nat.le_succ_of_le (ih #[])
      · split
        · exact Nat.le_succ_of_le (ih _)
        · exact Nat.le_succ_of_le (ih #[])

/-- What is left after a look at a packet is no longer than the packet. -/
theorem unread_next_le (r : Receiver) : r.next.2.unread.length ≤ r.unread.length :=
  unread_scan_le r.frame r.unread

/-- A look at some bytes uses at least one of them. -/
theorem unread_next_lt (r : Receiver) (h : r.wantsPacket = false) :
    r.next.2.unread.length < r.unread.length := by
  obtain ⟨frame, unread⟩ := r
  cases unread with
  | nil => simp [wantsPacket] at h
  | cons b rest =>
      show (scan frame (b :: rest)).2.unread.length < rest.length + 1
      unfold scan
      split
      · split
        · exact Nat.lt_succ_of_le (unread_scan_le frame rest)
        · split
          · exact Nat.lt_succ_self _
          · exact Nat.lt_succ_of_le (unread_scan_le #[] rest)
      · split
        · exact Nat.lt_succ_of_le (unread_scan_le _ rest)
        · exact Nat.lt_succ_of_le (unread_scan_le #[] rest)

/-- A look uses up a read or a byte. -/
theorem pending_look_lt {r r' : Receiver} {reads reads' : List LineRead} {found : Option Request}
    (h : r.look reads = some (found, r', reads')) : r'.pending reads' < r.pending reads := by
  unfold look at h
  split at h
  · cases reads with
    | nil => exact nomatch h
    | cons read reads =>
        simp only [Option.some.injEq, Prod.mk.injEq] at h
        obtain ⟨-, rfl, rfl⟩ := h
        have hle : _ ≤ read.bytes.length := unread_next_le (r.takePacket read.bytes)
        simp only [pending, List.flatMap_cons, List.length_append, List.length_cons]
        omega
  · rename_i hwants
    simp only [Option.some.injEq, Prod.mk.injEq] at h
    obtain ⟨-, rfl, rfl⟩ := h
    have hlt := unread_next_lt r (by simpa using hwants)
    simp only [pending]
    omega

end Receiver
end NorLoader
