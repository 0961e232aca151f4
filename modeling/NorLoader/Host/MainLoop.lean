import NorLoader.Host.Controller
import NorLoader.Host.Receiver

/-!
# The service loop

The board serves one host over a serial line.  Each turn looks for a request, carries it out if
there is one and erases ahead if there is none, and then shows on the status light whether a
job is open.  A data block is written after its answer is on the line.  A reboot is answered
by the loop itself and ends the service.
-/

namespace NorLoader

/-- How an offer of bytes ends. -/
inductive SendOutcome where
  /-- This many bytes, at least one, were taken. -/
  | took (count : Nat)
  | busy
  /-- The line refuses the bytes for good. -/
  | failed
  deriving DecidableEq, Repr

/-- A line that takes bytes, some at a time. -/
class SerialLine (δ : Type) where
  offer : List UInt8 → δ → SendOutcome × δ
  /-- How many further offers may find the line busy. -/
  offerPatience : δ → Nat

/-- A light that shows whether a job is open. -/
class StatusLight (δ : Type) where
  setLight : Bool → δ → δ

/-- Lines that take bytes whenever they are not busy, and whose `offerPatience` bounds how often
    they are. -/
class LawfulSerialLine (δ : Type) [SerialLine δ] : Prop where
  took_pos : ∀ (bytes : List UInt8) (d : δ) (n : Nat), bytes ≠ [] →
    (SerialLine.offer bytes d).1 = .took n → 0 < n
  offerPatience_lt : ∀ (bytes : List UInt8) (d : δ),
    (SerialLine.offer bytes d).1 = .busy →
    SerialLine.offerPatience (SerialLine.offer bytes d).2 < SerialLine.offerPatience d
  offerPatience_le : ∀ (bytes : List UInt8) (d : δ),
    SerialLine.offerPatience (SerialLine.offer bytes d).2 ≤ SerialLine.offerPatience d

/-- Offers bytes until all are taken or the line refuses them, at most `n` times. -/
def sendUpTo {δ : Type} [SerialLine δ] : Nat → List UInt8 → δ → δ
  | _, [], d => d
  | 0, _, d => d
  | n + 1, bytes, d =>
      match SerialLine.offer bytes d with
      | (.took count, d) => sendUpTo n (bytes.drop count) d
      | (.busy, d) => sendUpTo n bytes d
      | (.failed, d) => d

/-- Sends bytes.  Every offer either gets rid of a byte or uses up some patience. -/
def sendAll {δ : Type} [SerialLine δ] (bytes : List UInt8) (d : δ) : δ :=
  sendUpTo (bytes.length + SerialLine.offerPatience d) bytes d

/-- The room for the frame of an answer. -/
def answerCapacity : Nat := 64

/-- Why the main loop ends. -/
inductive LoopEnd where
  /-- Nothing more came over the line. -/
  | lineSilent
  | rebooted
  deriving DecidableEq, Repr

namespace Controller

variable {δ : Type}

/-- Does something to the device of a controller. -/
def onDevice (f : δ → δ) (c : Controller δ) : Controller δ :=
  let ⟨⟨device, job, unpacker⟩, taken, route⟩ := c
  ⟨⟨f device, job, unpacker⟩, taken, route⟩

variable [FlashDevice δ] [SerialLine δ] [StatusLight δ]

omit [FlashDevice δ] [StatusLight δ] in
/-- Sends an answer.  One whose frame is too long for the room that it has is not sent. -/
def tell (c : Controller δ) (a : Answer) : Controller δ :=
  match fitting answerCapacity a.toFrame with
  | .ok frame => c.onDevice (sendAll frame)
  | .error _ => c

omit [FlashDevice δ] [SerialLine δ] in
/-- Has the light show whether a job is open. -/
def showActive (c : Controller δ) : Controller δ :=
  let active := c.loader.job.active
  c.onDevice (StatusLight.setLight active)

omit [StatusLight δ] in
/-- Answers a request and then writes its payload, if there is one to write. -/
def carryOut (c : Controller δ) (request : Request) : Controller δ :=
  let (verdict, c) := c.respond request
  (c.tell verdict.answer).storePending verdict request

/-- One turn of the service, with the request that was found; tells whether it goes on. -/
def turn (c : Controller δ) : Option Request → Bool × Controller δ
  | some .reboot => (false, c.tell (.ack .ok))
  | some request => (true, (c.carryOut request).showActive)
  | none => (true, c.idle.2.showActive)

/-- Serves the requests in what the line gives, until it gives no more or a reboot is requested. -/
def mainLoop [Platform] (reads : List LineRead) (r : Receiver) (c : Controller δ) :
    LoopEnd × Controller δ :=
  match _h : r.look reads with
  | none => (.lineSilent, c)
  | some (found, r, reads) =>
      let (goesOn, c) := c.turn found
      if goesOn then mainLoop reads r c else (.rebooted, c)
termination_by r.pending reads
decreasing_by exact Receiver.pending_look_lt _h

end Controller
end NorLoader
