import NorLoader.Image.Loader
import NorLoader.Wire.Message

/-!
# Serving requests

The controller decides what a request does to the loader.  A data block is acknowledged before it
is written, so that the host sends the next one in the meantime: `respond` goes up to the answer
and says whether the payload is still to be written, and `storePayload` writes it.  The answer to
a block therefore tells of the errors before that block.

A job takes blocks of one kind.  One that was opened for a zlib stream takes pieces of the
stream; any other takes plain or encrypted blocks, whichever comes first.
-/

namespace NorLoader

/-- The blocks that the open job takes. -/
inductive Route where
  /-- None: no job was opened, or the last attempt failed. -/
  | nothing
  /-- Plain or encrypted blocks; the kind is fixed once a block was taken. -/
  | image (kind : Option BlockKind)
  | stream
  deriving DecidableEq, Repr

/-- The route after a block of some kind, if such a block is taken. -/
def Route.taking? (r : Route) (kind : BlockKind) : Option Route :=
  match r, kind with
  | stream, .deflated => some stream
  | image none, .plain => some (image (some .plain))
  | image none, .encrypted => some (image (some .encrypted))
  | image (some fixed), _ => if fixed = kind then some r else none
  | _, _ => none

/-- What is decided about a block, from its header and the job that is open. -/
structure Verdict where
  /-- What the host is told first. -/
  answer : Answer
  /-- How the payload is to be written then, if it is. -/
  toStore : Option BlockKind := none
  deriving DecidableEq, Repr

namespace Verdict

/-- An acknowledgement after which there is nothing to do. -/
def ack (a : Ack) : Verdict := { answer := .ack a }

/-- An outcome after which there is nothing to do. -/
def ofResult (r : Except JobError Unit) : Verdict := ack (.ofResult r)

end Verdict

/-- The loader and what is known about the host's side of the job. -/
structure Controller (δ : Type) where
  loader : Loader δ
  /-- The number of the next block, which is also how many were taken. -/
  taken : UInt32 := 0
  route : Route := .nothing

namespace Controller

variable {δ : Type}

/-- What a query is answered with. -/
def report (c : Controller δ) : Answer :=
  .status c.loader.job.active c.loader.job.error c.loader.job.remaining

/-- Checks a block and acknowledges it: it has to belong to an open job, be the next one,
    have arrived intact and be of the kind that the job takes, in this order. -/
def receive (c : Controller δ) (b : DataBlock) : Verdict × Controller δ :=
  if !c.loader.job.active then (.ack (.failed .noJob), c)
  else if b.seq ≠ c.taken then (.ack .outOfOrder, c)
  else if !b.isIntact then (.ack .damaged, c)
  else
    match c.route.taking? b.kind with
    | none => (.ack .wrongKind, c)
    | some route =>
        let answer := match c.loader.job.error with
          | some e => Ack.failed e
          | none => .ok
        (⟨.ack answer, some b.kind⟩, { c with taken := c.taken + 1, route := route })

/-- The controller after an attempt to open a job for blocks of some route. -/
def afterOpening (route : Route) (result : Except JobError Unit) (loader : Loader δ) :
    Verdict × Controller δ :=
  let route := match result with
    | .ok () => route
    | .error _ => .nothing
  (.ofResult result, ⟨loader, 0, route⟩)

variable [FlashDevice δ]

/-- Carries a request out up to the answer. -/
def respond (c : Controller δ) (request : Request) : Verdict × Controller δ :=
  match request with
  | .query => ({ answer := c.report }, c)
  | .start size offset =>
      let ⟨loader, _, _⟩ := c
      let (result, loader) := loader.start size offset
      afterOpening (.image none) result loader
  | .startPacked size packedSize offset =>
      let ⟨loader, _, _⟩ := c
      let (result, loader) := loader.startPacked size packedSize offset
      afterOpening .stream result loader
  | .data block => c.receive block
  | .finish =>
      let ⟨loader, taken, route⟩ := c
      let (result, loader) := loader.finish
      (.ofResult result, ⟨loader, taken, route⟩)
  | .reboot => (.ack .ok, c)

/-- Has the loader write a payload that was accepted. -/
def storePayload (c : Controller δ) (kind : BlockKind) (payload : List UInt8) : Controller δ :=
  let ⟨loader, taken, route⟩ := c
  match kind with
  | .plain => ⟨loader.write .plain payload, taken, route⟩
  | .deflated => ⟨loader.unpack payload, taken, route⟩
  | .encrypted => ⟨loader.write .encrypted payload, taken, route⟩

/-- Writes the payload of a request if the verdict to it says so. -/
def storePending (c : Controller δ) (verdict : Verdict) (request : Request) : Controller δ :=
  match verdict.toStore, request.payload? with
  | some kind, some (_, payload) => c.storePayload kind payload
  | _, _ => c

/-- Carries a request out and writes its payload straight away. -/
def execute (c : Controller δ) (request : Request) : Answer × Controller δ :=
  let (verdict, c) := c.respond request
  (verdict.answer, c.storePending verdict request)

/-- Erases ahead while there is no request; tells whether an erase was issued. -/
def idle (c : Controller δ) : Bool × Controller δ :=
  if c.loader.job.active then
    let ⟨loader, taken, route⟩ := c
    let (issued, loader) := loader.eraseAhead
    (issued, ⟨loader, taken, route⟩)
  else (false, c)

end Controller
end NorLoader
