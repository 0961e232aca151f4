import NorLoader.Proofs.Host.Run
import NorLoader.Proofs.Image.SpinningReads

/-!
# Every call returns

A controller waits without a bound, so that it answers at all has to be shown.  Here it is put together
from the loops as they run (`Spinning`), which have no value where a loop does not end or a slice
is out of range, and is shown to give an answer to every request and in every idle moment.

Of the state that a controller is in this takes one thing, that there is room in the window.  Every event
leaves it so, whatever the device does and however long it takes (`Controller.held_after_lt`).
-/

namespace NorLoader
namespace Spinning

variable {capacity : Nat}

/-! ## The controller -/

/-- Writes the payload of a block. -/
def storePayload (c : Controller (Simulator capacity)) (kind : BlockKind) (payload : List UInt8) :
    Part (Controller (Simulator capacity)) :=
  let ⟨⟨device, job, unpacker⟩, taken, route⟩ := c
  match kind with
  | .plain => do
      let (job, device) ← write job .plain payload device
      return ⟨⟨device, job, unpacker⟩, taken, route⟩
  | .deflated => do
      let (unpacker, job, device) ← unpack unpacker job payload device
      return ⟨⟨device, job, unpacker⟩, taken, route⟩
  | .encrypted => do
      let (job, device) ← write job .encrypted payload device
      return ⟨⟨device, job, unpacker⟩, taken, route⟩

/-- Writes the payload of a request if the verdict to it says so. -/
def storePending (c : Controller (Simulator capacity)) (verdict : Verdict) (request : Request) :
    Part (Controller (Simulator capacity)) :=
  match verdict.toStore, request.payload? with
  | some kind, some (_, payload) => storePayload c kind payload
  | _, _ => Part.some c

/-- Carries a request out and writes its payload straight away. -/
def execute (c : Controller (Simulator capacity)) (request : Request) :
    Part (Answer × Controller (Simulator capacity)) := do
  let (verdict, c) := c.respond request
  let c ← storePending c verdict request
  return (verdict.answer, c)

/-- Erases ahead while there is no request; tells whether an erase was issued. -/
def idle (c : Controller (Simulator capacity)) : Part (Bool × Controller (Simulator capacity)) :=
  if c.loader.job.active then do
    let (issued, job, device) ← eraseAhead c.loader.job c.loader.device
    return (issued, { c with loader := { c.loader with job, device } })
  else Part.some (false, c)

/-- The controller after an event. -/
def after (c : Controller (Simulator capacity)) : Event → Part (Controller (Simulator capacity))
  | .request r => (execute c r).map Prod.snd
  | .idle => (idle c).map Prod.snd
  | .switch faults =>
      Part.some { c with loader := { c.loader with device := { c.loader.device with faults } } }

/-- The controller after a run. -/
def run (c : Controller (Simulator capacity)) (es : List Event) :
    Part (Controller (Simulator capacity)) :=
  es.foldlM after c

end Spinning

namespace Controller

variable {capacity : Nat}

/-- The answer to a request leaves the window as it is, or empties it. -/
theorem held_respond_le (c : Controller (Simulator capacity)) (r : Request) :
    (c.respond r).2.loader.unpacker.held ≤ c.loader.unpacker.held := by
  cases r with
  | query => exact Nat.le_refl _
  | start => exact Nat.zero_le _
  | startPacked => exact Nat.zero_le _
  | finish => exact Nat.le_refl _
  | reboot => exact Nat.le_refl _
  | data b =>
      show (c.receive b).2.loader.unpacker.held ≤ _
      rcases c.receive_cases b with ⟨-, hsame⟩ | ⟨route, -, -, -, -, -, hnext⟩
      · rw [hsame]
      · rw [hnext]

/-- A payload leaves room in the window. -/
theorem held_storePayload_lt {c : Controller (Simulator capacity)}
    (h : c.loader.unpacker.held < windowSize) (kind : BlockKind) (payload : List UInt8) :
    (c.storePayload kind payload).loader.unpacker.held < windowSize := by
  cases kind with
  | plain => exact h
  | deflated => exact Unpacker.held_unpack_lt h c.loader.job payload c.loader.device
  | encrypted => exact h

/-- Every event leaves room in the window. -/
theorem held_after_lt {c : Controller (Simulator capacity)}
    (h : c.loader.unpacker.held < windowSize) (e : Event) :
    (c.after e).loader.unpacker.held < windowSize := by
  cases e with
  | switch => exact h
  | idle =>
      rw [after_idle]
      split <;> exact h
  | request r =>
      have hresponse := Nat.lt_of_le_of_lt (c.held_respond_le r) h
      show (storePending (c.respond r).2 (c.respond r).1 r).loader.unpacker.held < windowSize
      rw [storePending]
      split
      · exact held_storePayload_lt hresponse _ _
      · exact hresponse

/-- There is room in the window after any events. -/
theorem held_run_lt (d : Simulator capacity) (es : List Event) :
    ((powerOn d).run es).loader.unpacker.held < windowSize :=
  run_induct (I := fun c => c.loader.unpacker.held < windowSize)
    (fun _ e h => held_after_lt h e) (Nat.zero_lt_succ _) es

end Controller

namespace Spinning

variable {capacity : Nat} {c : Controller (Simulator capacity)}

/-- A payload is written in the end. -/
theorem storePayload_eq (hheld : c.loader.unpacker.held < windowSize) (kind : BlockKind)
    (payload : List UInt8) : storePayload c kind payload = Part.some (c.storePayload kind payload) := by
  obtain ⟨⟨device, job, unpacker⟩, taken, route⟩ := c
  cases kind with
  | plain =>
      simp only [storePayload, write_eq, Part.bind_eq_bind, Part.bind_some]
      rfl
  | deflated =>
      simp only [storePayload, unpack_eq hheld, Part.bind_eq_bind, Part.bind_some]
      rfl
  | encrypted =>
      simp only [storePayload, write_eq, Part.bind_eq_bind, Part.bind_some]
      rfl

/-- So is the payload of an accepted block. -/
theorem storePending_eq (hheld : c.loader.unpacker.held < windowSize) (verdict : Verdict)
    (request : Request) :
    storePending c verdict request = Part.some (c.storePending verdict request) := by
  simp only [storePending, Controller.storePending, storePayload_eq hheld]
  cases verdict.toStore <;> cases request.payload? <;> rfl

/-- A request is carried out in the end. -/
theorem execute_eq (hheld : c.loader.unpacker.held < windowSize) (request : Request) :
    execute c request = Part.some (c.execute request) := by
  have hresponse := Nat.lt_of_le_of_lt (c.held_respond_le request) hheld
  simp only [execute, storePending_eq hresponse, Part.bind_eq_bind, Part.bind_some]
  rfl

/-- An idle moment ends. -/
theorem idle_eq (c : Controller (Simulator capacity)) : idle c = Part.some c.idle := by
  rw [idle, Controller.idle, eraseAhead_eq, Part.bind_eq_bind, Part.bind_some]
  split <;> rfl

/-- Every event ends. -/
theorem after_eq (hheld : c.loader.unpacker.held < windowSize) (e : Event) :
    after c e = Part.some (c.after e) := by
  cases e with
  | request r =>
      rw [after, execute_eq hheld, Part.map_some]
      rfl
  | idle =>
      rw [after, idle_eq, Part.map_some]
      rfl
  | switch => rfl

/-- So do any number of them. -/
theorem run_eq (hheld : c.loader.unpacker.held < windowSize) (es : List Event) :
    run c es = Part.some (c.run es) := by
  induction es generalizing c with
  | nil => rfl
  | cons e es ih =>
      have hstep : run c (e :: es) = (after c e).bind fun c' => run c' es := rfl
      rw [hstep, after_eq hheld, Part.bind_some]
      exact ih (Controller.held_after_lt hheld e)

end Spinning

/-- A controller of a simulated device comes through any run, however long the device takes for an erase
    or a program, and then it comes back from every request and from every idle moment. -/
theorem Controller.every_call_returns {capacity : Nat} (d : Simulator capacity) (es : List Event) :
    let c := (powerOn d).run es
    Spinning.run (powerOn d) es = Part.some c ∧
      (∀ request, Spinning.execute c request = Part.some (c.execute request)) ∧
      Spinning.idle c = Part.some c.idle :=
  ⟨Spinning.run_eq (Nat.zero_lt_succ _) es, Spinning.execute_eq (held_run_lt d es), Spinning.idle_eq _⟩

end NorLoader
