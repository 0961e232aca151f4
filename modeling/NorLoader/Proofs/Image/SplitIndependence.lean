import NorLoader.Proofs.Image.FeedSteps

/-!
# How a stream is cut

What becomes of a session for a zlib stream does not depend on the pieces that the stream comes in,
nor on when the device is erased ahead.  Both runs are held against the same third thing, the
expansion of the stream in front of what the window holds: it says what is delivered and whether
the job closes with success (`closed_unpackAll`), for streams that are cut short or corrupt, or
that go on too long, as well as for good ones.
-/

namespace NorLoader

namespace Loader

variable {capacity : Nat}

/-- How a job for a stream is left once all of the stream was fed: it got what the stream puts out
    of the image, a window at a time, and it closes with success if that is all of the image, none
    of it left the device, and the stream was good. -/
theorem closed_unpackAll {e : StreamEnd} (hextra : e.extra = 0) (offset packedSize : UInt32)
    {packed : List UInt8} (hpos : 0 < packed.length) (hpacked : packedSize.toNat = packed.length)
    (l : Loader (Simulator capacity)) (hfaults : l.device.faults = {})
    (hreaches : (l.unpacker.window.expansion packed).Reaches e.last) {steps : List FeedStep}
    (hsteps : fedBytes steps = packed) :
    let closed := ((l.startPacked e.size packedSize offset).2.unpackAll steps).finish
    ∃ w, Windowed w ∧ sent w = e.output.take e.size.toNat ∧
      (sent w).length + closed.2.job.remaining.toNat = e.size.toNat ∧
      (closed.2.device.callsSince l.device.calls.size).filter DeviceCall.isProgram
        = placements offset.toNat w ∧
      (closed.1 = .ok () ↔ closed.2.job.remaining = 0 ∧
        (∀ call ∈ placements offset.toNat w, call.Within capacity) ∧ e.Good) := by
  have hall : packed.length = packed.length + e.extra :=
    (congrArg (packed.length + ·) hextra).symm
  have hfed := l.progress_feedOf hfaults e offset hreaches (hpacked.trans hall) (hall ▸ hpos) hsteps
  obtain ⟨w, hjob, hwindowed, hsent, herror⟩ := hfed.outcome hextra
  have hjob : Job.Aimed offset e.size l.device.calls.size w _ _ := hjob
  intro closed
  have hremaining : closed.2.job.remaining
      = ((l.startPacked e.size packedSize offset).2.unpackAll steps).job.remaining :=
    (Job.finish_kept _).2
  refine ⟨w, hwindowed, hsent, ?_, hjob.programs, ?_⟩
  · rw [hremaining, length_sent]
    exact hjob.remaining
  · refine (Job.finish_ok_iff _).trans ?_
    rw [and_iff_right hjob.active, hremaining, herror]
    rfl

/-- The outcome of a job for a stream does not depend on how the stream is cut.  Whatever the
    stream is, good or not, and whatever sizes and offset are declared, as long as all of it was
    announced: on two devices without faults and with the same bytes in the window, any two ways to
    feed it leave the same number of bytes missing and the same programs in the log, and the job
    closes with success for both or for none. -/
theorem outcome_of_any_split {packed : List UInt8} (hpos : 0 < packed.length)
    (size packedSize offset : UInt32) (hpacked : packedSize.toNat = packed.length)
    (l l' : Loader (Simulator capacity)) (hfaults : l.device.faults = {})
    (hfaults' : l'.device.faults = {}) (hwindow : l.unpacker.window = l'.unpacker.window)
    (steps steps' : List FeedStep) (hsteps : fedBytes steps = packed)
    (hsteps' : fedBytes steps' = packed) :
    let closed := ((l.startPacked size packedSize offset).2.unpackAll steps).finish
    let closed' := ((l'.startPacked size packedSize offset).2.unpackAll steps').finish
    (closed.1 = .ok () ↔ closed'.1 = .ok ()) ∧
      closed.2.job.remaining = closed'.2.job.remaining ∧
      (closed.2.device.callsSince l.device.calls.size).filter DeviceCall.isProgram
        = (closed'.2.device.callsSince l'.device.calls.size).filter DeviceCall.isProgram := by
  obtain ⟨last, hreaches, hends⟩ := (l.unpacker.window.expansion packed).exists_last
  let e : StreamEnd := ⟨last, 0, size, hends⟩
  have hreaches' : (l'.unpacker.window.expansion packed).Reaches e.last := hwindow ▸ hreaches
  intro closed closed'
  obtain ⟨w, hwindowed, hsent, hremaining, hprograms, hok⟩ :=
    closed_unpackAll (e := e) rfl offset packedSize hpos hpacked l hfaults hreaches hsteps
  obtain ⟨w', hwindowed', hsent', hremaining', hprograms', hok'⟩ :=
    closed_unpackAll (e := e) rfl offset packedSize hpos hpacked l' hfaults' hreaches' hsteps'
  -- the same bytes were delivered, so they were delivered the same way
  obtain rfl := hwindowed.eq_of_sent hwindowed' (hsent.trans hsent'.symm)
  have hmissing : closed.2.job.remaining = closed'.2.job.remaining :=
    UInt32.toNat_inj.mp (Nat.add_left_cancel (hremaining.trans hremaining'.symm))
  refine ⟨?_, hmissing, hprograms.trans hprograms'.symm⟩
  rw [hok, hok', hmissing]

/-- A stream with a byte behind its end, cut within a match and within its checksum or not at all,
    for a span that leaves the device. -/
theorem outcome_of_any_split_trailing :
    let l : Loader (Simulator 4096) := { device := {} }
    let steps : List FeedStep := [.piece [120, 156, 75], .eraseAhead, .piece [],
      .piece [76, 132, 1, 0, 20, 225], .piece [3, 203, 0]]
    let steps' : List FeedStep := [.piece [120, 156, 75, 76, 132, 1, 0, 20, 225, 3, 203, 0]]
    let closed := ((l.startPacked 10 12 4090).2.unpackAll steps).finish
    let closed' := ((l.startPacked 10 12 4090).2.unpackAll steps').finish
    (closed.1 = .ok () ↔ closed'.1 = .ok ()) ∧
      closed.2.job.remaining = closed'.2.job.remaining ∧
      (closed.2.device.callsSince 0).filter DeviceCall.isProgram
        = (closed'.2.device.callsSince 0).filter DeviceCall.isProgram := by
  intro l steps steps'
  have hpos : 0 < ([120, 156, 75, 76, 132, 1, 0, 20, 225, 3, 203, 0] : List UInt8).length := by
    decide
  exact outcome_of_any_split hpos 10 12 4090 rfl l l rfl rfl rfl steps steps' rfl rfl

end Loader
end NorLoader
