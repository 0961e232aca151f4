import NorLoader.Proofs.Host.Run
import NorLoader.Proofs.Image.RoundTrip
import NorLoader.Proofs.Image.WholeWindows
import NorLoader.Proofs.Deflate.BreakingOff

/-!
# What success says about a stream

A session for a zlib stream that closes with success had a stream that was complete, unless the
image is a whole number of windows.  Of such an image the last window is delivered as soon as it
is full, so the job has all its bytes before the end of the stream is known; if the host stops
there, nothing is missing and nothing failed.
-/

namespace NorLoader

namespace Controller

variable {capacity : Nat}

/-! ## Images that are not whole windows -/

/-- A session for a stream: without an error and before the end of the stream the job got whole
    windows. -/
structure StreamSession (size : UInt32) (c : Controller (Simulator capacity)) : Prop where
  route : c.route = .stream
  whole : c.loader.job.error = none → c.loader.unpacker.phase ≠ .complete →
    c.loader.job.WholeWindows size

/-- Every event but an opening goes on with the session. -/
theorem StreamSession.after {size : UInt32} {c : Controller (Simulator capacity)}
    (h : StreamSession size c) (e : Event) (he : e.opens = false) :
    StreamSession size (c.after e) := by
  cases htaken : c.taken? e with
  | some b =>
      obtain ⟨route, hroute, hnext⟩ := after_of_taken htaken
      rw [h.route] at hroute
      obtain ⟨hkind, rfl⟩ := Route.taking?_stream hroute
      rw [hnext, hkind]
      refine ⟨rfl, ?_⟩
      intro herror hphase
      exact Unpacker.unpack_wholeWindows h.whole herror hphase
  | none =>
      obtain ⟨-, hroute, hunpacker, herror, hremaining⟩ := after_of_not_taken he htaken
      refine ⟨hroute.trans h.route, ?_⟩
      intro hnone hphase
      rw [herror] at hnone
      rw [hunpacker] at hphase
      rw [Job.WholeWindows, hremaining]
      exact h.whole hnone hphase

/-! ## Images that are -/

/-- For an image that is a whole number of windows there is a session that closes with success
    though its stream breaks off. -/
theorem finish_of_breaking_off {size packedSize offset : UInt32}
    (hin : Job.Inside capacity offset size) (hwhole : windowSize ∣ size.toNat)
    (hmore : (breakingOff size.toNat).length < packedSize.toNat) (d : Simulator capacity)
    (hfaults : d.faults = {}) :
    let stream := breakingOff size.toNat
    let block : DataBlock := ⟨.deflated, 0, Crc32.checksum stream, stream⟩
    let opened := (powerOn d).run [.request (.startPacked size packedSize offset)]
    let closing := (opened.run [.request (.data block)]).execute .finish
    closing.1 = .ack .ok ∧ closing.2.loader.unpacker.phase ≠ .complete := by
  intro stream block opened closing
  let l := (powerOn d).loader
  have hsteps : fedBytes [.piece stream] = stream := List.append_nil _
  obtain ⟨hactive, herror, hphase, -, hremaining, -⟩ :=
    l.fed_breakingOff hfaults (Nat.le_refl _) hin.inside hmore hsteps
  have hloader : (opened.after (.request (.data block))).loader
      = (l.startPacked size packedSize offset).2.unpack stream :=
    (powerOn d).loader_after_piece (congrArg FaultSwitches.unlock hfaults) ..
  -- of an image of whole windows none of the output is held back
  have hcomplete : ((l.startPacked size packedSize offset).2.unpack stream).job.remaining = 0 := by
    refine UInt32.toNat_inj.mp ?_
    rw [Nat.mul_div_cancel' hwhole] at hremaining
    exact Nat.add_eq_left.mp hremaining
  have hfinish : closing = (opened.after (.request (.data block))).execute .finish := rfl
  rw [hfinish, finish_ok_iff, ← Job.finish_ok_iff]
  show (opened.after (.request (.data block))).loader.job.finish.1 = .ok () ∧
    (opened.after (.request (.data block))).loader.unpacker.phase ≠ .complete
  rw [hloader]
  exact ⟨(Job.finish_ok_iff _).mpr ⟨hactive, hcomplete, herror⟩, hphase⟩

/-- Success tells of a complete stream exactly for images that are not a whole number of windows.
    For such an image this holds of every device, whatever came before the session and whatever
    happens in it; for any other there is a device and a session where it does not. -/
theorem stream_complete_of_finished_iff (size : UInt32) :
    (∀ (capacity : Nat) (d : Simulator capacity) (before session : List Event)
        (packedSize offset : UInt32), (∀ e ∈ session, e.opens = false) →
      let opened := (powerOn d).run (before ++ [.request (.startPacked size packedSize offset)])
      let closing := (opened.run session).execute .finish
      closing.1 = .ack .ok → closing.2.loader.unpacker.phase = .complete) ↔
    ¬windowSize ∣ size.toNat := by
  constructor
  · -- the stream breaks off after the image, on a device that fills the address space
    intro hall hwhole
    have hin : Job.Inside (2 ^ 32) 0 size :=
      ⟨⟨2 ^ 20, rfl⟩, Nat.le_refl _, by have := size.toNat_lt; show 0 + _ ≤ _; omega⟩
    have hmore : (breakingOff size.toNat).length < (0xFFFFFFFF : UInt32).toNat := by
      have hle := length_breakingOff_le size.toNat
      have hlt := size.toNat_lt
      show _ < 4294967295
      omega
    obtain ⟨hok, hphase⟩ := finish_of_breaking_off hin hwhole hmore {} rfl
    refine hphase (hall _ {} [] _ 0xFFFFFFFF 0 ?_ hok)
    intro e he
    rw [List.mem_singleton.mp he]
    rfl
  · intro hpart capacity d before session packedSize offset hsession opened closing hok
    obtain ⟨hactive, hremaining, herror⟩ := (finish_ok_iff _).mp hok
    have hspan : (Request.startPacked size packedSize offset).span? = some (size, offset) := rfl
    have hopens := (powerOn d).run_opening before hspan
    obtain ⟨hfresh, hroute⟩ := hopens.fresh_of_active hsession hactive
    have hbegins : StreamSession size opened := by
      refine ⟨hroute, ?_⟩
      intro _ _
      rw [hfresh]
      rfl
    have hstream := session_induct (I := fun _ c => StreamSession size c)
      (fun _ c e he h => h.after e he) [] hbegins hsession
    by_cases hphase : (opened.run session).loader.unpacker.phase = .complete
    · exact hphase
    · -- a job that got whole windows and misses nothing was for whole windows
      have hwhole := hstream.whole herror hphase
      rw [Job.WholeWindows, hremaining] at hwhole
      exact absurd (Nat.dvd_of_mod_eq_zero hwhole.symm) hpart

/-- An image of one window whose stream breaks off: the job closes with success. -/
theorem finished_incomplete_stream :
    let size : UInt32 := 32768
    let stream := breakingOff size.toNat
    let block : DataBlock := ⟨.deflated, 0, Crc32.checksum stream, stream⟩
    let opened := (powerOn ({} : Simulator 65536)).run [.request (.startPacked size 1000 0)]
    let closing := (opened.run [.request (.data block)]).execute .finish
    closing.1 = .ack .ok ∧ closing.2.loader.unpacker.phase ≠ .complete := by
  have hmore : (breakingOff (32768 : UInt32).toNat).length < (1000 : UInt32).toNat :=
    Nat.lt_of_le_of_lt (length_breakingOff_le _) (by decide)
  have hin : Job.Inside 65536 0 32768 := ⟨⟨16, rfl⟩, by decide, by decide⟩
  exact finish_of_breaking_off hin ⟨1, rfl⟩ hmore {} rfl

end Controller
end NorLoader
