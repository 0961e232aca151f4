import NorLoader.Proofs.Image.FeedSteps

/-!
# The round trip of a packed image

A stream that stands for an image, fed to a loader in any pieces and with the device erased ahead
at any moment, leaves the image on the flash, one program for each window of it, and the job
closes with success.  A job that is given the image itself leaves the same there.
-/

namespace NorLoader

namespace Loader

variable {capacity : Nat}

/-! ## Plain images -/

/-- A job that was given the image as far as `later`, and none of it in vain. -/
structure Writing (offset size : UInt32) (calls : Nat) (image later : List UInt8)
    (w : List Delivery) (l : Loader (Simulator capacity)) : Prop where
  job : l.job.Faultless offset size calls w l.device
  error : l.job.error = none
  plain : ∀ v ∈ w, v.storage = .plain
  image : sent w ++ later = image

/-- Steps write all their bytes. -/
theorem Writing.carryOut {offset size : UInt32} (hin : Job.Inside capacity offset size)
    {calls : Nat} {image : List UInt8} (hsize : size.toNat = image.length)
    (steps : List FeedStep) {l : Loader (Simulator capacity)} {w : List Delivery}
    (h : Writing offset size calls image (fedBytes steps) w l) :
    ∃ w', Writing offset size calls image [] w' (l.writeAll steps) := by
  have hupkeep := Job.Faultless.upkeep calls hin
  induction steps generalizing l w with
  | nil => exact ⟨w, h⟩
  | cons step steps ih =>
      cases step with
      | eraseAhead =>
          exact ih (l := l.eraseAhead.2) ⟨hupkeep.eraseAhead h.job, h.error, h.plain, h.image⟩
      | piece bytes =>
          -- the pieces make up the image, so the job takes each of them whole
          have hfits : l.job.accepted bytes = bytes := by
            refine List.take_of_length_le ?_
            have hspan := h.job.1.remaining
            have hlength := congrArg List.length h.image
            rw [show fedBytes (.piece bytes :: steps) = bytes ++ fedBytes steps from rfl,
              List.length_append, List.length_append, length_sent] at hlength
            omega
          refine ih (l := l.write .plain bytes) (w := w ++ l.job.deliveries .plain bytes)
            ⟨hupkeep.write h.job .plain bytes, h.job.error_write hin h.error bytes, ?_, ?_⟩
          · exact List.forall_mem_append.mpr ⟨h.plain, Job.Upkeep.plain_deliveries _ _⟩
          · rw [sent, List.flatMap_append]
            show sent w ++ sent (l.job.deliveries .plain bytes) ++ fedBytes steps = image
            rw [Job.sent_deliveries, hfits, List.append_assoc]
            exact h.image

/-! ## What is on the flash -/

/-- A job that delivered its image without an error closes with success and leaves it on the
    flash. -/
theorem finish_delivered {offset size : UInt32} (hin : Job.Inside capacity offset size)
    {calls : Nat} {w : List Delivery} {l : Loader (Simulator capacity)}
    (hjob : l.job.Faultless offset size calls w l.device) (herror : l.job.error = none)
    (hplain : ∀ v ∈ w, v.storage = .plain) (hall : (sent w).length = size.toNat) :
    l.finish.1 = .ok () ∧
      l.finish.2.device.read? offset.toNat (sent w).length = some (sent w) := by
  have hspan := hjob.1.remaining
  rw [← length_sent, hall] at hspan
  have hremaining : l.job.remaining = 0 := UInt32.toNat_inj.mp (by
    show l.job.remaining.toNat = 0
    omega)
  refine ⟨(Job.finish_ok_iff _).mpr ⟨hjob.1.active, hremaining, herror⟩, ?_⟩
  show l.device.read? offset.toNat (sent w).length = some (sent w)
  by_cases hnil : sent w = []
  · have hrange := hin.inside
    rw [hnil, Simulator.read?, List.length_nil, if_pos (by omega)]
    rfl
  · have hstored : stored w = sent w := stored_of_storage .plain hplain
    have hholds := hjob.2.holds herror
    rw [hstored] at hholds
    exact Simulator.read?_of_holds hholds hnil

section Spans

variable (hsectors : sectorSize ∣ capacity) (haddressable : capacity ≤ 2 ^ 32)

include hsectors haddressable in
/-- A zlib stream that stands for an image is unpacked to that image: whatever pieces the stream
    comes in and whenever the device is erased ahead, the job closes with success, the stream is
    known to be complete, the span holds the image, and the device was programmed once for each
    window of the image, one window behind the other.  A job that writes the image as it is, in
    pieces of its own, leaves the span as this one does. -/
theorem unpacked_as_written {packed image : List UInt8} (hpacks : Packs packed image)
    (size packedSize offset : UInt32) (hsize : size.toNat = image.length)
    (hpacked : packedSize.toNat = packed.length) (hinside : offset.toNat + size.toNat ≤ capacity)
    (l : Loader (Simulator capacity)) (hfaults : l.device.faults = {})
    (steps : List FeedStep) (hsteps : fedBytes steps = packed) :
    let opened := l.startPacked size packedSize offset
    let closed := (opened.2.unpackAll steps).finish
    opened.1 = .ok () ∧ closed.1 = .ok () ∧ closed.2.unpacker.phase = .complete ∧
      closed.2.device.read? offset.toNat image.length = some image ∧
      (closed.2.device.callsSince l.device.calls.size).filter DeviceCall.isProgram
        = windowPrograms offset.toNat image ∧
      ∀ (l' : Loader (Simulator capacity)) (writes : List FeedStep), l'.device.faults = {} →
        fedBytes writes = image →
        let closed' := ((l'.start size offset).2.writeAll writes).finish
        closed'.1 = .ok () ∧ closed'.2.device.read? offset.toNat image.length
          = closed.2.device.read? offset.toNat image.length := by
  have hin : Job.Inside capacity offset size := ⟨hsectors, haddressable, hinside⟩
  obtain ⟨y, hreaches, hinput, rfl, hfinished⟩ := hpacks
  have hseeded : l.unpacker.window.toList.length = windowSize := Vector.length_toList
  -- behind a window the stream puts out the same, and nothing more is announced at its end
  let f : Feed capacity :=
    { last := y.framed l.unpacker.window.toList []
      extra := 0
      size := size
      ends := Expansion.next?_of_finished hfinished
      seed := l.unpacker.window.toList
      offset := offset
      calls := l.device.calls.size
      keeps := Job.Faultless offset size l.device.calls.size
      seeded := hseeded
      upkeep := Job.Faultless.upkeep _ hin
      aimed := And.left }
  have houtput : f.output = y.output := List.drop_left' hseeded
  have hgood : f.Good := by
    refine ⟨?_, ?_, ?_⟩
    · rw [StreamEnd.Right, houtput]
      exact hfinished
    · rw [houtput]
      exact hsize.symm
    · show y.input ++ [] = []
      rw [hinput, List.append_nil]
  have himage : f.image = y.output := by
    rw [Feed.image, houtput]
    exact List.take_of_length_le (Nat.le_of_eq hsize.symm)
  have hpos : 0 < packed.length := by
    refine List.length_pos_iff.mpr ?_
    rintro rfl
    -- a stream of no bytes does not come to its end
    have hungry : (Expansion.start []).Hungry := Or.inl ⟨rfl, rfl⟩
    obtain rfl := hreaches.eq_of_end (hungry.next? rfl)
    exact hungry.not_finished _ hfinished
  intro opened closed
  have hopened := startPacked_ok l hfaults size packedSize offset
  have hfed := progress_fed (f := f) l hfaults rfl (hreaches.behind l.unpacker.window) hpacked hpos
    (faultless_opened offset size hfaults) hsteps
  cases hfed with
  | midway _ _ _ _ _ _ _ hmore =>
      -- all of the stream was fed, so no byte of it can be wanted
      exact absurd hmore (Nat.lt_irrefl 0)
  | failed hfails => exact absurd hgood hfails.not_good
  | complete hphase hright htrail hjob hwindowed hsent herror =>
      rename_i w trail
      have hsent : sent w = y.output := hsent.trans himage
      have htrail : trail = [] := by
        rw [hgood.2.2, List.append_nil] at htrail
        exact htrail.symm
      have hdelivered : delivered w = size.toNat := by
        rw [← length_sent, hsent, hsize]
      have herror : (opened.2.unpackAll steps).job.error = none :=
        herror.mpr ⟨Job.within_placements (by rw [hdelivered]; exact hinside), hgood.2.1, htrail⟩
      obtain ⟨hok, hread⟩ := finish_delivered hin hjob herror hwindowed.plain
        (by rw [hsent, hsize])
      rw [hsent] at hread
      refine ⟨by simp only [opened, hopened], hok, hphase, hread, ?_, ?_⟩
      · have hprograms := hjob.1.programs
        rw [placements_windowed hwindowed _ (by rw [hsent]; omega), hsent] at hprograms
        exact hprograms
      · intro l' writes hfaults' hwrites
        have hopened' := start_ok l' hfaults' size offset
        have hbegins : Writing offset size l'.device.calls.size y.output (fedBytes writes) []
            (l'.start size offset).2 := by
          rw [hopened']
          exact ⟨faultless_opened offset size hfaults', rfl, List.forall_mem_nil _, hwrites⟩
        obtain ⟨w', hwriting⟩ := Writing.carryOut hin hsize writes hbegins
        have himage := hwriting.image
        rw [List.append_nil] at himage
        obtain ⟨hok', hread'⟩ := finish_delivered hin hwriting.job hwriting.error hwriting.plain
          (by rw [himage, hsize])
        rw [himage] at hread'
        exact ⟨hok', hread'.trans hread.symm⟩

end Spans

/-- Ten equal bytes on both sides of a sector border, their stream cut in the middle of a match and
    of its checksum. -/
theorem unpacked_as_written_repeated :
    let l : Loader (Simulator 12288) := { device := { eraseTime := 3, programTime := 2 } }
    let steps : List FeedStep := [.eraseAhead, .piece [120, 156, 75], .piece [],
      .piece [76, 132], .piece [1, 0, 20, 225], .eraseAhead, .piece [3, 203]]
    let closed := ((l.startPacked 10 11 4090).2.unpackAll steps).finish
    closed.1 = .ok () ∧ closed.2.unpacker.phase = .complete ∧
      closed.2.device.read? 4090 10 = some (List.replicate 10 97) := by
  intro l steps closed
  have hpacks : Packs [120, 156, 75, 76, 132, 1, 0, 20, 225, 3, 203] (List.replicate 10 97) :=
    ⟨_, Expansion.reaches_advance 200 _, by decide +kernel, by decide +kernel, by decide +kernel⟩
  have hsectors : sectorSize ∣ 12288 := ⟨3, rfl⟩
  have h := unpacked_as_written hsectors (by decide) hpacks 10 11 4090 rfl rfl (by decide) l rfl
    steps rfl
  exact ⟨h.2.1, h.2.2.1, h.2.2.2.1⟩

end Loader
end NorLoader
