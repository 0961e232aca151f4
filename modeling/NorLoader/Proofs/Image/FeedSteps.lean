import NorLoader.Proofs.Deflate.BreakingOff
import NorLoader.Proofs.Image.Pieces

/-!
# Feeding a loader

A loader is fed the pieces of a stream, or given those of an image, and may be told to erase ahead
at any moment.  `progress_start` is where a job for a stream begins, `progress_unpackAll` takes it
through all steps, and `Progress.outcome` reads off what became of the stream.
-/

namespace NorLoader

/-- What is done to an open job. -/
inductive FeedStep where
  | piece (bytes : List UInt8)
  | eraseAhead
  deriving DecidableEq, Repr

/-- The bytes that a step feeds. -/
def FeedStep.bytes : FeedStep → List UInt8
  | piece bytes => bytes
  | eraseAhead => []

/-- The bytes of all pieces, one after the other. -/
def fedBytes (steps : List FeedStep) : List UInt8 := steps.flatMap FeedStep.bytes

namespace Loader

section Steps

variable {δ : Type} [FlashDevice δ]

/-- Carries out some steps, with `take` for what is done with a piece. -/
def carryOut (take : Loader δ → List UInt8 → Loader δ) (l : Loader δ) (steps : List FeedStep) :
    Loader δ :=
  steps.foldl (fun l step =>
    match step with
    | .piece bytes => take l bytes
    | .eraseAhead => l.eraseAhead.2) l

/-- Unpacks the pieces of a stream. -/
def unpackAll (l : Loader δ) (steps : List FeedStep) : Loader δ := l.carryOut unpack steps

/-- Writes the pieces of an image. -/
def writeAll (l : Loader δ) (steps : List FeedStep) : Loader δ :=
  l.carryOut (fun l bytes => l.write .plain bytes) steps

end Steps

variable {capacity : Nat}

/-! ## Opening a job -/

/-- The log of a job that was just opened has no program in it. -/
theorem aimed_opened (offset size : UInt32) {d : Simulator capacity} (h : d.faults = {}) :
    (Job.fresh size offset).Aimed offset size d.calls.size []
      { d.record .unlock with status := unprotected d.status } := by
  have hcalls : (d.record .unlock).calls = d.calls ++ [DeviceCall.unlock] :=
    Array.ext' (by simp [Simulator.record])
  refine Job.Aimed.fresh h (Simulator.le_size_of_append (Nat.le_refl _) hcalls) ?_
  show ((d.record .unlock).callsSince d.calls.size).filter DeviceCall.isProgram = []
  rw [Simulator.callsSince_of_append hcalls]
  rfl

/-- On a device without faults a job is opened without any. -/
theorem faultless_opened (offset size : UInt32) {d : Simulator capacity} (h : d.faults = {}) :
    (Job.fresh size offset).Faultless offset size d.calls.size []
      { d.record .unlock with status := unprotected d.status } :=
  ⟨aimed_opened offset size h, Job.Contents.fresh offset size _⟩

/-- On such a device a job for a stream is opened. -/
theorem startPacked_ok (l : Loader (Simulator capacity)) (h : l.device.faults = {})
    (size packedSize offset : UInt32) :
    l.startPacked size packedSize offset = (.ok (), ⟨{ l.device.record .unlock with
      status := unprotected l.device.status }, .fresh size offset,
      l.unpacker.restart packedSize⟩) := by
  have hunlock := Simulator.unlock_ok (s := l.device) (by rw [h])
  simp only [Loader.startPacked, Job.start, hunlock]

/-- So is a job for plain data. -/
theorem start_ok (l : Loader (Simulator capacity)) (h : l.device.faults = {})
    (size offset : UInt32) :
    l.start size offset = (.ok (), ⟨{ l.device.record .unlock with
      status := unprotected l.device.status }, .fresh size offset, l.unpacker.restart 0⟩) := by
  have hunlock := Simulator.unlock_ok (s := l.device) (by rw [h])
  simp only [Loader.start, Job.start, hunlock]

/-- A stream that is fed to a job of a loader without faults. -/
def feedOf (l : Loader (Simulator capacity)) (e : StreamEnd) (offset : UInt32) : Feed capacity :=
  { e with
    seed := l.unpacker.window.toList
    offset := offset
    calls := l.device.calls.size
    keeps := Job.Aimed offset e.size l.device.calls.size
    seeded := Vector.length_toList
    upkeep := Job.Aimed.upkeep _ _ _
    aimed := id }

end Loader

/-! ## Feeding a stream -/

/-- The expansion of a stream in front of a window. -/
def Window.expansion (window : Window) (packed : List UInt8) : Expansion :=
  ⟨.start, [], packed, window.toList⟩

/-- A stream does in front of a window what it does in front of nothing. -/
theorem Expansion.Reaches.behind {packed : List UInt8} {y : Expansion}
    (h : (Expansion.start packed).Reaches y) (window : Window) :
    (window.expansion packed).Reaches (y.framed window.toList []) := by
  have hframed := h.framed window.toList []
  have hstart : (Expansion.start packed).framed window.toList [] = window.expansion packed := by
    simp only [Expansion.framed, start, Window.expansion, List.append_nil]
  rw [hstart] at hframed
  exact hframed

section Progress

variable {capacity : Nat} {f : Feed capacity}

/-- A job for a stream begins at the start of its expansion, in front of what the window holds. -/
theorem progress_start {u : Unpacker} (hseed : f.seed = u.window.toList) {packed : List UInt8}
    (hreaches : (u.window.expansion packed).Reaches f.last) {packedSize : UInt32}
    (hleft : packedSize.toNat = packed.length + f.extra) (hpos : 0 < packed.length + f.extra)
    {j : Job} {s : Simulator capacity} (hjob : f.keeps [] j s) (herror : j.error = none) :
    Progress f packed (u.restart packedSize) j s := by
  have hgiven : f.seed ++ sent [] = u.window.toList := by
    rw [hseed]
    exact List.append_nil _
  have hlength : u.window.toList.length = windowSize := Vector.length_toList
  refine .midway (w := []) (x := u.window.expansion packed) ⟨⟨rfl, rfl, Decoder.near_start,
    Nat.zero_le _, Window.Recalls.seed _, ?_, ?_, ?_⟩, ?_, hreaches, rfl, ?_, nofun⟩ hjob
    (iff_of_true herror nofun) nofun (Nat.zero_lt_succ _) (fun _ => rfl) (Or.inl ⟨rfl, rfl⟩) hpos
  · rw [hgiven]
    rfl
  · rw [hgiven, hlength]
  · rw [hgiven]
    exact List.prefix_rfl
  · show Adler32.empty = Adler32.empty.addBytes (u.window.toList.drop windowSize)
    rw [List.drop_eq_nil_of_le (Nat.le_of_eq hlength)]
    rfl
  · rw [List.length_nil, Nat.zero_add]
    exact hleft

/-- Steps make progress by the bytes that they feed. -/
theorem progress_unpackAll (steps : List FeedStep) {l : Loader (Simulator capacity)}
    (h : Progress f (fedBytes steps) l.unpacker l.job l.device) :
    Progress f [] (l.unpackAll steps).unpacker (l.unpackAll steps).job
      (l.unpackAll steps).device := by
  induction steps generalizing l with
  | nil => exact h
  | cons step steps ih =>
      refine ih ?_
      cases step with
      | piece bytes => exact Progress.unpack h
      | eraseAhead => exact Progress.eraseAhead h

/-- A loader without faults opens a job for a stream, and all of it is fed. -/
theorem progress_fed (l : Loader (Simulator capacity)) (hfaults : l.device.faults = {})
    (hseed : f.seed = l.unpacker.window.toList) {packed : List UInt8}
    (hreaches : (l.unpacker.window.expansion packed).Reaches f.last) {packedSize : UInt32}
    (hleft : packedSize.toNat = packed.length + f.extra) (hpos : 0 < packed.length + f.extra)
    (hjob : f.keeps [] (.fresh f.size f.offset)
      { l.device.record .unlock with status := unprotected l.device.status })
    {steps : List FeedStep} (hsteps : fedBytes steps = packed) :
    let fed := (l.startPacked f.size packedSize f.offset).2.unpackAll steps
    Progress f [] fed.unpacker fed.job fed.device := by
  refine progress_unpackAll steps ?_
  rw [l.startPacked_ok hfaults, hsteps]
  exact progress_start hseed hreaches hleft hpos hjob rfl

/-- Any stream can be fed to a loader without faults, and more of it may have been announced. -/
theorem Loader.progress_feedOf (l : Loader (Simulator capacity)) (hfaults : l.device.faults = {})
    (e : StreamEnd) (offset : UInt32) {packed : List UInt8}
    (hreaches : (l.unpacker.window.expansion packed).Reaches e.last) {packedSize : UInt32}
    (hleft : packedSize.toNat = packed.length + e.extra) (hpos : 0 < packed.length + e.extra)
    {steps : List FeedStep} (hsteps : fedBytes steps = packed) :
    let fed := (l.startPacked e.size packedSize offset).2.unpackAll steps
    Progress (l.feedOf e offset) [] fed.unpacker fed.job fed.device :=
  progress_fed (f := l.feedOf e offset) l hfaults rfl hreaches hleft hpos
    (Loader.aimed_opened offset e.size hfaults) hsteps

/-- The stream is that of the image, and nothing stands behind it. -/
def StreamEnd.Good (e : StreamEnd) : Prop :=
  e.Right ∧ e.output.length = e.size.toNat ∧ e.last.input = []

/-- A stream that fails is not good. -/
theorem StreamEnd.Fails.not_good {e : StreamEnd} (h : e.Fails) : ¬e.Good := by
  rintro ⟨hright, hlength, -⟩
  rcases h with hrejected | hless
  · exact hrejected.not_right hright
  · omega

/-- Once all that was announced of a stream was fed, the job has what the stream puts out of the
    image, and it keeps an error unless that was all on the device and the stream was good. -/
theorem Progress.outcome {u : Unpacker} {j : Job} {s : Simulator capacity}
    (h : Progress f [] u j s) (hextra : f.extra = 0) :
    ∃ w, f.keeps w j s ∧ Windowed w ∧ sent w = f.image ∧
      (j.error = none ↔ f.InRange w ∧ f.Good) := by
  cases h with
  | midway _ _ _ _ _ _ _ hmore =>
      rw [hextra] at hmore
      exact absurd hmore (Nat.lt_irrefl 0)
  | complete hphase hright hinput hjob hwindowed hsent herror =>
      rw [List.append_nil] at hinput
      refine ⟨_, hjob, hwindowed, hsent, herror.trans ?_⟩
      rw [StreamEnd.Good, hinput]
      exact and_congr_right fun _ => (and_iff_right hright).symm
  | failed hfails hquiet hjob hwindowed hsent herror =>
      exact ⟨_, hjob, hwindowed, hsent, iff_of_false herror fun h => hfails.not_good h.2⟩

/-- Where a stream breaks off although more of it is announced, and has put out no more than the image
    takes, the job got all full windows of the output, and the rest is held. -/
theorem Progress.of_hungry {u : Unpacker} {j : Job} {s : Simulator capacity}
    (h : Progress f [] u j s) (hungry : f.last.Hungry) (hmore : 0 < f.extra)
    (hlength : f.output.length ≤ f.size.toNat) :
    ∃ w, f.keeps w j s ∧ (j.error = none ↔ f.InRange w) ∧ windowSize ∣ delivered w ∧
      u.held < windowSize ∧ delivered w + u.held = f.output.length ∧
      u.packedLeft.toNat = f.extra ∧ u.phase ≠ .complete := by
  cases h with
  | complete _ hright => exact absurd hright (hungry.not_finished _)
  | failed hfails =>
      -- nothing but the missing rest is wrong with the stream
      rcases hfails with (⟨_, hbroken⟩ | ⟨_, hfinished, -⟩ | ⟨-, hextra⟩) | hless
      · exact absurd hbroken (hungry.not_broken _)
      · exact absurd hfinished (hungry.not_finished _)
      · exact absurd hextra (Nat.ne_of_gt hmore)
      · exact absurd hlength (Nat.not_le.mpr hless)
  | midway hat hjob herror hfull hroom _ hwants _ =>
      rename_i x w _ _
      obtain rfl := hat.reaches.eq_of_end (hwants.next? hat.input)
      have hplace := hat.length
      have hleft := hat.left
      rw [List.length_append, length_sent, f.seeded] at hplace
      refine ⟨w, hjob, herror, dvd_delivered hfull, hroom, ?_, ?_, hat.phase⟩
      · rw [StreamEnd.output, List.length_drop, hplace]
        omega
      · rw [hleft, List.length_nil, Nat.zero_add]

/-- Once all that was announced of a stream was fed, the job closes with success if the stream was
    good and its windows lie on the device. -/
theorem Progress.finish_ok_iff {u : Unpacker} {j : Job} {s : Simulator capacity}
    (h : Progress f [] u j s) (hextra : f.extra = 0) :
    j.finish.1 = .ok () ↔ f.Good ∧ WindowsWithin capacity f.offset.toNat f.size.toNat := by
  obtain ⟨w, hjob, hwindowed, hsent, herror⟩ := h.outcome hextra
  have haimed := f.aimed hjob
  have hin : f.InRange w ↔ WindowsWithin capacity f.offset.toNat (sent w).length :=
    hwindowed.within_iff _ _
  -- a good stream puts out all of the image
  have hlength : f.Good → f.image.length = f.size.toNat := by
    rintro ⟨-, hlength, -⟩
    rw [Feed.image, List.length_take, hlength, Nat.min_self]
  rw [Job.finish_ok_iff, and_iff_right haimed.active, herror, hin, hsent]
  constructor
  · rintro ⟨-, hinside, hgood⟩
    exact ⟨hgood, hlength hgood ▸ hinside⟩
  · rintro ⟨hgood, hinside⟩
    refine ⟨UInt32.toNat_inj.mp ?_, (hlength hgood).symm ▸ hinside, hgood⟩
    have hsum := haimed.remaining
    rw [← length_sent, hsent, hlength hgood] at hsum
    exact Nat.add_eq_left.mp hsum

/-- A loader without faults is fed a stream of `n` bytes that breaks off, with more of it announced and
    with room for the output in the image: full windows of the output are written and the rest is held. -/
theorem Loader.fed_breakingOff (l : Loader (Simulator capacity)) (hfaults : l.device.faults = {})
    {n : Nat} {size packedSize offset : UInt32} (hn : n ≤ size.toNat)
    (hinside : offset.toNat + n ≤ capacity) (hmore : (breakingOff n).length < packedSize.toNat)
    {steps : List FeedStep} (hsteps : fedBytes steps = breakingOff n) :
    let fed := (l.startPacked size packedSize offset).2.unpackAll steps
    fed.job.active = true ∧ fed.job.error = none ∧ fed.unpacker.phase ≠ .complete ∧
      fed.unpacker.held = n % windowSize ∧
      windowSize * (n / windowSize) + fed.job.remaining.toNat = size.toNat ∧
      fed.unpacker.packedLeft.toNat = packedSize.toNat - (breakingOff n).length := by
  intro fed
  obtain ⟨y, hreaches, hungry, hinput, hlength⟩ := breakingOff_ends n
  let window := l.unpacker.window
  have hungry' : (y.framed window.toList []).Hungry := hungry
  let e : StreamEnd :=
    { last := y.framed window.toList []
      extra := packedSize.toNat - (breakingOff n).length
      size := size
      ends := hungry'.next? (by show y.input ++ [] = []; rw [hinput, List.append_nil]) }
  have hextra : 0 < e.extra := Nat.sub_pos_of_lt hmore
  have houtput : e.output.length = n := by
    rw [← hlength]
    exact congrArg List.length (List.drop_left' Vector.length_toList)
  have hsum : packedSize.toNat = (breakingOff n).length + e.extra :=
    (Nat.add_sub_cancel' (Nat.le_of_lt hmore)).symm
  have hfed : Progress (l.feedOf e offset) [] fed.unpacker fed.job fed.device :=
    l.progress_feedOf hfaults e offset (hreaches.behind window) hsum (Nat.add_pos_right _ hextra)
      hsteps
  obtain ⟨w, hjob, herror, ⟨windows, hdelivered⟩, hroom, hheld, hleft, hphase⟩ :=
    hfed.of_hungry hungry' hextra (houtput.trans_le hn)
  have haimed : fed.job.Aimed offset size l.device.calls.size w fed.device := hjob
  have hheld : delivered w + fed.unpacker.held = n := hheld.trans houtput
  have hremaining := haimed.remaining
  rw [hdelivered] at hheld hremaining
  -- what was delivered is a number of windows, and what is held is less than one
  have hsize : 0 < windowSize := by decide
  have hdiv : n / windowSize = windows := by
    rw [← hheld, Nat.mul_add_div hsize, Nat.div_eq_of_lt hroom, Nat.add_zero]
  have hmod : n % windowSize = fed.unpacker.held := by
    rw [← hheld, Nat.mul_add_mod, Nat.mod_eq_of_lt hroom]
  refine ⟨haimed.active, herror.mpr (Job.within_placements ?_), hphase, hmod.symm, ?_, hleft⟩
  · rw [hdelivered]
    exact Nat.le_trans (Nat.add_le_add_left (Nat.le_of_add_right_le (Nat.le_of_eq hheld)) _) hinside
  · rw [hdiv]
    exact hremaining

end Progress
end NorLoader
