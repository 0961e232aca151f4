import NorLoader.Image.Loader
import NorLoader.Proofs.Image.Feeding

/-!
# From piece to piece

What can come of feeding a part of a stream (`Progress`): the stream goes on, or it was found
complete, or it failed and is quiet from then on, so that no piece delivers anything
(`Quiet.unpack`).  Each piece leads from one of these to another, whatever it is and however long,
so after the last one they say what becomes of the stream as a whole.
-/

namespace NorLoader

namespace StreamEnd

/-- The stream is not that of the image: it is rejected, or it puts out too much. -/
def Fails (e : StreamEnd) : Prop := e.Rejected ∨ e.size.toNat < e.output.length

end StreamEnd

/-! ## After the end -/

/-- Nothing that is still to come of a stream is delivered: it is complete, the job takes nothing,
    there is nothing to come, or the decoder does not go on. -/
def Quiet (later : List UInt8) (u : Unpacker) (j : Job) : Prop :=
  u.phase = .complete ∨ j.remaining = 0 ∨ later = [] ∨ u.held = 0 ∧ u.reader.decoder.Stuck

/-- A decoder that does not go on leaves the unpacker where it is. -/
theorem Unpacker.readOnce_of_stuck {u : Unpacker} (h : u.reader.decoder.Stuck)
    (piece : List UInt8) : (u.readOnce piece).2.2.held = u.held ∧
      (u.readOnce piece).2.2.reader.decoder = u.reader.decoder := by
  rcases h with ⟨checksum, hd⟩ | ⟨overread, hd⟩
  · have hrun : (u.runOn piece).run = (.finished checksum, u.runOn piece) :=
      DecoderRun.run_halt (by simp only [DecoderRun.step, runOn, hd])
    have hrun' : DecoderRun.run ⟨u.reader.decoder, u.reader.bits, piece, u.window, u.held,
      u.reader.sum⟩ = (.finished checksum, u.runOn piece) := hrun
    simp only [Unpacker.readOnce, StreamReader.read, ZlibReader.read, hrun']
    exact ⟨rfl, rfl⟩
  · have hrun : (u.runOn piece).run = (.corrupt overread, u.runOn piece) :=
      DecoderRun.run_halt (by simp only [DecoderRun.step, runOn, hd])
    have hrun' : DecoderRun.run ⟨u.reader.decoder, u.reader.bits, piece, u.window, u.held,
      u.reader.sum⟩ = (.corrupt overread, u.runOn piece) := hrun
    simp only [Unpacker.readOnce, StreamReader.read, ZlibReader.read, hrun']
    exact ⟨rfl, rfl⟩

namespace Unpacking

variable {δ : Type} [FlashDevice δ] {P : List Delivery → Job → δ → Prop} {w : List Delivery}
  {k : Unpacking δ}

/-- Nothing is held, and the decoder does not go on. -/
def Halted (k : Unpacking δ) : Prop := k.unpacker.held = 0 ∧ k.unpacker.reader.decoder.Stuck

/-- A read does not get it going again. -/
theorem Halted.afterRead (h : k.Halted) : k.afterRead.Halted := by
  obtain ⟨hheld, hdecoder⟩ := Unpacker.readOnce_of_stuck h.2 k.rest
  have hstuck : (k.unpacker.readOnce k.rest).2.2.reader.decoder.Stuck := by
    rw [hdecoder]
    exact h.2
  rw [Halted, k.unpacker_afterRead]
  exact ⟨hheld.trans h.1, hstuck⟩

/-- Nor does a cycle. -/
theorem Halted.cycle (hupkeep : Job.Upkeep P) (h : k.Halted) (hp : P w k.job k.device) :
    k.cycle.Halted ∧ P w k.cycle.job k.cycle.device := by
  have hread := h.afterRead
  have hahead : P w k.afterRead.job k.afterRead.device := hupkeep.eraseAhead hp
  rw [cycle_eq]
  split
  · -- what is handed over is nothing
    have hnone : k.afterRead.unpacker.output = [] := by
      rw [Unpacker.output, hread.1, List.take_zero]
    have hover := hupkeep.handOver hahead
    rw [hnone, Job.deliveries, if_pos (by simp [Job.accepted]), List.append_nil] at hover
    exact ⟨⟨rfl, hread.2⟩, hover⟩
  · exact ⟨hread, hahead⟩

/-- Once halted an unpacking delivers nothing. -/
theorem Halted.cycleUpTo (hupkeep : Job.Upkeep P) (n : Nat) (h : k.Halted)
    (hp : P w k.job k.device) :
    (k.cycleUpTo n).Halted ∧ P w (k.cycleUpTo n).job (k.cycleUpTo n).device :=
  cycleUpTo_induct (P := fun k : Unpacking δ => k.Halted ∧ P w k.job k.device)
    (fun hboth => hboth.1.cycle hupkeep hboth.2) n ⟨h, hp⟩

omit [FlashDevice δ] in
/-- Nor does reading on after the image. -/
theorem Halted.readTrailing (h : k.Halted) : k.readTrailing.Halted := by
  obtain ⟨hheld, hdecoder⟩ := Unpacker.readOnce_of_stuck h.2 k.rest
  have hstuck : (k.unpacker.readOnce k.rest).2.2.reader.decoder.Stuck := by
    rw [hdecoder]
    exact h.2
  simp only [Unpacking.readTrailing]
  split
  · split
    · exact ⟨rfl, hstuck⟩
    · exact ⟨hheld.trans h.1, hstuck⟩
  · exact h

omit [FlashDevice δ] in
/-- What is settled is what is kept of the job. -/
theorem remaining_settle (k : Unpacking δ) : k.settle.2.1.remaining = k.job.remaining := by
  rcases k.settle_job with hj | ⟨e, hj⟩
  · rw [hj]
  · rw [hj]
    exact Job.remaining_note _ _

end Unpacking

/-- A stream that is quiet stays quiet, and the job gets nothing of it. -/
theorem Quiet.unpack {δ : Type} [FlashDevice δ] {P : List Delivery → Job → δ → Prop}
    (hupkeep : Job.Upkeep P) {piece later : List UInt8} {u : Unpacker} {j : Job} {d : δ}
    {w : List Delivery} (h : Quiet (piece ++ later) u j) (hp : P w j d) :
    Quiet later (u.unpack j piece d).1 (u.unpack j piece d).2.1 ∧
      P w (u.unpack j piece d).2.1 (u.unpack j piece d).2.2 := by
  by_cases hphase : u.phase = .complete
  · simp only [Unpacker.unpack, hphase, if_true]
    refine ⟨Or.inl hphase, ?_⟩
    split
    · exact hp
    · exact hupkeep.note _ hp
  · simp only [Unpacker.unpack, if_neg hphase]
    generalize j.remaining.toNat / windowSize + 2 = n
    have hsettle {k : Unpacking δ} (hk : P w k.job k.device) :
        P w k.readTrailing.settle.2.1 k.readTrailing.settle.2.2 := by
      refine hupkeep.settle ?_
      rw [k.readTrailing_job.1, k.readTrailing_job.2]
      exact hk
    rcases h with habs | hzero | hnone | hheld
    · exact absurd habs hphase
    · -- the job takes nothing, so there is no cycle
      rw [Unpacking.cycleUpTo_of_stop (k := ⟨u, j, d, piece, .needsInput, false⟩) n (Or.inr hzero)]
      refine ⟨Or.inr (Or.inl ?_), hsettle hp⟩
      rw [Unpacking.remaining_settle, (Unpacking.readTrailing_job _).1]
      exact hzero
    · obtain ⟨rfl, rfl⟩ := List.append_eq_nil_iff.mp hnone
      rw [Unpacking.cycleUpTo_of_stop (k := ⟨u, j, d, [], .needsInput, false⟩) n (Or.inl rfl)]
      exact ⟨Or.inr (Or.inr (Or.inl rfl)), hsettle hp⟩
    · obtain ⟨hhalted, hk⟩ := Unpacking.Halted.cycleUpTo hupkeep n
        (k := ⟨u, j, d, piece, .needsInput, false⟩) hheld hp
      exact ⟨Or.inr (Or.inr (Or.inr hhalted.readTrailing)), hsettle hk⟩

/-! ## Progress -/

/-- What can come of feeding all of a stream but `later`. -/
inductive Progress {capacity : Nat} (f : Feed capacity) (later : List UInt8) :
    Unpacker → Job → Simulator capacity → Prop where
  /-- The stream goes on, and its next byte is wanted. -/
  | midway {u j s x w} : u.At f.toStreamEnd x (f.seed ++ sent w) [] later → f.keeps w j s →
      (j.error = none ↔ f.InRange w) → (∀ v ∈ w, v.Full) → u.held < windowSize →
      (j.remaining = 0 → u.held = 0) → x.Hungry → 0 < later.length + f.extra →
      Progress f later u j s
  /-- The stream was complete, and `trail` came behind its end. -/
  | complete {u j s w trail} : u.phase = .complete → f.Right → f.last.input = trail ++ later →
      f.keeps w j s → Windowed w → sent w = f.image →
      (j.error = none ↔ f.InRange w ∧ f.output.length = f.size.toNat ∧ trail = []) →
      Progress f later u j s
  | failed {u j s w} : f.Fails → Quiet later u j → f.keeps w j s → Windowed w →
      sent w = f.image → j.error ≠ none → Progress f later u j s

namespace Unpacking

variable {capacity : Nat} {k : Unpacking (Simulator capacity)} {f : Feed capacity}
  {x : Expansion} {w : List Delivery} {later : List UInt8}

/-- A piece of a stream that goes on. -/
theorem between_start {u : Unpacker} {j : Job} {s : Simulator capacity} {piece : List UInt8}
    (hat : u.At f.toStreamEnd x (f.seed ++ NorLoader.sent w) [] (piece ++ later))
    (hjob : f.keeps w j s) (herror : j.error = none ↔ f.InRange w) (hfull : ∀ v ∈ w, v.Full)
    (hroom : u.held < windowSize) (hempty : j.remaining = 0 → u.held = 0) (hungry : x.Hungry)
    (hmore : 0 < (piece ++ later).length + f.extra) :
    Between ⟨u, j, s, piece, .needsInput, false⟩ f x w later := by
  refine ⟨⟨hat.toFollows, hat.reaches, hjob, herror, hfull, rfl⟩,
    { hat with input := hat.input, left := ?_ }, hroom, hempty, Or.inr ⟨rfl, ?_⟩⟩
  · have hleft := hat.left
    rw [List.length_nil, Nat.zero_add, List.length_append] at hleft
    exact hleft
  · intro hnil
    have hnil : piece = [] := hnil
    rw [hnil, List.nil_append] at hmore
    exact ⟨hungry, hmore⟩

/-- The bound on the cycles of a piece is never what ends them. -/
theorem enough_reads (remaining : Nat) :
    remaining < (remaining / windowSize + 2) * windowSize := by
  simp only [windowSize]
  omega

/-- Nothing is settled while the stream goes on. -/
theorem Between.settle (h : k.Between f x w later) (hstop : k.canGoOn = false) :
    k.settle = (k.unpacker, k.job, k.device) ∧ k.rest = [] ∧ x.Hungry ∧
      0 < later.length + f.extra := by
  rcases h.status with hwindow | ⟨hneeds, hwants⟩
  · simp [canGoOn, hwindow, ReadStatus.goesOn] at hstop
  · have hrest : k.rest = [] := by simpa [canGoOn, hneeds, ReadStatus.goesOn] using hstop
    obtain ⟨hungry, hmore⟩ := hwants hrest
    have hleft := h.place.left
    rw [hrest, List.length_nil, Nat.zero_add] at hleft
    have hannounced : k.unpacker.packedLeft ≠ 0 := by
      intro hzero
      rw [hzero] at hleft
      exact Nat.ne_of_lt hmore hleft
    refine ⟨?_, hrest, hungry, hmore⟩
    simp [Unpacking.settle, hneeds, h.excess, hannounced, ReadStatus.rejects, ReadStatus.goesOn]

/-- A complete stream is settled without an error of its own exactly if it puts out as many bytes as
    the image has and nothing stands behind it. -/
theorem error_settle_of_done (hstatus : k.status = .done) (hexcess : k.excess = true ↔
      f.size.toNat < f.output.length)
    (hremaining : (f.image).length + k.job.remaining.toNat = f.size.toNat) :
    k.settle.2.1.error = none ↔
      k.job.error = none ∧ f.output.length = f.size.toNat ∧ k.rest = [] := by
  have hshort : k.job.remaining > 0 ↔ f.output.length < f.size.toNat := by
    rw [Feed.image, List.length_take] at hremaining
    show (0 : UInt32) < k.job.remaining ↔ _
    rw [UInt32.lt_iff_toNat_lt]
    show 0 < k.job.remaining.toNat ↔ _
    omega
  by_cases hless : f.output.length < f.size.toNat
  · have hjob : k.settle.2.1 = k.job.note .shortData := by
      simp [Unpacking.settle, hstatus, ReadStatus.rejects, ReadStatus.goesOn, hshort.mpr hless]
    rw [hjob]
    exact iff_of_false (Job.error_note_ne_none _ _) (fun h => by omega)
  · have hall : ¬k.job.remaining > 0 := fun h => hless (hshort.mp h)
    by_cases hmore : k.excess = true ∨ k.rest ≠ []
    · have hjob : k.settle.2.1 = k.job.note .excessData := by
        have hnoted : (k.excess || !k.rest.isEmpty) = true := by simpa using hmore
        simp [Unpacking.settle, hstatus, ReadStatus.rejects, ReadStatus.goesOn, hall, hnoted]
      rw [hjob]
      refine iff_of_false (Job.error_note_ne_none _ _) ?_
      rintro ⟨-, hlength, hrest⟩
      rcases hmore with hmore | hmore
      · have := hexcess.mp hmore
        omega
      · exact hmore hrest
    · obtain ⟨hquiet, hrest⟩ := not_or.mp hmore
      have hrest : k.rest = [] := not_not.mp hrest
      have hjob : k.settle.2.1 = k.job := by
        simp [Unpacking.settle, hstatus, ReadStatus.rejects, ReadStatus.goesOn, hall, hquiet, hrest]
      have hlength : f.output.length = f.size.toNat := by
        have hfits : ¬f.size.toNat < f.output.length := fun h => hquiet (hexcess.mpr h)
        omega
      rw [hjob]
      exact ⟨fun herror => ⟨herror, hlength, hrest⟩, And.left⟩

/-- What follows from a verdict. -/
theorem Finishes.settle (h : k.Finishes f w later) :
    Progress f later k.settle.1 k.settle.2.1 k.settle.2.2 := by
  have hjob : f.keeps w k.settle.2.1 k.settle.2.2 := f.upkeep.settle h.job
  have hsettled := k.remaining_settle
  cases h.verdict with
  | complete hstatus hright hinput herror hexcess =>
      have hphase : k.settle.1.phase = .complete := by simp [Unpacking.settle, hstatus]
      have hspan := (f.aimed h.job).remaining
      rw [← length_sent, h.sent] at hspan
      refine .complete hphase hright hinput hjob h.windowed h.sent ?_
      rw [error_settle_of_done hstatus hexcess hspan, herror]
  | rejected hrejects hrejected hquiet =>
      have hnoted : k.settle.2.1 = k.job.note .corruptStream := by
        simp [Unpacking.settle, hrejects]
      refine .failed (Or.inl hrejected) (Or.inr (Or.inr hquiet)) hjob h.windowed h.sent ?_
      rw [hnoted]
      exact Job.error_note_ne_none _ _
  | excess hexcess hzero hless =>
      refine .failed (Or.inr hless) (Or.inr (Or.inl (hsettled.trans hzero))) hjob h.windowed h.sent
        ?_
      have hall : ¬k.job.remaining > 0 := by
        rw [hzero]
        exact UInt32.lt_irrefl 0
      simp only [Unpacking.settle, hexcess, hall, decide_false, Bool.and_false, Bool.true_or,
        Bool.false_eq_true, if_false, if_true]
      split
      · exact Job.error_note_ne_none _ _
      · exact Job.error_note_ne_none _ _

end Unpacking

namespace Progress

variable {capacity : Nat} {f : Feed capacity} {later : List UInt8} {u : Unpacker} {j : Job}
  {s : Simulator capacity}

/-- Erasing ahead is no progress. -/
theorem eraseAhead (h : Progress f later u j s) :
    Progress f later u (j.eraseAhead s).2.1 (j.eraseAhead s).2.2 := by
  cases h with
  | midway hat hjob herror hfull hroom hempty hungry hmore =>
      exact .midway hat (f.upkeep.eraseAhead hjob) herror hfull hroom hempty hungry hmore
  | complete hphase hright hinput hjob hwindowed hsent herror =>
      exact .complete hphase hright hinput (f.upkeep.eraseAhead hjob) hwindowed hsent herror
  | failed hfails hquiet hjob hwindowed hsent herror =>
      exact .failed hfails hquiet (f.upkeep.eraseAhead hjob) hwindowed hsent herror

/-- Feeding one more piece. -/
theorem unpack {piece : List UInt8} (h : Progress f (piece ++ later) u j s) :
    Progress f later (u.unpack j piece s).1 (u.unpack j piece s).2.1 (u.unpack j piece s).2.2 := by
  cases h with
  | complete hphase hright hinput hjob hwindowed hsent herror =>
      rename_i w trail
      simp only [Unpacker.unpack, hphase, if_true]
      rw [← List.append_assoc] at hinput
      cases piece with
      | nil =>
          rw [List.append_nil] at hinput
          exact .complete hphase hright hinput hjob hwindowed hsent herror
      | cons b piece =>
          -- whatever comes behind the end is more than there should be
          refine .complete hphase hright hinput (f.upkeep.note _ hjob) hwindowed hsent ?_
          exact iff_of_false (Job.error_note_ne_none _ _) (fun h => by simpa using h.2.2)
  | failed hfails hquiet hjob hwindowed hsent herror =>
      obtain ⟨hquiet', hjob', herror'⟩ :=
        hquiet.unpack (f.upkeep.and Job.error_upkeep) ⟨hjob, herror⟩
      exact .failed hfails hquiet' hjob' hwindowed hsent herror'
  | midway hat hjob herror hfull hroom hempty hungry hmore =>
      have hbetween :=
        Unpacking.between_start hat hjob herror hfull hroom hempty hungry hmore
      simp only [Unpacker.unpack, hat.phase, if_false]
      rcases hbetween.throughPiece (Unpacking.enough_reads j.remaining.toNat) with
        ⟨x', w', hread, hstop⟩ | ⟨w', hfinishes⟩
      · obtain ⟨hsettled, hrest, hungry, hmore⟩ := hread.settle hstop
        rw [hsettled]
        have hplace := hread.place
        rw [hrest] at hplace
        exact .midway hplace hread.job hread.error hread.full hread.room hread.empty hungry hmore
      · exact hfinishes.settle

end Progress
end NorLoader
