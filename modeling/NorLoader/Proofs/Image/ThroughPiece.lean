import NorLoader.Proofs.Deflate.Consumption
import NorLoader.Proofs.Image.Announced
import NorLoader.Proofs.Image.ClosedJob

/-!
# Through a piece of a stream

A piece is read as far as it goes (`Unpacker.readThrough`), and then it is settled what is kept of
that.  Reading alone takes the phase from the start of a stream to the reading of it and no further
(`Unpacker.phase_readThrough`); it is settling that ends the stream.  A stream that was rejected for
good is rejected again by any further piece, and nothing of it is written
(`Unpacker.readThrough_of_failed`).
-/

namespace NorLoader

/-! ## One read -/

namespace Unpacker

section Contract

variable {ρ : Type} [StreamReader ρ] [LawfulStreamReader ρ]

/-- A read takes no more than there is of the piece. -/
theorem consumed_readOnce_le (u : Unpacker ρ) (piece : List UInt8) :
    (u.readOnce piece).2.1 ≤ piece.length := LawfulStreamReader.consumed_read_le ..

/-- What a read does not take of a piece was announced and still is, or was never announced. -/
theorem packedLeft_readOnce (u : Unpacker ρ) (piece : List UInt8) :
    u.packedLeft.toNat + (piece.drop (u.readOnce piece).2.1).length
      ≤ (u.readOnce piece).2.2.packedLeft.toNat + piece.length := by
  have hle := u.consumed_readOnce_le piece
  have hleft : (u.readOnce piece).2.2.packedLeft
      = satSub u.packedLeft (UInt32.ofNat (u.readOnce piece).2.1) := rfl
  -- the count that is subtracted may be cut off, but it is never too large
  have hcount : (UInt32.ofNat (u.readOnce piece).2.1).toNat ≤ (u.readOnce piece).2.1 := by
    rw [UInt32.toNat_ofNat']
    exact Nat.mod_le _ _
  rw [hleft, toNat_satSub, List.length_drop]
  omega

end Contract

variable {u : Unpacker} {piece : List UInt8}

/-- A read rejects a stream for good, or because it breaks off where no more was announced. -/
theorem readOnce_rejects (h : (u.readOnce piece).1.rejects = true) :
    (u.readOnce piece).2.2.reader.Failed ∨ u.packedLeft.toNat ≤ piece.length := by
  rcases ZlibReader.failed_or_announced h with hfailed | hmore
  · exact Or.inl hfailed
  · exact Or.inr (Nat.le_of_not_lt (of_decide_eq_false hmore))

/-- A reader that failed rejects the piece. -/
theorem rejects_readOnce (h : (u.readOnce piece).2.2.reader.Failed) :
    (u.readOnce piece).1.rejects = true := ZlibReader.rejects_of_failed h

/-- A stream that was rejected for good is rejected again. -/
theorem readOnce_of_failed (h : u.reader.Failed) (piece : List UInt8) :
    ∃ status : ReadStatus, status.rejects = true ∧ u.readOnce piece = (status, 0, u) := by
  obtain ⟨status, hrejects, hread⟩ : ∃ status : ReadStatus, status.rejects = true ∧
      StreamReader.read u.reader piece u.window u.held (u.packedLeft.toNat > piece.length)
        = ⟨status, u.reader, u.window, u.held, 0⟩ := h.read ..
  refine ⟨status, hrejects, ?_⟩
  have hzero : satSub u.packedLeft (UInt32.ofNat 0) = u.packedLeft := by
    refine UInt32.toNat_inj.mp ?_
    rw [toNat_satSub]
    rfl
  rw [readOnce_eq, hread]
  simp only [hzero]

/-- The first read of a stream takes some of its piece. -/
theorem readOnce_of_start (h : u.reader = .start) (hpiece : piece ≠ []) :
    0 < (u.readOnce piece).2.1 := by
  rw [readOnce_eq, h]
  exact ZlibReader.consumed_start_pos hpiece

end Unpacker

namespace Unpacking

/-! ## Through a piece -/

section Loops

variable {δ ρ : Type} [StreamReader ρ] [FlashDevice δ]

/-- A cycle whose read takes something is reading. -/
theorem phase_cycle (k : Unpacking δ ρ) : k.cycle.unpacker.phase
    = if (k.unpacker.readOnce k.rest).2.1 > 0 then .reading else k.unpacker.phase := by
  have hread := congrArg (fun u => u.phase) k.unpacker_afterRead
  rw [cycle_eq]
  split <;> exact hread

/-- A cycle ends as its read does. -/
theorem status_cycle (k : Unpacking δ ρ) : k.cycle.status = (k.unpacker.readOnce k.rest).1 := by
  rw [cycle_eq]
  split <;> rfl

/-- A cycle leaves announced what its read does. -/
theorem packedLeft_cycle (k : Unpacking δ ρ) :
    k.cycle.unpacker.packedLeft = (k.unpacker.readOnce k.rest).2.2.packedLeft := by
  have hread := congrArg (fun u => u.packedLeft) k.unpacker_afterRead
  rw [cycle_eq]
  split <;> exact hread

/-- A cycle leaves the reader that its read does. -/
theorem reader_cycle (k : Unpacking δ ρ) :
    k.cycle.unpacker.reader = (k.unpacker.readOnce k.rest).2.2.reader := by
  have hread := congrArg (fun u => u.reader) k.unpacker_afterRead
  rw [cycle_eq]
  split <;> exact hread

/-- A cycle leaves of the piece what its read does not take. -/
theorem rest_cycle (k : Unpacking δ ρ) :
    k.cycle.rest = k.rest.drop (k.unpacker.readOnce k.rest).2.1 := by
  rw [cycle_eq]
  split <;> rfl

omit [FlashDevice δ] in
/-- A piece with bytes can be gone on with. -/
theorem canGoOn_piece (u : Unpacker ρ) (j : Job) (d : δ) {piece : List UInt8} (h : piece ≠ []) :
    (⟨u, j, d, piece, .needsInput, false⟩ : Unpacking δ ρ).canGoOn = true := by
  simp [canGoOn, ReadStatus.goesOn, h]

omit [FlashDevice δ] in
/-- Reading on after the image takes what the read takes. -/
theorem rest_readTrailing {k : Unpacking δ ρ} (hgo : k.canGoOn = true) (hzero : k.job.remaining = 0) :
    k.readTrailing.rest = k.rest.drop (k.unpacker.readOnce k.rest).2.1 := by
  have hboth : (k.canGoOn && decide (k.job.remaining = 0)) = true := by
    rw [hgo, hzero]
    rfl
  rw [readTrailing, if_pos hboth]
  exact apply_ite Unpacking.rest _ _ _ |>.trans (ite_self _)

omit [FlashDevice δ] in
/-- The phase is that of the image. -/
theorem phase_readTrailing (k : Unpacking δ ρ) :
    k.readTrailing.unpacker.phase = k.unpacker.phase := by
  simp only [readTrailing]
  split
  · split <;> rfl
  · rfl

omit [FlashDevice δ] in
/-- What is left of a piece is no more than there was. -/
theorem length_rest_readTrailing_le (k : Unpacking δ ρ) :
    k.readTrailing.rest.length ≤ k.rest.length := by
  have hdrop (n : Nat) : (k.rest.drop n).length ≤ k.rest.length := by
    rw [List.length_drop]
    exact Nat.sub_le _ _
  simp only [readTrailing]
  split
  · split <;> exact hdrop _
  · exact Nat.le_refl _

omit [FlashDevice δ] in
/-- Which phase a piece leaves a stream in. -/
theorem phase_settle (k : Unpacking δ ρ) :
    (k.status.rejects = true ∧ k.settle.1.phase = .rejected) ∨
      k.status.rejects = false ∧
        (k.settle.1.phase = .complete ∨ k.settle.1.phase = k.unpacker.phase) := by
  cases hrejects : k.status.rejects with
  | true =>
      have hdone : k.status ≠ .done := by
        intro hdone
        exact nomatch hdone ▸ hrejects
      exact Or.inl ⟨rfl, by simp [settle, hdone, hrejects]⟩
  | false =>
      refine Or.inr ⟨rfl, ?_⟩
      by_cases hdone : k.status = .done
      · exact Or.inl (by simp [settle, hdone])
      · exact Or.inr (by simp [settle, hdone, hrejects])

omit [FlashDevice δ] in
/-- A stream that was begun settles on another phase than waiting. -/
theorem phase_settle_ne_waiting {k : Unpacking δ ρ} (h : k.unpacker.phase ≠ .waiting) :
    k.settle.1.phase ≠ .waiting := by
  rcases k.phase_settle with ⟨-, hend⟩ | ⟨-, hend | hend⟩ <;> rw [hend]
  · exact nofun
  · exact nofun
  · exact h

end Loops

variable {δ : Type} [FlashDevice δ]

/-- What comes of reading on in a stream that was rejected for good: another rejection, and at most
    an erase. -/
def Rejected (k k' : Unpacking δ) : Prop :=
  k'.status.rejects = true ∧ k'.unpacker = k.unpacker ∧ k'.job.remaining = k.job.remaining ∧
    OnlyErased k.device k'.device

/-- A cycle of a reader that failed moves nothing but erases. -/
theorem rejected_cycle {k : Unpacking δ} (hfailed : k.unpacker.reader.Failed)
    (hheld : k.unpacker.held = 0) : Rejected k k.cycle := by
  obtain ⟨status, hrejects, hread⟩ := Unpacker.readOnce_of_failed hfailed k.rest
  let ahead := k.job.eraseAhead k.device
  let after : Unpacking δ :=
    ⟨k.unpacker, ahead.2.1, ahead.2.2, k.rest.drop 0, status, k.excess⟩
  have hafter : k.afterRead = after := by
    simp only [afterRead, hread]
    rfl
  have hover : k.cycle = after.handOver := by
    rw [cycle_eq, hafter, if_pos]
    simp [handsOver, after, ReadStatus.stops_of_rejects hrejects]
  -- nothing is held, so nothing is written
  have hnone : ahead.2.1.accepted (k.unpacker.window.toList.take k.unpacker.held) = [] := by
    rw [hheld, List.take_zero, Job.accepted, List.take_nil]
  have hwrite := Job.write_of_accepted_nil _ .plain _ ahead.2.2 hnone
  have hsame : { k.unpacker with held := 0 } = k.unpacker := by
    rw [← hheld]
  have herase : Job.ErasingKeeps (OnlyErased k.device) := ⟨.poll, .issue⟩
  have hdevice : after.handOver.device = ahead.2.2 := congrArg Prod.snd hwrite
  rw [hover]
  refine ⟨hrejects, hsame, congrArg (fun written => written.1.remaining) hwrite, ?_⟩
  rw [hdevice]
  exact herase.eraseAhead .refl k.job

/-- Nor does the read after the image. -/
theorem rejected_readTrailing {k : Unpacking δ} (hgo : k.canGoOn = true)
    (hzero : k.job.remaining = 0) (hfailed : k.unpacker.reader.Failed) :
    Rejected k k.readTrailing := by
  obtain ⟨status, hrejects, hread⟩ := Unpacker.readOnce_of_failed hfailed k.rest
  have hboth : (k.canGoOn && decide (k.job.remaining = 0)) = true := by
    rw [hgo, hzero]
    rfl
  rw [readTrailing, if_pos hboth]
  simp only [hread, gt_iff_lt, Nat.lt_irrefl, if_false]
  exact ⟨hrejects, rfl, rfl, .refl⟩

/-- How a piece goes on with `fed` bytes fed, those of the piece included. -/
structure Sound (packedSize : UInt32) (fed : Nat) (k : Unpacking δ) : Prop where
  announced : packedSize.toNat + k.rest.length ≤ fed + k.unpacker.packedLeft.toNat
  /-- Of a stream that is rejected for good nothing is left to hand over. -/
  handed : k.unpacker.reader.Failed → k.job.remaining ≠ 0 → k.unpacker.held = 0
  rejected : k.status.rejects = true → k.unpacker.reader.Failed ∨ packedSize.toNat ≤ fed

namespace Sound

variable {packedSize : UInt32} {fed : Nat} {k : Unpacking δ}

omit [FlashDevice δ] in
/-- What a read does to the bytes that are announced, and why it rejects a stream. -/
theorem readOnce (h : k.Sound packedSize fed) :
    let read := k.unpacker.readOnce k.rest
    packedSize.toNat + (k.rest.drop read.2.1).length ≤ fed + read.2.2.packedLeft.toNat ∧
      (read.1.rejects = true → read.2.2.reader.Failed ∨ packedSize.toNat ≤ fed) := by
  have hannounced := h.announced
  have hleft := k.unpacker.packedLeft_readOnce k.rest
  refine ⟨by omega, ?_⟩
  intro hrejects
  refine (Unpacker.readOnce_rejects hrejects).imp_right ?_
  intro hle
  omega

/-- A cycle is as sound as what it began with. -/
theorem cycle (h : k.Sound packedSize fed) : k.cycle.Sound packedSize fed := by
  obtain ⟨hannounced, hrejected⟩ := h.readOnce
  have hread : k.afterRead.unpacker.reader = (k.unpacker.readOnce k.rest).2.2.reader := by
    rw [k.unpacker_afterRead]
  have hleft : k.afterRead.unpacker.packedLeft = (k.unpacker.readOnce k.rest).2.2.packedLeft := by
    rw [k.unpacker_afterRead]
  rw [← hleft] at hannounced
  rw [← hread] at hrejected
  rw [cycle_eq]
  split
  · exact ⟨hannounced, fun _ _ => rfl, hrejected⟩
  · -- output is kept only while the reader can go on
    rename_i hkept
    refine ⟨hannounced, ?_, hrejected⟩
    intro hfailed
    have hrejects : k.afterRead.status.rejects = true := Unpacker.rejects_readOnce (hread ▸ hfailed)
    simp [handsOver, ReadStatus.stops_of_rejects hrejects] at hkept

omit [FlashDevice δ] in
/-- So is the read after the image. -/
theorem readTrailing (h : k.Sound packedSize fed) : k.readTrailing.Sound packedSize fed := by
  obtain ⟨hannounced, hrejected⟩ := h.readOnce
  simp only [Unpacking.readTrailing]
  split
  · rename_i hgo
    rw [Bool.and_eq_true, decide_eq_true_iff] at hgo
    split <;> exact ⟨hannounced, fun _ hremaining => absurd hgo.2 hremaining, hrejected⟩
  · exact h

end Sound
end Unpacking

namespace Unpacker

section Pieces

variable {δ ρ : Type} [StreamReader ρ] [FlashDevice δ] {u : Unpacker ρ} {j : Job} {d : δ}
  {piece : List UInt8}

/-- A piece that was read as far as it goes. -/
def readThrough (u : Unpacker ρ) (j : Job) (piece : List UInt8) (d : δ) : Unpacking δ ρ :=
  (Unpacking.cycleUpTo (j.remaining.toNat / windowSize + 2)
    ⟨u, j, d, piece, .needsInput, false⟩).readTrailing

/-- A piece is read as far as it goes, and then it is settled. -/
theorem unpack_eq (hphase : u.phase ≠ .complete) :
    u.unpack j piece d = (u.readThrough j piece d).settle := by
  simp only [unpack, if_neg hphase]
  rfl

/-- How many bytes of a piece are taken. -/
def taken (u : Unpacker ρ) (j : Job) (piece : List UInt8) (d : δ) : Nat :=
  if u.phase = .complete then 0 else piece.length - (u.readThrough j piece d).rest.length

/-- Without bytes there is nothing to read. -/
theorem readThrough_nil (u : Unpacker ρ) (j : Job) (d : δ) :
    u.readThrough j [] d = ⟨u, j, d, [], .needsInput, false⟩ := by
  rw [readThrough, Unpacking.cycleUpTo_of_stop _ (Or.inl rfl), Unpacking.readTrailing_of_stop rfl]

/-- A piece without bytes is not read, nor is any once the stream is complete; at most an error is
    kept then. -/
theorem unpack_unread (h : u.phase = .complete ∨ piece = []) : u.taken j piece d = 0 ∧
    ∃ j' : Job, u.unpack j piece d = (u, j', d) ∧ j'.remaining = j.remaining := by
  by_cases hcomplete : u.phase = .complete
  · refine ⟨if_pos hcomplete, if piece.isEmpty then j else j.note .excessData, if_pos hcomplete, ?_⟩
    split
    · rfl
    · exact Job.remaining_note _ _
  · obtain rfl := h.resolve_left hcomplete
    refine ⟨?_, _, unpack_nil u j d, ?_⟩
    · rw [taken, if_neg hcomplete, readThrough_nil]
      rfl
    · split
      · exact Job.remaining_note _ _
      · rfl

/-- If the image is complete there is only the trailing read. -/
theorem readThrough_of_complete (h : j.remaining = 0) :
    u.readThrough j piece d = (⟨u, j, d, piece, .needsInput, false⟩ : Unpacking δ ρ).readTrailing := by
  rw [readThrough, Unpacking.cycleUpTo_of_stop _ (Or.inr h)]

/-- Nothing is written after the image. -/
theorem job_readThrough_of_complete (h : j.remaining = 0) : (u.readThrough j piece d).job = j := by
  rw [readThrough_of_complete h]
  exact (Unpacking.readTrailing_job _).1

/-- If the image is incomplete a piece begins with a cycle. -/
theorem readThrough_of_incomplete (h : j.remaining ≠ 0) (hpiece : piece ≠ []) :
    u.readThrough j piece d = (Unpacking.cycleUpTo (j.remaining.toNat / windowSize + 1)
      (⟨u, j, d, piece, .needsInput, false⟩ : Unpacking δ ρ).cycle).readTrailing := by
  have hboth : ((⟨u, j, d, piece, .needsInput, false⟩ : Unpacking δ ρ).canGoOn &&
      decide (j.remaining > 0)) = true := by
    rw [Unpacking.canGoOn_piece u j d hpiece, decide_eq_true (UInt32.pos_iff_ne_zero.mpr h)]
    rfl
  rw [readThrough, Unpacking.cycleUpTo, if_pos hboth]

/-- If the image is incomplete and the reader does not go on after its first read, there is one cycle. -/
theorem readThrough_of_stop (h : j.remaining ≠ 0) (hpiece : piece ≠ [])
    (hstop : (u.readOnce piece).1.goesOn = false) :
    u.readThrough j piece d = (⟨u, j, d, piece, .needsInput, false⟩ : Unpacking δ ρ).cycle := by
  let k : Unpacking δ ρ := ⟨u, j, d, piece, .needsInput, false⟩
  have hend : k.cycle.canGoOn = false := by
    rw [Unpacking.canGoOn, k.status_cycle, hstop, Bool.false_and]
  rw [readThrough_of_incomplete h hpiece, Unpacking.cycleUpTo_of_stop _ (Or.inl hend),
    Unpacking.readTrailing_of_stop hend]

end Pieces

variable {δ : Type} [FlashDevice δ] {u : Unpacker} {j : Job} {d : δ} {piece : List UInt8}

/-- Reading a piece is sound. -/
theorem sound_readThrough {packedSize : UInt32} {fed : Nat}
    (hannounced : packedSize.toNat ≤ fed + u.packedLeft.toNat)
    (hhanded : u.reader.Failed → j.remaining ≠ 0 → u.held = 0) :
    (u.readThrough j piece d).Sound packedSize (fed + piece.length) := by
  have hstart : (⟨u, j, d, piece, .needsInput, false⟩ : Unpacking δ).Sound packedSize
      (fed + piece.length) := by
    refine ⟨?_, hhanded, nofun⟩
    show packedSize.toNat + piece.length ≤ fed + piece.length + u.packedLeft.toNat
    omega
  exact (Unpacking.cycleUpTo_induct (P := fun k => k.Sound packedSize (fed + piece.length))
    Unpacking.Sound.cycle _ hstart).readTrailing

/-- A piece leaves the phase as it is, or it is being read; and it is read only for an image that is
    incomplete. -/
theorem phase_readThrough (u : Unpacker) (j : Job) (piece : List UInt8) (d : δ) :
    (u.readThrough j piece d).unpacker.phase = u.phase ∨
      j.remaining ≠ 0 ∧ (u.readThrough j piece d).unpacker.phase = .reading := by
  by_cases hremaining : j.remaining = 0
  · rw [readThrough_of_complete hremaining, Unpacking.phase_readTrailing]
    exact Or.inl rfl
  · have hkept := Unpacking.cycleUpTo_induct
      (P := fun k : Unpacking δ => k.unpacker.phase = u.phase ∨ k.unpacker.phase = .reading)
      (by
        intro k hk
        rw [k.phase_cycle]
        split
        · exact Or.inr rfl
        · exact hk)
      (j.remaining.toNat / windowSize + 2) (k := ⟨u, j, d, piece, .needsInput, false⟩)
      (Or.inl rfl)
    rw [readThrough, Unpacking.phase_readTrailing]
    exact hkept.imp_right fun hreading => ⟨hremaining, hreading⟩

/-- A stream that was begun is not waiting again. -/
theorem phase_readThrough_ne_waiting (h : u.phase ≠ .waiting) :
    (u.readThrough j piece d).unpacker.phase ≠ .waiting := by
  rcases u.phase_readThrough j piece d with hsame | ⟨-, hreading⟩
  · rw [hsame]
    exact h
  · rw [hreading]
    exact nofun

/-- A stream that was begun stays begun. -/
theorem phase_unpack_ne_waiting (h : u.phase ≠ .waiting) :
    (u.unpack j piece d).1.phase ≠ .waiting := by
  by_cases hcomplete : u.phase = .complete
  · rw [unpack, if_pos hcomplete]
    exact h
  · rw [unpack_eq hcomplete]
    exact Unpacking.phase_settle_ne_waiting (phase_readThrough_ne_waiting h)

/-- The first piece of a stream with any bytes is begun, and is being read unless the image has no
    bytes. -/
theorem readThrough_of_start (hstart : u.reader = .start) (hpiece : piece ≠ []) :
    (u.readThrough j piece d).rest.length < piece.length ∧
      (j.remaining ≠ 0 → (u.readThrough j piece d).unpacker.phase = .reading) := by
  have htaken := readOnce_of_start hstart hpiece
  have hless : (piece.drop (u.readOnce piece).2.1).length < piece.length := by
    have hpos := List.length_pos_iff.mpr hpiece
    rw [List.length_drop]
    omega
  by_cases hremaining : j.remaining = 0
  · refine ⟨?_, fun hleft => absurd hremaining hleft⟩
    rw [readThrough_of_complete hremaining,
      Unpacking.rest_readTrailing (Unpacking.canGoOn_piece u j d hpiece) hremaining]
    exact hless
  · -- the first cycle takes something, and no other cycle undoes that
    obtain ⟨hrest, hphase⟩ := Unpacking.cycleUpTo_induct
      (P := fun k : Unpacking δ => k.rest.length < piece.length ∧ k.unpacker.phase = .reading)
      (by
        rintro k ⟨hrest, hphase⟩
        rw [k.phase_cycle, k.rest_cycle, List.length_drop]
        refine ⟨Nat.lt_of_le_of_lt (Nat.sub_le _ _) hrest, ?_⟩
        split
        · rfl
        · exact hphase)
      (j.remaining.toNat / windowSize + 1)
      (k := (⟨u, j, d, piece, .needsInput, false⟩ : Unpacking δ).cycle)
      (by
        rw [Unpacking.phase_cycle, Unpacking.rest_cycle, if_pos htaken]
        exact ⟨hless, rfl⟩)
    rw [readThrough_of_incomplete hremaining hpiece, Unpacking.phase_readTrailing]
    exact ⟨Nat.lt_of_le_of_lt (Unpacking.length_rest_readTrailing_le _) hrest, fun _ => hphase⟩

/-- A stream that was rejected for good is rejected by every piece. -/
theorem readThrough_of_failed (hfailed : u.reader.Failed)
    (hheld : j.remaining ≠ 0 → u.held = 0) (hpiece : piece ≠ []) :
    Unpacking.Rejected ⟨u, j, d, piece, .needsInput, false⟩ (u.readThrough j piece d) := by
  have hgo := Unpacking.canGoOn_piece u j d hpiece
  by_cases hremaining : j.remaining = 0
  · rw [readThrough_of_complete hremaining]
    exact Unpacking.rejected_readTrailing hgo hremaining hfailed
  · -- there is one cycle, since the reader does not go on after it
    have hcycle := Unpacking.rejected_cycle (k := ⟨u, j, d, piece, .needsInput, false⟩) hfailed
      (hheld hremaining)
    have hstop : (u.readOnce piece).1.goesOn = false := by
      rw [← Unpacking.status_cycle ⟨u, j, d, piece, .needsInput, false⟩]
      exact ReadStatus.stops_of_rejects hcycle.1
    rw [readThrough_of_stop hremaining hpiece hstop]
    exact hcycle

/-- Settling a stream that was rejected for good changes nothing of it. -/
theorem unpack_of_failed (hphase : u.phase = .rejected) (hfailed : u.reader.Failed)
    (hheld : j.remaining ≠ 0 → u.held = 0) (hpiece : piece ≠ []) :
    (u.unpack j piece d).1 = u ∧ (u.unpack j piece d).2.1.remaining = j.remaining ∧
      OnlyErased d (u.unpack j piece d).2.2 := by
  have hgoing : u.phase ≠ .complete := by
    rw [hphase]
    exact nofun
  let k := u.readThrough j piece d
  obtain ⟨hrejects, hunpacker, hremaining, hdevice⟩ :
      Unpacking.Rejected ⟨u, j, d, piece, .needsInput, false⟩ k :=
    readThrough_of_failed hfailed hheld hpiece
  have hend : k.settle.1.phase = .rejected := by
    rcases k.phase_settle with ⟨-, hend⟩ | ⟨hgoes, -⟩
    · exact hend
    · cases hrejects.symm.trans hgoes
  have hsettle : k.settle.1 = { k.unpacker with phase := k.settle.1.phase } := rfl
  rw [unpack_eq hgoing]
  refine ⟨?_, k.remaining_settle.trans hremaining, hdevice⟩
  show k.settle.1 = u
  rw [hsettle, hend, hunpacker, ← hphase]

end Unpacker

end NorLoader
