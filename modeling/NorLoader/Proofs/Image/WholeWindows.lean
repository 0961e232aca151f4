import NorLoader.Proofs.Image.Upkeep

/-!
# What was delivered of a stream that is not complete

Until its stream ends an unpacker hands over full windows only, and one that is more than the job
takes is kept as an error.  So as long as a job keeps no error and its stream is not complete, it
has got a whole number of windows (`WholeWindows`), whatever the stream holds and whatever becomes
of it on the device.
-/

namespace NorLoader

namespace Job

/-- The job got a whole number of windows of an image of some size. -/
def WholeWindows (size : UInt32) (j : Job) : Prop :=
  j.remaining.toNat % windowSize = size.toNat % windowSize

section Write

variable {δ : Type} [FlashDevice δ]

/-- A delivery takes its bytes off what the job expects. -/
theorem remaining_deliver (j : Job) (v : Delivery) (d : δ) :
    (j.deliver v d).1.remaining = j.remaining - UInt32.ofNat v.bytes.length := by
  simp only [deliver]
  split
  · rfl
  · simp only [past, note]
    split <;> rfl

/-- A write takes its bytes off what is to come, whatever becomes of them. -/
theorem remaining_write (j : Job) (storage : Storage) (data : List UInt8) (d : δ) :
    (j.write storage data d).1.remaining.toNat = j.remaining.toNat - data.length := by
  have hlength : (j.accepted data).length = min j.remaining.toNat data.length :=
    List.length_take
  by_cases ha : j.accepted data = []
  · rw [write_of_accepted_nil j storage data d ha]
    rw [ha, List.length_nil] at hlength
    show j.remaining.toNat = _
    omega
  · have hle := j.length_accepted_le data
    have hcount : (UInt32.ofNat (j.accepted data).length).toNat = (j.accepted data).length :=
      toNat_ofNat_of_le_remaining hle
    rw [write_of_accepted_ne j storage data d ha, remaining_deliver]
    show (j.remaining - UInt32.ofNat (j.accepted data).length).toNat = _
    rw [UInt32.toNat_sub_of_le _ _ (UInt32.le_iff_toNat_le.mpr (by omega)), hcount]
    omega

end Write
end Job

namespace Unpacking

variable {δ ρ : Type} [StreamReader ρ] [FlashDevice δ] {size : UInt32} {k : Unpacking δ ρ}

/-- If the stream goes on and all output fitted, then the job got whole windows. -/
def InWindows (size : UInt32) (k : Unpacking δ ρ) : Prop :=
  k.excess = true ∨ k.status.goesOn = false ∨ k.job.WholeWindows size

/-- Excess does not go away when output is handed over. -/
theorem handOver_excess (h : k.excess = true) : k.handOver.excess = true := by
  show (k.excess || decide (k.unpacker.held > k.job.remaining.toNat)) = true
  rw [h, Bool.true_or]

/-- Nor does it in a cycle. -/
theorem cycle_excess (h : k.excess = true) : k.cycle.excess = true := by
  have hread : k.afterRead.excess = true := h
  rw [cycle_eq]
  split
  · exact handOver_excess hread
  · exact hread

/-- Handing over a full window takes a window off the image, if there is as much left of it. -/
theorem remaining_handOver_full (hfull : k.unpacker.held = windowSize) :
    k.handOver.job.remaining.toNat = k.job.remaining.toNat - windowSize := by
  have hlength : k.unpacker.output.length = windowSize := by
    rw [Unpacker.output, List.length_take, hfull, Vector.length_toList, Nat.min_self]
  rw [← hlength]
  exact Job.remaining_write k.job .plain k.unpacker.output k.device

/-- Handing over a full window either exceeds the image or takes a window off it. -/
theorem handOver_full (hfull : k.unpacker.held = windowSize) (h : k.job.WholeWindows size) :
    k.handOver.excess = true ∨ k.handOver.job.WholeWindows size := by
  by_cases hle : windowSize ≤ k.job.remaining.toNat
  · -- all of the window is written
    refine Or.inr ?_
    rw [Job.WholeWindows, remaining_handOver_full hfull, ← Nat.mod_eq_sub_mod hle]
    exact h
  · refine Or.inl ?_
    show (k.excess || decide (k.unpacker.held > k.job.remaining.toNat)) = true
    rw [hfull, decide_eq_true (Nat.not_le.mp hle), Bool.or_true]

/-- From whole windows a cycle comes to whole windows, to the end of the stream or to excess. -/
theorem cycle_inWindows (h : k.job.WholeWindows size) : k.cycle.InWindows size := by
  have hread : k.afterRead.job.WholeWindows size := h
  rw [cycle_eq]
  by_cases hover : k.afterRead.handsOver = true
  · rw [if_pos hover]
    by_cases hgo : k.afterRead.status.goesOn = true
    · have hfull : k.afterRead.unpacker.held = windowSize := by
        simpa [handsOver, hgo] using hover
      rcases handOver_full hfull hread with hexcess | hwhole
      · exact Or.inl hexcess
      · exact Or.inr (Or.inr hwhole)
    · have hstop : k.afterRead.status.goesOn = false := Bool.not_eq_true _ ▸ hgo
      exact Or.inr (Or.inl hstop)
  · rw [if_neg hover]
    exact Or.inr (Or.inr hread)

/-- So do any number of cycles. -/
theorem cycleUpTo_inWindows (n : Nat) (h : k.InWindows size) : (k.cycleUpTo n).InWindows size := by
  induction n generalizing k with
  | zero => exact h
  | succ n ih =>
      simp only [cycleUpTo]
      split
      · rename_i hgo
        refine ih ?_
        rcases h with hexcess | hstop | hwhole
        · exact Or.inl (cycle_excess hexcess)
        · simp [canGoOn, hstop] at hgo
        · exact cycle_inWindows hwhole
      · exact h

omit [FlashDevice δ] in
/-- Reading on after the image delivers nothing. -/
theorem readTrailing_inWindows (h : k.InWindows size) : k.readTrailing.InWindows size := by
  have hjob := k.readTrailing_job.1
  simp only [InWindows, hjob]
  rcases h with hexcess | hstop | hwhole
  · refine Or.inl ?_
    simp only [readTrailing]
    split
    · split
      · rfl
      · exact hexcess
    · exact hexcess
  · refine Or.inr (Or.inl ?_)
    have hsame : k.readTrailing = k := by simp [readTrailing, canGoOn, hstop]
    rw [hsame]
    exact hstop
  · exact Or.inr (Or.inr hwhole)

omit [FlashDevice δ] in
/-- What is settled without an error and without the end of the stream goes on, and all output
    fitted. -/
theorem settle_quiet (herror : k.settle.2.1.error = none) (hphase : k.settle.1.phase ≠ .complete) :
    k.status.goesOn = true ∧ k.excess = false ∧ k.settle.2.1 = k.job := by
  by_cases hdone : k.status = .done
  · have hcomplete : k.settle.1.phase = .complete := by simp [settle, hdone]
    exact absurd hcomplete hphase
  · simp only [settle, hdone, decide_false, Bool.false_and, Bool.or_false, Bool.false_eq_true,
      if_false, Bool.not_false, Bool.true_and] at herror ⊢
    by_cases hrejects : k.status.rejects = true
    · rw [if_pos hrejects] at herror
      exact absurd herror (Job.error_note_ne_none _ _)
    · rw [if_neg hrejects] at herror ⊢
      have hgo : k.status.goesOn = true := by
        cases hs : k.status <;> simp_all [ReadStatus.rejects, ReadStatus.goesOn]
      split at herror
      · exact absurd herror (Job.error_note_ne_none _ _)
      · rename_i hquiet
        rw [if_neg hquiet]
        rw [Bool.or_eq_true, not_or, Bool.not_eq_true] at hquiet
        exact ⟨hgo, hquiet.1, rfl⟩

omit [FlashDevice δ] in
/-- What is settled without an error and without the end of the stream left whole windows. -/
theorem settle_wholeWindows (h : k.InWindows size) (herror : k.settle.2.1.error = none)
    (hphase : k.settle.1.phase ≠ .complete) : k.settle.2.1.WholeWindows size := by
  obtain ⟨hgo, hfitted, hjob⟩ := settle_quiet herror hphase
  rw [hjob]
  rcases h with hexcess | hstop | hwhole
  · exact nomatch hfitted.symm.trans hexcess
  · exact nomatch hstop.symm.trans hgo
  · exact hwhole

end Unpacking

namespace Unpacker

variable {δ ρ : Type} [StreamReader ρ] [FlashDevice δ] {u : Unpacker ρ} {j : Job}
  {piece : List UInt8} {d : δ}

/-- An error from before a piece is there after it. -/
theorem error_before_unpack (h : (u.unpack j piece d).2.1.error = none) : j.error = none := by
  by_contra hkept
  obtain ⟨_, -, hstill⟩ := (Job.error_upkeep (δ := δ)).unpack (w := []) (d := d) u hkept piece
  exact hstill h

/-- A stream that is complete stays so. -/
theorem phase_before_unpack (h : (u.unpack j piece d).1.phase ≠ .complete) :
    u.phase ≠ .complete := by
  intro hcomplete
  rw [unpack, if_pos hcomplete] at h
  exact h hcomplete

/-- Unpacking a piece keeps to whole windows, unless there is an error or the stream is complete
    after it. -/
theorem unpack_wholeWindows {size : UInt32}
    (h : j.error = none → u.phase ≠ .complete → j.WholeWindows size)
    (herror : (u.unpack j piece d).2.1.error = none)
    (hphase : (u.unpack j piece d).1.phase ≠ .complete) :
    (u.unpack j piece d).2.1.WholeWindows size := by
  have hgoing := phase_before_unpack hphase
  have hbefore := h (error_before_unpack herror) hgoing
  simp only [unpack, if_neg hgoing] at herror hphase ⊢
  refine Unpacking.settle_wholeWindows ?_ herror hphase
  exact Unpacking.readTrailing_inWindows (Unpacking.cycleUpTo_inWindows _ (Or.inr (Or.inr hbefore)))

end Unpacker
end NorLoader
