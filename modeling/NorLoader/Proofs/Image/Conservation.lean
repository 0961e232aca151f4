import NorLoader.Proofs.Deflate.EmptyBlocks
import NorLoader.Proofs.Image.Accounting
import NorLoader.Proofs.Image.PhaseOrder
import NorLoader.Proofs.Image.Stopping

/-!
# No output is lost

What the reader puts out is held in the window until it is handed over, and handed over it is programmed.
Here the output is collected read by read (`Unpacker.outputOf`, `Loader.putOut`), along the loops that a
piece is read by, and is compared with what the device was given and what the window holds.  A read adds
to the window, and handing over moves all that is held to the device unless the image has no room for
it; that is excess, and leaves an error.  So without an error nothing is missing
(`Unpacker.conserves_unpack`), and nothing waits in the reader either, since the last read of a piece
wanted more input.

The bytes that are still announced are what is not taken yet of the declared ones.  The count of a read
has 32 bits, so this takes pieces that are shorter than that.
-/

namespace NorLoader

/-! ## What is put out -/

namespace Unpacker

variable {ρ : Type} [StreamReader ρ]

/-- What one read of a piece puts out. -/
def readOutput (u : Unpacker ρ) (piece : List UInt8) : List UInt8 :=
  (u.readOnce piece).2.2.output.drop u.held

/-- A read adds to what is held. -/
theorem output_readOnce [LawfulStreamReader ρ] (u : Unpacker ρ) (piece : List UInt8) :
    (u.readOnce piece).2.2.output = u.output ++ u.readOutput piece := by
  obtain ⟨hpos, hwindow⟩ : u.held ≤ (u.readOnce piece).2.2.held ∧
      (u.readOnce piece).2.2.window.toList.take u.held = u.output := LawfulStreamReader.take_read ..
  have hstart : (u.readOnce piece).2.2.output.take u.held = u.output := by
    show ((u.readOnce piece).2.2.window.toList.take (u.readOnce piece).2.2.held).take u.held = _
    rw [List.take_take, Nat.min_eq_left hpos]
    exact hwindow
  rw [← hstart]
  exact (List.take_append_drop _ _).symm

/-- A read that wants more input leaves nothing in the reader. -/
theorem drained_readOnce [LawfulStreamReader ρ] {u : Unpacker ρ} {piece : List UInt8}
    (h : (u.readOnce piece).1 = .needsInput) :
    StreamReader.Drained (u.readOnce piece).2.2.reader :=
  LawfulStreamReader.drained_read _ _ _ _ _ h

end Unpacker

namespace Unpacking

variable {δ ρ : Type} [StreamReader ρ] [FlashDevice δ]

/-- What the reads of at most `n` cycles put out. -/
def outputUpTo : Nat → Unpacking δ ρ → List UInt8
  | 0, _ => []
  | n + 1, k =>
      if k.canGoOn && k.job.remaining > 0 then
        k.unpacker.readOutput k.rest ++ outputUpTo n k.cycle
      else []

omit [FlashDevice δ] in
/-- What reading on after the image puts out. -/
def outputTrailing (k : Unpacking δ ρ) : List UInt8 :=
  if k.canGoOn && k.job.remaining = 0 then k.unpacker.readOutput k.rest else []

end Unpacking

namespace Unpacker

variable {δ ρ : Type} [StreamReader ρ] [FlashDevice δ]

/-- What all reads of a piece put out. -/
def outputOf (u : Unpacker ρ) (j : Job) (piece : List UInt8) (d : δ) : List UInt8 :=
  if u.phase = .complete then []
  else
    let reads := j.remaining.toNat / windowSize + 2
    let k : Unpacking δ ρ := ⟨u, j, d, piece, .needsInput, false⟩
    k.outputUpTo reads ++ (k.cycleUpTo reads).outputTrailing

end Unpacker

namespace Loader

variable {δ ρ : Type} [StreamReader ρ] [FlashDevice δ]

/-- What is put out in a call. -/
def puts (l : Loader δ ρ) : LoaderCall → List UInt8
  | .unpack piece => l.unpacker.outputOf l.job piece l.device
  | _ => []

/-- What is put out in some calls. -/
def putOut : Loader δ ρ → List LoaderCall → List UInt8
  | _, [] => []
  | l, c :: cs => l.puts c ++ (l.call c).putOut cs

end Loader

/-! ## Through a piece -/

namespace Unpacking

variable {δ ρ : Type} [StreamReader ρ] [FlashDevice δ] {P : List Delivery → Job → δ → Prop}
  {k : Unpacking δ ρ} {out : List UInt8} {w : List Delivery}

omit [FlashDevice δ] in
/-- The output is with the job or is held, unless there was more of it than the job takes. -/
def Conserves (out : List UInt8) (w : List Delivery) (k : Unpacking δ ρ) : Prop :=
  k.excess = true ∨ sent w ++ k.unpacker.output = out

/-- What the job takes all of is not lost. -/
theorem conserves_handOver (h : k.Conserves out w) :
    k.handOver.Conserves out (w ++ k.job.deliveries .plain k.unpacker.output) := by
  rcases h with hexcess | hsame
  · exact Or.inl (handOver_excess hexcess)
  · by_cases hfits : k.unpacker.held ≤ k.job.remaining.toNat
    · refine Or.inr ?_
      have hall : k.job.accepted k.unpacker.output = k.unpacker.output := by
        refine List.take_of_length_le ?_
        rw [Unpacker.output, List.length_take]
        omega
      have happend : sent (w ++ k.job.deliveries .plain k.unpacker.output)
          = sent w ++ sent (k.job.deliveries .plain k.unpacker.output) := List.flatMap_append
      have hempty : k.handOver.unpacker.output = [] := List.take_zero
      rw [happend, Job.sent_deliveries, hall, hempty, List.append_nil]
      exact hsame
    · refine Or.inl ?_
      show (k.excess || decide (k.unpacker.held > k.job.remaining.toNat)) = true
      rw [decide_eq_true (Nat.not_le.mp hfits), Bool.or_true]

variable [LawfulStreamReader ρ]

/-- What a cycle puts out is with the job or is held after it. -/
theorem conserves_cycle (hkeeps : Job.Upkeep P) (hp : P w k.job k.device) (h : k.Conserves out w) :
    ∃ vs, P (w ++ vs) k.cycle.job k.cycle.device ∧
      k.cycle.Conserves (out ++ k.unpacker.readOutput k.rest) (w ++ vs) := by
  have hahead : P w k.afterRead.job k.afterRead.device := hkeeps.eraseAhead hp
  have hread : k.afterRead.Conserves (out ++ k.unpacker.readOutput k.rest) w := by
    refine h.imp_right ?_
    intro hsame
    have houtput : k.afterRead.unpacker.output
        = k.unpacker.output ++ k.unpacker.readOutput k.rest := by
      rw [k.unpacker_afterRead]
      exact k.unpacker.output_readOnce k.rest
    rw [houtput, ← List.append_assoc, hsame]
  rw [cycle_eq]
  split
  · exact ⟨_, hkeeps.handOver hahead, conserves_handOver hread⟩
  · exact ⟨[], by rw [List.append_nil]; exact ⟨hahead, hread⟩⟩

/-- So is what any number of cycles put out. -/
theorem conserves_cycleUpTo (hkeeps : Job.Upkeep P) (n : Nat) (hp : P w k.job k.device)
    (h : k.Conserves out w) :
    ∃ vs, P (w ++ vs) (k.cycleUpTo n).job (k.cycleUpTo n).device ∧
      (k.cycleUpTo n).Conserves (out ++ k.outputUpTo n) (w ++ vs) := by
  induction n generalizing k out w with
  | zero => exact ⟨[], by rw [List.append_nil]; exact hp, by simpa [outputUpTo, cycleUpTo] using h⟩
  | succ n ih =>
      rw [cycleUpTo, outputUpTo]
      split
      · obtain ⟨vs, hcycle, hconserves⟩ := conserves_cycle hkeeps hp h
        obtain ⟨vs', hcycles, hall⟩ := ih hcycle hconserves
        refine ⟨vs ++ vs', ?_, ?_⟩
        · rw [← List.append_assoc]
          exact hcycles
        · rw [← List.append_assoc, ← List.append_assoc]
          exact hall
      · exact ⟨[], by rw [List.append_nil]; exact hp, by simpa using h⟩

omit [FlashDevice δ] in
/-- Output after the image is excess. -/
theorem conserves_readTrailing (h : k.Conserves out w) :
    k.readTrailing.Conserves (out ++ k.outputTrailing) w := by
  rw [outputTrailing, readTrailing]
  split
  · by_cases hmore : (k.unpacker.readOnce k.rest).2.2.held > k.unpacker.held
    · simp only [if_pos hmore]
      exact Or.inl rfl
    · simp only [if_neg hmore]
      refine h.imp_right ?_
      intro hsame
      rw [k.unpacker.output_readOnce k.rest, ← List.append_assoc, hsame]
  · rw [List.append_nil]
    exact h

omit [FlashDevice δ] [LawfulStreamReader ρ] in
/-- Where the reader could go on but there is nothing to go on with, the piece is used up. -/
theorem starved_of_stop (k : Unpacking δ ρ) (hgo : k.status.goesOn = true) (hend : k.canGoOn = false) :
    k.rest = [] ∧ k.status = .needsInput := by
  rw [canGoOn, hgo, Bool.true_and, Bool.or_eq_false_iff, Bool.not_eq_false', List.isEmpty_iff,
    decide_eq_false_iff_not] at hend
  obtain ⟨hrest, hnotFull⟩ := hend
  refine ⟨hrest, ?_⟩
  cases hstatus : k.status with
  | needsInput => rfl
  | windowFull => exact absurd hstatus hnotFull
  | done | badChecksum | cutShort | corrupt =>
      rw [hstatus] at hgo
      cases hgo

omit [FlashDevice δ] [LawfulStreamReader ρ] in
/-- The reader holds nothing back if it wants more input. -/
def HoldsNothingBack (k : Unpacking δ ρ) : Prop :=
  k.status = .needsInput → StreamReader.Drained k.unpacker.reader

/-- Whatever a cycle began with, its read holds nothing back. -/
theorem holdsNothingBack_cycle (k : Unpacking δ ρ) : k.cycle.HoldsNothingBack := by
  rw [HoldsNothingBack, k.status_cycle, k.reader_cycle]
  exact Unpacker.drained_readOnce

omit [FlashDevice δ] in
/-- Nor does the read after the image. -/
theorem holdsNothingBack_readTrailing (h : k.HoldsNothingBack) :
    k.readTrailing.HoldsNothingBack := by
  rw [readTrailing]
  split
  · by_cases hmore : (k.unpacker.readOnce k.rest).2.2.held > k.unpacker.held
    · simp only [if_pos hmore]
      exact Unpacker.drained_readOnce
    · simp only [if_neg hmore]
      exact Unpacker.drained_readOnce
  · exact h

/-- How many bytes are still announced with `left` of them before a piece of `size` bytes. -/
def Counts (left size : Nat) (k : Unpacking δ ρ) : Prop :=
  k.rest.length ≤ size ∧ k.unpacker.packedLeft.toNat = left - (size - k.rest.length)

end Unpacking

namespace Unpacker

/-- A read takes its bytes off what is announced. -/
theorem toNat_packedLeft_readOnce {ρ : Type} [StreamReader ρ] [LawfulStreamReader ρ] (u : Unpacker ρ)
    {piece : List UInt8} (hshort : piece.length < 2 ^ 32) :
    (u.readOnce piece).2.2.packedLeft.toNat = u.packedLeft.toNat - (u.readOnce piece).2.1 := by
  have hle := u.consumed_readOnce_le piece
  have hleft : (u.readOnce piece).2.2.packedLeft
      = satSub u.packedLeft (UInt32.ofNat (u.readOnce piece).2.1) := rfl
  rw [hleft, toNat_satSub, UInt32.toNat_ofNat_of_lt' (Nat.lt_of_le_of_lt hle hshort)]

end Unpacker

namespace Unpacking

variable {δ ρ : Type} [StreamReader ρ] [LawfulStreamReader ρ] {k : Unpacking δ ρ} {left size : Nat}

/-- A read keeps count of a piece whose length fits the count. -/
theorem counts_read (h : k.Counts left size) (hshort : size < 2 ^ 32) :
    (k.rest.drop (k.unpacker.readOnce k.rest).2.1).length ≤ size ∧
      (k.unpacker.readOnce k.rest).2.2.packedLeft.toNat
        = left - (size - (k.rest.drop (k.unpacker.readOnce k.rest).2.1).length) := by
  obtain ⟨hle, hleft⟩ := h
  have htaken := k.unpacker.consumed_readOnce_le k.rest
  rw [k.unpacker.toNat_packedLeft_readOnce (Nat.lt_of_le_of_lt hle hshort), hleft, List.length_drop]
  omega

/-- So does a cycle. -/
theorem counts_cycle [FlashDevice δ] (hshort : size < 2 ^ 32) (h : k.Counts left size) :
    k.cycle.Counts left size := by
  rw [Counts, k.packedLeft_cycle, k.rest_cycle]
  exact counts_read h hshort

/-- So does the read after the image. -/
theorem counts_readTrailing (hshort : size < 2 ^ 32) (h : k.Counts left size) :
    k.readTrailing.Counts left size := by
  have hread := counts_read h hshort
  simp only [readTrailing]
  split
  · split <;> exact hread
  · exact h

end Unpacking

namespace Unpacker

variable {δ ρ : Type} [StreamReader ρ] [LawfulStreamReader ρ] [FlashDevice δ]
  {P : List Delivery → Job → δ → Prop} {u : Unpacker ρ} {j : Job} {d : δ} {w : List Delivery}

/-- What is still announced after a piece. -/
theorem toNat_packedLeft_unpack (u : Unpacker ρ) (j : Job) {piece : List UInt8} (d : δ)
    (hshort : piece.length < 2 ^ 32) :
    (u.unpack j piece d).1.packedLeft.toNat = u.packedLeft.toNat - u.taken j piece d := by
  by_cases hcomplete : u.phase = .complete
  · rw [unpack, if_pos hcomplete, taken, if_pos hcomplete]
    rfl
  · have hstart : (⟨u, j, d, piece, .needsInput, false⟩ : Unpacking δ ρ).Counts
        u.packedLeft.toNat piece.length := ⟨Nat.le_refl _, by rw [Nat.sub_self]; rfl⟩
    rw [unpack_eq hcomplete, taken, if_neg hcomplete]
    exact (Unpacking.counts_readTrailing hshort (Unpacking.cycleUpTo_induct
      (P := fun k => k.Counts u.packedLeft.toNat piece.length)
      (Unpacking.counts_cycle hshort) _ hstart)).2

/-- What the reads of a piece put out is with the job or is held after them, unless it is excess. -/
theorem conserves_readThrough (hkeeps : Job.Upkeep P) (hp : P w j d) (hgoing : u.phase ≠ .complete)
    (piece : List UInt8) :
    let k := u.readThrough j piece d
    ∃ vs, P (w ++ vs) k.job k.device ∧
      k.Conserves (sent w ++ u.output ++ u.outputOf j piece d) (w ++ vs) := by
  let reads := j.remaining.toNat / windowSize + 2
  let start : Unpacking δ ρ := ⟨u, j, d, piece, .needsInput, false⟩
  have hstart : start.Conserves (sent w ++ u.output) w := Or.inr rfl
  obtain ⟨vs, hcycles, hconserves⟩ := Unpacking.conserves_cycleUpTo hkeeps reads hp hstart
  refine ⟨vs, ?_, ?_⟩
  · obtain ⟨hsame, hdevice⟩ := (start.cycleUpTo reads).readTrailing_job
    show P (w ++ vs) (start.cycleUpTo reads).readTrailing.job
      (start.cycleUpTo reads).readTrailing.device
    rw [hsame, hdevice]
    exact hcycles
  · rw [outputOf, if_neg hgoing, ← List.append_assoc]
    exact Unpacking.conserves_readTrailing hconserves

/-- After the reads of a piece nothing is held back. -/
theorem holdsNothingBack_readThrough (h : StreamReader.Drained u.reader) (piece : List UInt8) :
    (u.readThrough j piece d).HoldsNothingBack := by
  have hstart : (⟨u, j, d, piece, .needsInput, false⟩ : Unpacking δ ρ).HoldsNothingBack := fun _ => h
  exact Unpacking.holdsNothingBack_readTrailing (Unpacking.cycleUpTo_induct
    (fun {k} _ => k.holdsNothingBack_cycle) _ hstart)

/-- Without an error and before the end of the stream a piece is taken as a whole, nothing waits in the
    reader, and what was put out was programmed or is held. -/
theorem conserves_unpack (hkeeps : Job.Upkeep P) (hp : P w j d) (hheld : u.held < windowSize)
    (piece : List UInt8) :
    let after := u.unpack j piece d
    ∃ vs, P (w ++ vs) after.2.1 after.2.2 ∧
      (after.2.1.error = none → after.1.phase ≠ .complete →
        u.taken j piece d = piece.length ∧
          (StreamReader.Drained u.reader → StreamReader.Drained after.1.reader) ∧
        sent (w ++ vs) ++ after.1.output = sent w ++ u.output ++ u.outputOf j piece d) := by
  intro after
  by_cases hcomplete : u.phase = .complete
  · obtain ⟨vs, -, hkept⟩ := hkeeps.unpack u hp piece
    exact ⟨vs, hkept, fun _ hphase => absurd hcomplete (phase_before_unpack hphase)⟩
  let k := u.readThrough j piece d
  obtain ⟨vs, hjob, hconserves⟩ := conserves_readThrough hkeeps hp hcomplete piece
  have hafter : after = k.settle := unpack_eq hcomplete
  rw [hafter]
  refine ⟨vs, hkeeps.settle hjob, ?_⟩
  intro herror hphase
  obtain ⟨hgo, hfitted, -⟩ := Unpacking.settle_quiet herror hphase
  have hroom : ¬k.excess = true := by
    rw [hfitted]
    exact Bool.false_ne_true
  have hend : k.canGoOn = false := (readThrough_stops hheld j piece d).resolve_left hroom
  obtain ⟨hrest, hneeds⟩ := k.starved_of_stop hgo hend
  have htaken : u.taken j piece d = piece.length := by
    rw [taken, if_neg hcomplete]
    show piece.length - k.rest.length = piece.length
    rw [hrest]
    rfl
  exact ⟨htaken, fun hdrained => holdsNothingBack_readThrough hdrained piece hneeds,
    hconserves.resolve_left hroom⟩

end Unpacker

/-! ## Sessions -/

namespace Loader

variable {δ ρ : Type} [StreamReader ρ] [FlashDevice δ] {offset size : UInt32} {out : List UInt8}
  {l : Loader (Recorder δ) ρ}

/-- A stream that put out `out`, on a device that kept a record of what it was given. -/
structure Conserving (offset size : UInt32) (out : List UInt8) (l : Loader (Recorder δ) ρ) : Prop where
  held : l.unpacker.held < windowSize
  chart : ∃ w, l.job.Chart offset size l.device.calls w ∧
    (l.job.error = none → l.unpacker.phase ≠ .complete →
      StreamReader.Drained l.unpacker.reader ∧ sent w ++ l.unpacker.output = out)

variable [LawfulStreamReader ρ]

namespace Conserving

/-- A piece goes on with it. -/
theorem unpack (h : Conserving offset size out l) (piece : List UInt8) :
    Conserving offset size (out ++ l.puts (.unpack piece)) (l.unpack piece) := by
  obtain ⟨hheld, w, hchart, hconserved⟩ := h
  have hlog := Job.charted_upkeep (Recorder.callLog (δ := δ)) [] offset size
  obtain ⟨vs, ⟨calls, hcalls, hchart'⟩, hpiece⟩ :=
    Unpacker.conserves_unpack (d := l.device) hlog ⟨_, rfl, hchart⟩ hheld piece
  refine ⟨Unpacker.held_unpack_lt hheld l.job piece l.device, w ++ vs, ?_, ?_⟩
  · show Job.Chart _ _ (l.unpacker.unpack l.job piece l.device).2.2.calls _ _
    rw [hcalls]
    exact hchart'
  · intro herror hphase
    obtain ⟨hdrained, hall⟩ := hconserved (Unpacker.error_before_unpack herror)
      (Unpacker.phase_before_unpack hphase)
    obtain ⟨-, hdrains, hsame⟩ := hpiece herror hphase
    refine ⟨hdrains hdrained, hsame.trans ?_⟩
    rw [hall]
    rfl

/-- Without an error and before the end of the stream a piece is taken as a whole. -/
theorem takes_unpack (h : Conserving offset size out l) {piece : List UInt8}
    (herror : (l.unpack piece).job.error = none)
    (hphase : (l.unpack piece).unpacker.phase ≠ .complete) :
    l.takes (.unpack piece) = piece.length := by
  obtain ⟨hheld, w, hchart, -⟩ := h
  have hlog := Job.charted_upkeep (Recorder.callLog (δ := δ)) [] offset size
  obtain ⟨_, _, hpiece⟩ :=
    Unpacker.conserves_unpack (d := l.device) hlog ⟨_, rfl, hchart⟩ hheld piece
  exact (hpiece herror hphase).1

/-- A call goes on with it. -/
theorem call (h : Conserving offset size out l) {c : LoaderCall} (hc : c.isFeeding = true) :
    Conserving offset size (out ++ l.puts c) (l.call c) := by
  obtain ⟨piece, rfl⟩ | rfl | rfl := LoaderCall.cases_of_isFeeding hc
  · exact h.unpack piece
  · obtain ⟨hheld, w, hchart, hconserved⟩ := h
    have hlog := Job.charted_upkeep (Recorder.callLog (δ := δ)) [] offset size
    obtain ⟨calls, hcalls, hchart'⟩ := hlog.eraseAhead ⟨_, rfl, hchart⟩
    refine ⟨hheld, w, ?_, ?_⟩
    · show Job.Chart _ _ (l.job.eraseAhead l.device).2.2.calls _ _
      rw [hcalls]
      exact hchart'
    · show _ → _ → _ ∧ _ = out ++ []
      rw [List.append_nil]
      exact hconserved
  · obtain ⟨hheld, w, hchart, hconserved⟩ := h
    refine ⟨hheld, w, hchart.finish, ?_⟩
    show l.job.finish.2.error = none → _ → _ ∧ _ = out ++ []
    rw [l.job.finish_kept.1, List.append_nil]
    exact hconserved

/-- Any calls go on with it. -/
theorem calls (h : Conserving offset size out l) {cs : List LoaderCall}
    (hcs : ∀ c ∈ cs, c.isFeeding = true) :
    Conserving offset size (out ++ l.putOut cs) (l.calls cs) := by
  induction cs generalizing l out with
  | nil =>
      rw [putOut, List.append_nil]
      exact h
  | cons c cs ih =>
      obtain ⟨hc, hrest⟩ := List.forall_mem_cons.mp hcs
      rw [putOut, ← List.append_assoc]
      exact ih (h.call hc) hrest

end Conserving

/-- What is still announced after some calls. -/
theorem packedLeft_calls {cs : List LoaderCall} (l : Loader δ ρ) (hcs : ∀ c ∈ cs, c.isFeeding = true)
    (hshort : ∀ c ∈ cs, c.packed.length < 2 ^ 32) :
    (l.calls cs).unpacker.packedLeft.toNat = l.unpacker.packedLeft.toNat - l.taken cs := by
  induction cs generalizing l with
  | nil => rfl
  | cons c cs ih =>
      obtain ⟨hc, hrest⟩ := List.forall_mem_cons.mp hcs
      obtain ⟨hfirst, hlater⟩ := List.forall_mem_cons.mp hshort
      have hcall : (l.call c).unpacker.packedLeft.toNat
          = l.unpacker.packedLeft.toNat - l.takes c := by
        obtain ⟨piece, rfl⟩ | rfl | rfl := LoaderCall.cases_of_isFeeding hc
        · exact Unpacker.toNat_packedLeft_unpack l.unpacker l.job l.device hfirst
        · rfl
        · rfl
      have hcalls := ih (l.call c) hrest hlater
      rw [hcall, Nat.sub_sub] at hcalls
      exact hcalls

/-- A stream may be fed in any pieces, with any sizes declared, and after each of them there is room in
    the window.  Unless there is an error or the stream is at its end, the piece was taken as a whole,
    the reader could not put out anything without more input, and all that it put out since the job was
    opened was programmed or is held.  What is still announced are the declared bytes but for those
    that were taken, as long as the length of a piece fits the count of a read. -/
theorem output_conserved (l : Loader δ ρ) (size packedSize offset : UInt32) (before : List LoaderCall)
    (piece : List UInt8) (hopen : (l.openJob (some packedSize) size offset).1 = .ok ())
    (hbefore : ∀ c ∈ before, c.isFeeding = true) :
    let opened := (l.openJob (some packedSize) size offset).2
    let cs := before ++ [.unpack piece]
    let s := opened.recorded.calls before
    let t := opened.recorded.calls cs
    let programmed := (programsOf t.device.calls).flatMap Prod.snd
    t.map Recorder.device = opened.calls cs ∧ t.unpacker.held < windowSize ∧
      (t.job.error = none → t.unpacker.phase ≠ .complete →
        s.takes (.unpack piece) = piece.length ∧ StreamReader.Drained t.unpacker.reader ∧
          opened.recorded.putOut cs = programmed ++ t.unpacker.output) ∧
      programmed.length = size.toNat - t.job.remaining.toNat ∧
      ((∀ c ∈ cs, c.packed.length < 2 ^ 32) →
        t.unpacker.packedLeft.toNat = packedSize.toNat - opened.recorded.taken cs) := by
  intro opened cs s t programmed
  have hopened : opened = ⟨(FlashDevice.unlock l.device).2, .fresh size offset,
      l.unpacker.restart packedSize⟩ := openJob_ok hopen
  have hstart : Conserving offset size [] opened.recorded := by
    rw [hopened]
    refine ⟨Nat.zero_lt_succ _, [], Job.chart_fresh offset size, ?_⟩
    exact fun _ _ => ⟨LawfulStreamReader.drained_start, rfl⟩
  have hcs : ∀ c ∈ cs, c.isFeeding = true := by
    intro c hc
    rcases List.mem_append.mp hc with hearlier | hlast
    · exact hbefore c hearlier
    · rw [List.mem_singleton.mp hlast]
      rfl
  have hpiece : t = s.call (.unpack piece) := calls_concat opened.recorded before (.unpack piece)
  obtain ⟨hheld, w, hchart, hconserved⟩ := hstart.calls hcs
  have hprogrammed : programmed = sent w := by
    show (programsOf t.device.calls).flatMap Prod.snd = _
    rw [hchart.programs, bytes_placements]
  refine ⟨map_recorded opened cs, hheld, ?_, ?_, ?_⟩
  · intro herror hphase
    obtain ⟨hdrained, hsame⟩ := hconserved herror hphase
    rw [hprogrammed, hsame]
    rw [hpiece] at herror hphase
    exact ⟨(hstart.calls hbefore).takes_unpack herror hphase, hdrained, rfl⟩
  · rw [hprogrammed, length_sent]
    exact Nat.eq_sub_of_add_eq hchart.remaining
  · intro hshort
    have hannounced : opened.recorded.unpacker.packedLeft = packedSize := by
      rw [hopened]
      rfl
    have hleft := packedLeft_calls opened.recorded hcs hshort
    rw [hannounced] at hleft
    exact hleft

/-- A stream that breaks off is fed in two pieces to a loader without faults. -/
theorem calls_breakingOff {capacity : Nat} (l : Loader (Simulator capacity))
    (hfaults : l.device.faults = {}) (size packedSize offset : UInt32) (n : Nat)
    (first piece : List UInt8) (hstream : first ++ piece = breakingOff n) (hn : n ≤ size.toNat)
    (hinside : offset.toNat + n ≤ capacity)
    (hmore : (breakingOff n).length < packedSize.toNat) :
    let opened := (l.openJob (some packedSize) size offset).2
    let cs : List LoaderCall := [.unpack first, .eraseAhead] ++ [.unpack piece]
    let t := opened.recorded.calls cs
    (∀ c ∈ cs, c.packed.length < 2 ^ 32) ∧ t.job.error = none ∧ t.unpacker.phase ≠ .complete ∧
      t.unpacker.held = n % windowSize ∧
      size.toNat - t.job.remaining.toNat = windowSize * (n / windowSize) := by
  intro opened cs t
  have hsteps : fedBytes [.piece first, .eraseAhead, .piece piece] = breakingOff n := by
    show first ++ ([] ++ (piece ++ [])) = _
    rw [List.nil_append, List.append_nil, hstream]
  obtain ⟨-, herror, hphase, hheld, hremaining, -⟩ :=
    l.fed_breakingOff hfaults hn hinside hmore hsteps
  have hsame : t.map Recorder.device = (l.startPacked size packedSize offset).2.unpackAll
      [.piece first, .eraseAhead, .piece piece] := map_recorded opened _
  rw [← hsame] at herror hphase hheld hremaining
  refine ⟨?_, herror, hphase, hheld, Nat.sub_eq_of_eq_add hremaining.symm⟩
  have hshort := hmore.trans packedSize.toNat_lt
  rw [← hstream, List.length_append] at hshort
  simp only [cs, List.cons_append, List.nil_append, List.forall_mem_cons, LoaderCall.packed,
    List.length_nil]
  exact ⟨by omega, by decide, by omega, nofun⟩

/-- Of an image of 50000 bytes a stream for 40000 was fed in two pieces: a window was programmed, and
    the rest of the output is held. -/
theorem output_conserved_past_window :
    let l : Loader (Simulator 65536) := { device := {} }
    let first := (breakingOff 40000).take 400
    let piece := (breakingOff 40000).drop 400
    let opened := (l.openJob (some 1000) 50000 0).2
    let cs : List LoaderCall := [.unpack first, .eraseAhead] ++ [.unpack piece]
    let t := opened.recorded.calls cs
    let programmed := (programsOf t.device.calls).flatMap Prod.snd
    (t.job.error = none ∧ t.unpacker.phase ≠ .complete) ∧ StreamReader.Drained t.unpacker.reader ∧
      opened.recorded.putOut cs = programmed ++ t.unpacker.output ∧
      programmed.length = 32768 ∧ t.unpacker.held = 7232 ∧
      t.unpacker.packedLeft.toNat = (1000 : UInt32).toNat - opened.recorded.taken cs := by
  intro l first piece
  have hmore : (breakingOff 40000).length < (1000 : UInt32).toNat :=
    Nat.lt_of_le_of_lt (length_breakingOff_le _) (by decide)
  obtain ⟨hshort, herror, hphase, hheld, hwindows⟩ := calls_breakingOff l rfl 50000 1000 0 40000
    first piece (List.take_append_drop 400 _) (by decide) (by decide) hmore
  obtain ⟨-, -, hconserved, hprogrammed, hcount⟩ :=
    output_conserved l 50000 1000 0 [.unpack first, .eraseAhead] piece rfl (by decide)
  obtain ⟨-, hdrained, hall⟩ := hconserved herror hphase
  have hwindow : windowSize * (40000 / windowSize) = 32768 := by decide
  have hrest : 40000 % windowSize = 7232 := by decide
  rw [hwindow] at hwindows
  rw [hrest] at hheld
  exact ⟨⟨herror, hphase⟩, hdrained, hall, hprogrammed.trans hwindows, hheld, hcount hshort⟩

/-- Behind the last announced byte a read takes empty blocks as a whole, however many there are, and
    counts them as a word. -/
theorem unpack_emptyBlocks {u : Unpacker} {j : Job} (hstart : u.reader = .start) (hheld : u.held = 0)
    (hgoing : u.phase ≠ .complete) (hremaining : j.remaining ≠ 0) (count : Nat) (d : δ)
    (hleft : u.packedLeft.toNat ≤ (emptyBlocks count).length) :
    u.taken j (emptyBlocks count) d = (emptyBlocks count).length ∧
      (u.unpack j (emptyBlocks count) d).1.packedLeft
        = satSub u.packedLeft (UInt32.ofNat (emptyBlocks count).length) := by
  let start : Unpacking δ := ⟨u, j, d, emptyBlocks count, .needsInput, false⟩
  have hmore : decide (u.packedLeft.toNat > (emptyBlocks count).length) = false :=
    decide_eq_false (Nat.not_lt.mpr hleft)
  obtain ⟨hstatus, hconsumed, -⟩ := ZlibReader.read_emptyBlocks count u.window
  rw [← hstart, ← hheld, ← hmore] at hstatus hconsumed
  have hall : (u.readOnce (emptyBlocks count)).2.1 = (emptyBlocks count).length := hconsumed
  have hend : u.readThrough j (emptyBlocks count) d = start.cycle := by
    refine Unpacker.readThrough_of_stop hremaining (List.cons_ne_nil _ _) ?_
    show (StreamReader.read u.reader _ _ _ _).status.goesOn = false
    rw [show (StreamReader.read u.reader _ _ _ _).status = _ from hstatus]
    rfl
  constructor
  · rw [Unpacker.taken, if_neg hgoing, hend, start.rest_cycle, hall, List.drop_length]
    rfl
  · rw [Unpacker.unpack_eq hgoing, hend]
    show start.cycle.unpacker.packedLeft = _
    rw [start.packedLeft_cycle, ← hall]
    rfl

/-- Two bytes are announced for an image of one byte, and some empty blocks come. -/
theorem packedLeft_emptyBlocks (count : Nat) :
    let l : Loader (Simulator 8192) := { device := {} }
    let opened := (l.openJob (some 2) 1 0).2
    let cs : List LoaderCall := [.unpack (emptyBlocks count)]
    (l.openJob (some 2) 1 0).1 = .ok () ∧ opened.recorded.taken cs = 5 * count + 2 ∧
      (opened.recorded.calls cs).unpacker.packedLeft = satSub 2 (UInt32.ofNat (5 * count + 2)) := by
  intro l opened cs
  have hlength := length_emptyBlocks count
  have hleft : (2 : UInt32).toNat ≤ (emptyBlocks count).length := by
    rw [hlength]
    exact Nat.le_add_left _ _
  obtain ⟨htaken, hcounted⟩ := unpack_emptyBlocks (u := opened.unpacker) (j := opened.job) rfl rfl
    nofun nofun count opened.recorded.device hleft
  rw [hlength] at htaken hcounted
  exact ⟨rfl, htaken, hcounted⟩

/-- A piece of one byte more than words can count is counted as one byte: two were announced, all of the
    piece is taken, and still one is announced. -/
theorem long_piece_counted_short :
    let l : Loader (Simulator 8192) := { device := {} }
    let opened := (l.openJob (some 2) 1 0).2
    let cs : List LoaderCall := [.unpack (emptyBlocks 858993459)]
    (l.openJob (some 2) 1 0).1 = .ok () ∧ opened.recorded.taken cs = 2 ^ 32 + 1 ∧
      (opened.recorded.calls cs).unpacker.packedLeft = 1 := by
  intro l opened cs
  obtain ⟨hopen, htaken, hleft⟩ := packedLeft_emptyBlocks 858993459
  exact ⟨hopen, htaken, hleft⟩

end Loader
end NorLoader
