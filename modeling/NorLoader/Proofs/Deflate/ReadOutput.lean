import NorLoader.Proofs.Deflate.Consumption

/-!
# What a read puts out

A read writes into the window from its position on and nowhere before it (`ZlibReader.take_read`), so
what was put out earlier stays where it is.  And it does not hold output back: when it wants more input
it lacks a bit, or a byte to move, and without any no further read puts anything out
(`ZlibReader.drained_read`).  Together with where a read stops (`ZlibReader.read_goesOn`) this is all that
the unpacking of an image relies on, the contract of a reader.
-/

namespace NorLoader

namespace DecoderRun

/-- What a step does to the window. -/
inductive Puts (r r' : DecoderRun) : Prop where
  | nothing : r'.window = r.window → r'.pos = r.pos → Puts r r'
  | byte {byte} (h : r.pos < windowSize) : r'.window = r.window.set r.pos byte h →
      r'.pos = r.pos + 1 → Puts r r'

/-- A step puts out at the end. -/
theorem puts_of_step {r r' : DecoderRun} (h : r.step = (none, r')) : Puts r r' := by
  have hstart : r.readByteStart = (none, r') → Puts r r' := by
    intro h
    simp only [readByteStart] at h
    split at h <;> cases h
    exact .nothing rfl rfl
  have hput : ∀ (q : DecoderRun) byte, q.window = r.window → q.pos = r.pos →
      q.put byte = (none, r') → Puts r r' := by
    rintro ⟨decoder, bits, input, window, pos, sum⟩ byte rfl rfl h
    simp only [put] at h
    split at h <;> cases h
    rename_i hroom
    exact .byte hroom rfl rfl
  simp only [step] at h
  split at h
  · simp only [readBit] at h
    split at h
    · exact hstart h
    · cases h
      exact .nothing rfl rfl
  · exact hstart h
  · exact hput r _ rfl rfl h
  · exact hput r _ rfl rfl h
  · simp only [moveByte] at h
    split at h
    · split at h
      · cases h
      · rename_i rest _
        exact hput { r with input := rest } _ rfl rfl h
    · cases h
  · cases h
  · cases h

/-- A step writes from the position on. -/
theorem take_step {r r' : DecoderRun} {n : Nat} (hn : n ≤ r.pos) (h : r.step = (none, r')) :
    n ≤ r'.pos ∧ r'.window.toList.take n = r.window.toList.take n := by
  cases puts_of_step h with
  | nothing hwindow hpos =>
      rw [hwindow, hpos]
      exact ⟨hn, rfl⟩
  | byte hroom hwindow hpos =>
      rw [hwindow, hpos, Vector.toList_set, List.take_set_of_le hn]
      exact ⟨Nat.le_succ_of_le hn, rfl⟩

/-- So what was in the window before a run stays there. -/
theorem take_run {r : DecoderRun} {n : Nat} (hn : n ≤ r.pos) :
    n ≤ r.run.2.pos ∧ r.run.2.window.toList.take n = r.window.toList.take n := by
  refine (run_spec (P := fun r' => n ≤ r'.pos ∧ r'.window.toList.take n = r.window.toList.take n)
    ?_ ⟨hn, rfl⟩).1
  rintro q q' ⟨hq, hsame⟩ hstep
  obtain ⟨hq', hkept⟩ := take_step hq hstep
  exact ⟨hq', hkept.trans hsame⟩

/-- A step leaves the position within the window. -/
theorem pos_step_le {r r' : DecoderRun} (hpos : r.pos ≤ windowSize) (h : r.step = (none, r')) :
    r'.pos ≤ windowSize := by
  cases puts_of_step h with
  | nothing _ hsame =>
      rw [hsame]
      exact hpos
  | byte hroom _ hnext =>
      rw [hnext]
      exact hroom

/-- A run stays inside the window. -/
theorem pos_run_le {r : DecoderRun} (hpos : r.pos ≤ windowSize) : r.run.2.pos ≤ windowSize :=
  (run_spec (P := fun r => r.pos ≤ windowSize) pos_step_le hpos).1

/-! ## Without input -/

/-- A run goes on to a step that is a halt. -/
theorem step_run (r : DecoderRun) : r.run.2.step = (some r.run.1, r.run.2) := by
  induction hwork : r.work using Nat.strongRecOn generalizing r with
  | ind n ih =>
      rcases hstep : r.step with ⟨_ | halt, r'⟩
      · rw [run_on hstep]
        exact ih r'.work (hwork ▸ work_step hstep) r' rfl
      · obtain ⟨rfl, -⟩ := step_halt hstep
        rw [run_halt hstep]
        exact hstep

/-- Where a step lacked input it lacks it wherever the output goes, unless there is no room for it. -/
theorem step_of_starved {r : DecoderRun} (h : r.step = (some .starved, r)) (window : Window)
    (pos : Nat) (sum : Adler32) :
    let r' : DecoderRun := ⟨r.decoder, r.bits, [], window, pos, sum⟩
    ∃ halt, r'.step = (some halt, r') := by
  intro r'
  have hput : ∀ byte, r.put byte ≠ (some .starved, r) := by
    intro byte h
    simp only [put] at h
    split at h <;> cases h
  cases hdemand : r.decoder.demand with
  | bit =>
      cases hbits : r.bits with
      | nil => exact ⟨.starved, by simp [step, readBit, readByteStart, r', hdemand, hbits]⟩
      | cons b bits => simp [step, readBit, hdemand, hbits] at h
  | byteStart => exact ⟨.starved, by simp [step, readByteStart, r', hdemand]⟩
  | literal byte =>
      simp only [step, hdemand] at h
      exact absurd h (hput _)
  | copy distance =>
      simp only [step, hdemand] at h
      exact absurd h (hput _)
  | moveByte =>
      by_cases hroom : pos < windowSize
      · exact ⟨.starved, by simp [step, moveByte, r', hdemand, hroom]⟩
      · exact ⟨.full, by simp [step, moveByte, r', hdemand, hroom]⟩
  | finished checksum => simp [step, hdemand] at h
  | broken overread => simp [step, hdemand] at h

end DecoderRun

namespace ZlibReader

/-- A read puts out what its run does. -/
theorem output_read (z : ZlibReader) (input : List UInt8) (window : Window) (pos : Nat)
    (more : Bool) :
    let r := (DecoderRun.run ⟨z.decoder, z.bits, input, window, pos, z.sum⟩).2
    (z.read input window pos more).pos = r.pos ∧
      (z.read input window pos more).window = r.window := by
  intro r
  rcases hrun : DecoderRun.run ⟨z.decoder, z.bits, input, window, pos, z.sum⟩ with ⟨halt, q⟩
  have hr : r = q := congrArg Prod.snd hrun
  rw [hr]
  simp only [read, hrun]
  cases halt with
  | starved => cases more <;> exact ⟨rfl, rfl⟩
  | full => exact ⟨rfl, rfl⟩
  | finished checksum => exact ⟨rfl, rfl⟩
  | corrupt overread => exact ⟨rfl, rfl⟩

/-- A read adds to the window and leaves alone what is before its position. -/
theorem take_read (z : ZlibReader) (input : List UInt8) (window : Window) (pos : Nat)
    (more : Bool) :
    let result := z.read input window pos more
    pos ≤ result.pos ∧ result.window.toList.take pos = window.toList.take pos := by
  intro result
  obtain ⟨hpos, hwindow⟩ := z.output_read input window pos more
  have hrun := DecoderRun.take_run (r := ⟨z.decoder, z.bits, input, window, pos, z.sum⟩)
    (Nat.le_refl pos)
  rw [← hpos, ← hwindow] at hrun
  exact hrun

/-- A reader is drained where a step lacks input. -/
theorem drained_of_step {r : DecoderRun} (h : r.step = (some .starved, r)) (sum : Adler32) :
    StreamReader.Drained (⟨r.decoder, r.bits, sum⟩ : ZlibReader) := by
  intro window pos more
  obtain ⟨hpos, hwindow⟩ := output_read ⟨r.decoder, r.bits, sum⟩ [] window pos more
  obtain ⟨halt, hhalt⟩ := DecoderRun.step_of_starved h window pos sum
  rw [DecoderRun.run_halt hhalt] at hpos hwindow
  exact ⟨hpos, hwindow⟩

/-- Before the first byte there is nothing to put out. -/
theorem drained_start : StreamReader.Drained start :=
  drained_of_step (r := ⟨.start, [], [], Vector.replicate windowSize 0, 0, .empty⟩) rfl .empty

/-- A reader that wants more input holds nothing back. -/
theorem drained_read {z : ZlibReader} {input : List UInt8} {window : Window} {pos : Nat}
    {more : Bool} (h : (z.read input window pos more).status = .needsInput) :
    StreamReader.Drained (z.read input window pos more).reader := by
  have hstep := DecoderRun.step_run ⟨z.decoder, z.bits, input, window, pos, z.sum⟩
  rcases hrun : DecoderRun.run ⟨z.decoder, z.bits, input, window, pos, z.sum⟩ with ⟨halt, r⟩
  rw [hrun] at hstep
  simp only [read, hrun] at h ⊢
  cases halt with
  | starved =>
      cases more with
      | false => cases h
      | true => exact drained_of_step hstep r.sum
  | full => cases h
  | finished checksum =>
      simp only at h
      split at h <;> cases h
  | corrupt overread => cases h

/-! ## The contract -/

/-- A read takes no more than it is given. -/
theorem consumed_read_le (z : ZlibReader) (input : List UInt8) (window : Window)
    (pos : Nat) (more : Bool) : (z.read input window pos more).consumed ≤ input.length := by
  simp only [read]
  split
  · exact Nat.sub_le _ _
  · exact Nat.sub_le _ _
  · split
    · exact Nat.sub_le _ _
    · exact Nat.sub_le _ _
  · exact Nat.le_trans (Nat.sub_le _ _) (Nat.sub_le _ _)

/-- A read that can go on has filled the window, or it has used up its input and was told of more. -/
theorem read_goesOn (z : ZlibReader) (input : List UInt8) (window : Window) {pos : Nat}
    (more : Bool) (hpos : pos ≤ windowSize) :
    let result := z.read input window pos more
    result.pos ≤ windowSize ∧
    (result.status.goesOn = true →
      result.status = .windowFull ∧ result.pos = windowSize ∨
      result.status = .needsInput ∧ result.consumed = input.length ∧ more = true) := by
  have hle : (DecoderRun.run ⟨z.decoder, z.bits, input, window, pos, z.sum⟩).2.pos ≤ windowSize :=
    DecoderRun.pos_run_le hpos
  have hstops := DecoderRun.run_stops ⟨z.decoder, z.bits, input, window, pos, z.sum⟩
  generalize hrun : DecoderRun.run ⟨z.decoder, z.bits, input, window, pos, z.sum⟩ = result
    at hle hstops
  obtain ⟨halt, r⟩ := result
  cases hstops with
  | full _ hfull =>
      simp only [read, hrun]
      exact ⟨hle, fun _ => Or.inl ⟨trivial, Nat.le_antisymm hle hfull⟩⟩
  | starved _ hinput =>
      cases more with
      | false =>
          simp only [read, hrun]
          exact ⟨hle, fun hgo => Bool.noConfusion hgo⟩
      | true =>
          have hinput : r.input = [] := hinput
          simp only [read, hrun, hinput, List.length_nil, Nat.sub_zero, if_true]
          refine ⟨hle, fun _ => ?_⟩
          by_cases hend : (decide (r.pos = windowSize) && !r.decoder.inChecksum) = true
          · rw [if_pos hend]
            rw [Bool.and_eq_true, decide_eq_true_iff] at hend
            exact Or.inl ⟨rfl, hend.1⟩
          · rw [if_neg hend]
            exact Or.inr ⟨rfl, trivial, trivial⟩
  | finished =>
      simp only [read, hrun]
      refine ⟨hle, fun hgo => ?_⟩
      split at hgo <;> exact Bool.noConfusion hgo
  | corrupt =>
      simp only [read, hrun]
      exact ⟨hle, fun hgo => Bool.noConfusion hgo⟩

/-- The reader keeps the laws: they are those of a run, read by read. -/
instance : LawfulStreamReader ZlibReader where
  consumed_read_le := consumed_read_le
  take_read := take_read
  pos_read_le z input window _ more hpos := (z.read_goesOn input window more hpos).1
  read_goesOn z input window _ more hpos := (z.read_goesOn input window more hpos).2
  drained_start := drained_start
  drained_read _ _ _ _ _ := drained_read

end ZlibReader
end NorLoader
