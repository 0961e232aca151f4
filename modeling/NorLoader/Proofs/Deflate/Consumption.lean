import NorLoader.Proofs.Deflate.Tracking

/-!
# What a read takes

A run goes on until a step is a halt, and the decoder tells which (`DecoderRun.run_spec`).  So a
stream is rejected either for good (`ZlibReader.Failed`), and then every further read says so again
and takes nothing, or because it breaks off where no more was announced.

Where a stream is corrupt the bytes are given back whose bits were not needed to see it.  They are
never all of them (`Decoder.overread`), so the first read of a stream takes at least one byte.
-/

namespace NorLoader

/-! ## Where a run stops -/

/-- Nothing lets the decoder go on. -/
def Decoder.Ended (d : Decoder) : Prop :=
  match d.demand with
  | .finished _ => True
  | .broken _ => True
  | _ => False

namespace DecoderRun

/-- What the decoder is at when a run stops, and what it lacks if it could go on. -/
inductive Stops (r : DecoderRun) : RunHalt → Prop where
  | starved : ¬r.decoder.Ended → r.input = [] → Stops r .starved
  | full : ¬r.decoder.Ended → windowSize ≤ r.pos → Stops r .full
  | finished {checksum} : r.decoder.demand = .finished checksum → Stops r (.finished checksum)
  | corrupt {overread} : r.decoder.demand = .broken overread → Stops r (.corrupt overread)

/-- A step that is a halt changes nothing. -/
theorem step_halt {r r' : DecoderRun} {halt : RunHalt} (h : r.step = (some halt, r')) :
    r' = r ∧ r.Stops halt := by
  by_cases hended : r.decoder.Ended
  · simp only [Decoder.Ended] at hended
    split at hended
    · rename_i hdemand
      simp only [step, hdemand] at h
      cases h
      exact ⟨rfl, .finished hdemand⟩
    · rename_i hdemand
      simp only [step, hdemand] at h
      cases h
      exact ⟨rfl, .corrupt hdemand⟩
    · exact hended.elim
  · have hstart : r.readByteStart = (some halt, r') → r' = r ∧ r.Stops halt := by
      intro h
      simp only [readByteStart] at h
      split at h <;> cases h
      rename_i hinput
      exact ⟨rfl, .starved hended hinput⟩
    have hput : ∀ byte, r.put byte = (some halt, r') → r' = r ∧ r.Stops halt := by
      intro byte h
      simp only [put] at h
      split at h <;> cases h
      rename_i hroom
      exact ⟨rfl, .full hended (Nat.not_lt.mp hroom)⟩
    simp only [step] at h
    split at h
    · simp only [readBit] at h
      split at h
      · exact hstart h
      · cases h
    · exact hstart h
    · exact hput _ h
    · exact hput _ h
    · -- a byte is moved only when there is room for it
      simp only [moveByte] at h
      split at h
      · rename_i hroom
        split at h
        · cases h
          rename_i hinput
          exact ⟨rfl, .starved hended hinput⟩
        · simp only [put, dif_pos hroom] at h
          cases h
      · cases h
        rename_i hroom
        exact ⟨rfl, .full hended (Nat.not_lt.mp hroom)⟩
    · rename_i hdemand
      exact absurd (by simp only [Decoder.Ended, hdemand]) hended
    · rename_i hdemand
      exact absurd (by simp only [Decoder.Ended, hdemand]) hended

/-- What every step keeps holds where a run stops. -/
theorem run_spec {P : DecoderRun → Prop} (hkeeps : ∀ {r r'}, P r → r.step = (none, r') → P r')
    {r : DecoderRun} (h : P r) : P r.run.2 ∧ r.run.2.Stops r.run.1 := by
  induction hwork : r.work using Nat.strongRecOn generalizing r with
  | ind n ih =>
      rcases hstep : r.step with ⟨_ | halt, r'⟩
      · rw [run_on hstep]
        exact ih r'.work (hwork ▸ work_step hstep) (hkeeps h hstep) rfl
      · obtain ⟨rfl, hstops⟩ := step_halt hstep
        rw [run_halt hstep]
        exact ⟨h, hstops⟩

/-- A run stops for the reason that it gives. -/
theorem run_stops (r : DecoderRun) : r.run.2.Stops r.run.1 :=
  (run_spec (P := fun _ => True) (fun _ _ => trivial) trivial).2

/-- What a step does to the input and to the bits that wait. -/
inductive Takes (r r' : DecoderRun) : Prop where
  | bit {b} : r.bits = b :: r'.bits → r'.input = r.input → r'.decoder = r.decoder.bit b → Takes r r'
  | byte {byte} : r.input = byte :: r'.input → r'.bits = laterBits byte →
      r'.decoder = r.decoder.bit (firstBit byte) → Takes r r'
  | output : r'.input <:+ r.input → r'.bits = r.bits → r'.decoder = r.decoder.delivered → Takes r r'

/-- A step reads a bit at hand, reads the first bit of the next byte, or puts a byte out. -/
theorem takes_of_step {r r' : DecoderRun} (h : r.step = (none, r')) : Takes r r' := by
  have hstart : r.readByteStart = (none, r') → Takes r r' := by
    intro h
    simp only [readByteStart] at h
    split at h
    · cases h
    · rename_i byte rest hinput
      cases h
      exact .byte hinput rfl rfl
  have hput : ∀ byte, r.put byte = (none, r') → Takes r r' := by
    intro byte h
    simp only [put] at h
    split at h <;> cases h
    exact .output List.suffix_rfl rfl rfl
  simp only [step] at h
  split at h
  · simp only [readBit] at h
    split at h
    · exact hstart h
    · rename_i b bits hbits
      cases h
      exact .bit hbits rfl rfl
  · exact hstart h
  · exact hput _ h
  · exact hput _ h
  · simp only [moveByte] at h
    split at h
    · rename_i hroom
      split at h
      · cases h
      · rename_i byte rest hinput
        simp only [put, dif_pos hroom] at h
        cases h
        exact .output (hinput ▸ List.suffix_cons byte rest) rfl rfl
    · cases h
  · cases h
  · cases h

end DecoderRun

/-! ## Bits read too far -/

namespace Decoder

/-- How many of the bits read last would be given back if the stream turned out corrupt here. -/
def overread (d : Decoder) : Nat :=
  match d.stage with
  | .symbol _ _ depth => depth
  | .broken count => count
  | _ => 0

theorem overread_endBlock (d : Decoder) : d.endBlock.overread = 0 := by
  simp only [endBlock]
  split <;> rfl

theorem overread_nextCodeLength (d : Decoder) (r : LengthReading) :
    (d.nextCodeLength r).overread = 0 := by
  have htables : (d.buildTables r).overread = 0 := by
    simp only [buildTables]
    split <;> rfl
  simp only [nextCodeLength]
  split
  · rfl
  · split
    · exact htables
    · rfl

theorem overread_nextLengthOfLength (d : Decoder) (sizes : TableSizes) (left : Nat)
    (found : List Nat) : (d.nextLengthOfLength sizes left found).overread = 0 := by
  simp only [nextLengthOfLength]
  split
  · split
    · exact overread_nextCodeLength d _
    · rfl
  · rfl

/-- All bits of a field belong to it, so none would be given back. -/
theorem overread_resolveField (d : Decoder) (goal : FieldGoal) (value : Nat) :
    (d.resolveField goal value).overread = 0 := by
  cases goal with
  | flags =>
      simp only [resolveField]
      split <;> rfl
  | blockHeader =>
      simp only [resolveField]
      split <;> rfl
  | storedCheck =>
      simp only [resolveField]
      split
      · rfl
      · split
        · exact overread_endBlock d
        · rfl
  | tableSizes =>
      simp only [resolveField]
      split
      · exact overread_nextLengthOfLength d _ _ _
      · rfl
  | lengthOfLength => exact overread_nextLengthOfLength d _ _ _
  | lengthRun => exact overread_nextCodeLength d _
  | _ => rfl

/-- Nor would any of a code word. -/
theorem overread_resolveSymbol (d : Decoder) (goal : SymbolGoal) (symbol : Nat) :
    (d.resolveSymbol goal symbol).overread = 0 := by
  cases goal with
  | codeLength r =>
      simp only [resolveSymbol]
      split
      · split <;> rfl
      · rfl
      · rfl
      · exact overread_nextCodeLength d _
  | literal tables =>
      simp only [resolveSymbol]
      split
      · rfl
      · split
        · exact overread_endBlock d
        · split <;> rfl
  | distance tables length =>
      simp only [resolveSymbol]
      split <;> rfl

/-- A bit adds at most itself. -/
theorem overread_bit_le (d : Decoder) (b : Bool) : (d.bit b).overread ≤ d.overread + 1 := by
  obtain ⟨lastBlock, stage⟩ := d
  cases stage with
  | field goal width got value =>
      simp only [bit]
      split
      · exact Nat.zero_le _
      · rw [overread_resolveField]
        exact Nat.zero_le _
  | symbol goal tree depth =>
      simp only [bit]
      split
      · rw [overread_resolveSymbol]
        exact Nat.zero_le _
      · exact Nat.le_succ depth
      · exact Nat.le_refl _
  | _ => exact Nat.le_succ _

/-- Putting out a byte gives no bits back. -/
theorem overread_delivered_le (d : Decoder) : d.delivered.overread ≤ d.overread := by
  obtain ⟨lastBlock, stage⟩ := d
  cases stage with
  | copy tables distance left =>
      simp only [delivered]
      split <;> exact Nat.le_refl _
  | stored left =>
      simp only [delivered]
      split
      · rw [overread_endBlock]
        exact Nat.zero_le _
      · exact Nat.le_refl _
  | literal => exact Nat.le_refl _
  | _ => exact Nat.le_refl _

/-- A broken stream tells itself how many bits too many were read. -/
theorem overread_of_broken {d : Decoder} {count : Nat} (h : d.demand = .broken count) :
    d.overread = count := by
  obtain ⟨lastBlock, stage⟩ := d
  cases stage with
  | broken => cases h; rfl
  | field goal width got value => cases goal <;> cases got <;> cases h
  | _ => cases h

end Decoder

/-- Of the bytes that a run took, at least one would not be given back. -/
def DecoderRun.Keeps (total : Nat) (r : DecoderRun) : Prop :=
  r.bits.length + r.decoder.overread + 8 * r.input.length < 8 * total

/-- After another step there is still such a byte. -/
theorem DecoderRun.Keeps.step {total : Nat} {r r' : DecoderRun} (h : r.Keeps total)
    (hstep : r.step = (none, r')) : r'.Keeps total := by
  simp only [Keeps] at h ⊢
  cases takes_of_step hstep with
  | bit hbits hinput hdecoder =>
      have hle := r.decoder.overread_bit_le
      rename_i b
      have := hle b
      rw [hbits, List.length_cons] at h
      rw [hinput, hdecoder]
      omega
  | byte hinput hbits hdecoder =>
      rename_i byte
      have hle := r.decoder.overread_bit_le (firstBit byte)
      have hseven : (laterBits byte).length = 7 := rfl
      rw [hinput, List.length_cons] at h
      rw [hbits, hdecoder, hseven]
      omega
  | output hinput hbits hdecoder =>
      have hle := r.decoder.overread_delivered_le
      have hlength := hinput.length_le
      rw [hbits, hdecoder]
      omega

/-! ## Reads -/

namespace ZlibReader

/-- A stream that was rejected for good: it is corrupt, or its checksum is wrong. -/
def Failed (z : ZlibReader) : Prop :=
  (∃ overread, z.decoder.demand = .broken overread) ∨
    ∃ checksum, z.decoder.demand = .finished checksum ∧ z.sum.value ≠ checksum

variable {z : ZlibReader} {input : List UInt8} {window : Window} {pos : Nat} {more : Bool}

/-- A read of a stream that was rejected for good says so again, and that is all. -/
theorem Failed.read (h : z.Failed) (input : List UInt8) (window : Window) (pos : Nat)
    (more : Bool) : ∃ status, status.rejects = true ∧
      z.read input window pos more = ⟨status, z, window, pos, 0⟩ := by
  let r : DecoderRun := ⟨z.decoder, z.bits, input, window, pos, z.sum⟩
  rcases h with ⟨overread, hdemand⟩ | ⟨checksum, hdemand, hwrong⟩
  · have hrun : DecoderRun.run ⟨z.decoder, z.bits, input, window, pos, z.sum⟩
        = (.corrupt overread, r) :=
      DecoderRun.run_halt (by simp only [DecoderRun.step, hdemand, r])
    refine ⟨.corrupt, rfl, ?_⟩
    simp only [ZlibReader.read, hrun, r, Nat.sub_self, Nat.zero_sub]
  · have hrun : DecoderRun.run ⟨z.decoder, z.bits, input, window, pos, z.sum⟩
        = (.finished checksum, r) :=
      DecoderRun.run_halt (by simp only [DecoderRun.step, hdemand, r])
    refine ⟨.badChecksum, rfl, ?_⟩
    simp only [ZlibReader.read, hrun, r, Nat.sub_self, if_neg hwrong]

/-- A stream that was rejected is at an end. -/
theorem Failed.ended (h : z.Failed) : z.decoder.Ended := by
  rcases h with ⟨_, hdemand⟩ | ⟨_, hdemand, -⟩ <;> simp only [Decoder.Ended, hdemand]

/-- A read after which a stream is rejected for good says so. -/
theorem rejects_of_failed (h : (z.read input window pos more).reader.Failed) :
    (z.read input window pos more).status.rejects = true := by
  have hstops := DecoderRun.run_stops ⟨z.decoder, z.bits, input, window, pos, z.sum⟩
  generalize hrun : DecoderRun.run ⟨z.decoder, z.bits, input, window, pos, z.sum⟩ = result
    at hstops
  obtain ⟨halt, r⟩ := result
  cases hstops with
  | full hgoing =>
      simp only [ZlibReader.read, hrun] at h
      exact absurd h.ended hgoing
  | starved hgoing =>
      cases more with
      | false => simp only [ZlibReader.read, hrun]; rfl
      | true =>
          simp only [ZlibReader.read, hrun, if_true] at h
          exact absurd h.ended hgoing
  | finished hdemand =>
      simp only [ZlibReader.read, hrun] at h ⊢
      split
      · -- the checksum is right
        rename_i hright
        rcases h with ⟨_, hbroken⟩ | ⟨_, hfinished, hwrong⟩
        · exact nomatch hdemand.symm.trans hbroken
        · cases hdemand.symm.trans hfinished
          exact absurd hright hwrong
      · rfl
  | corrupt => simp only [ZlibReader.read, hrun]; rfl

/-- A read rejects a stream for good, or because it breaks off where no more was announced. -/
theorem failed_or_announced (h : (z.read input window pos more).status.rejects = true) :
    (z.read input window pos more).reader.Failed ∨ more = false := by
  have hstops := DecoderRun.run_stops ⟨z.decoder, z.bits, input, window, pos, z.sum⟩
  generalize hrun : DecoderRun.run ⟨z.decoder, z.bits, input, window, pos, z.sum⟩ = result
    at hstops
  obtain ⟨halt, r⟩ := result
  cases hstops with
  | full =>
      simp only [ZlibReader.read, hrun] at h
      exact nomatch h
  | starved =>
      cases more with
      | false => exact Or.inr rfl
      | true =>
          simp only [ZlibReader.read, hrun, if_true] at h
          split at h <;> exact nomatch h
  | finished hdemand =>
      simp only [ZlibReader.read, hrun] at h ⊢
      split at h
      · exact nomatch h
      · rename_i hwrong
        exact Or.inl (Or.inr ⟨_, hdemand, hwrong⟩)
  | corrupt hdemand =>
      simp only [ZlibReader.read, hrun]
      exact Or.inl (Or.inl ⟨_, hdemand⟩)

/-- The first read of a stream takes at least one byte of it. -/
theorem consumed_start_pos (hinput : input ≠ []) :
    0 < (start.read input window pos more).consumed := by
  obtain ⟨byte, rest, rfl⟩ := List.exists_cons_of_ne_nil hinput
  let r : DecoderRun := ⟨.start, [], byte :: rest, window, pos, .empty⟩
  let r' : DecoderRun :=
    ⟨Decoder.start.bit (firstBit byte), laterBits byte, rest, window, pos, .empty⟩
  have hfirst : r.step = (none, r') := rfl
  have hkeeps : r'.Keeps (byte :: rest).length := by
    show 7 + 0 + 8 * rest.length < 8 * (rest.length + 1)
    omega
  obtain ⟨hlast, hstops⟩ := DecoderRun.run_spec DecoderRun.Keeps.step hkeeps
  rw [← DecoderRun.run_on hfirst] at hlast hstops
  generalize hrun : r.run = result at hlast hstops
  obtain ⟨halt, last⟩ := result
  have hrun' : DecoderRun.run ⟨start.decoder, start.bits, byte :: rest, window, pos, start.sum⟩
      = (halt, last) := hrun
  simp only [DecoderRun.Keeps] at hlast
  have hpos : 0 < (byte :: rest).length - last.input.length := by omega
  cases hstops with
  | full =>
      simp only [ZlibReader.read, hrun']
      exact hpos
  | starved =>
      simp only [ZlibReader.read, hrun']
      split <;> exact hpos
  | finished =>
      simp only [ZlibReader.read, hrun']
      exact hpos
  | corrupt hdemand =>
      rw [Decoder.overread_of_broken hdemand] at hlast
      simp only [ZlibReader.read, hrun']
      omega

end ZlibReader
end NorLoader
