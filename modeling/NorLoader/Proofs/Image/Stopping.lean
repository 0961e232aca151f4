import NorLoader.Proofs.Image.ThroughPiece
import NorLoader.Proofs.Image.WholeWindows

/-!
# Where the reading of a piece stops

Cycles go on while there is input to read or output that the window had no room for, and the image is
incomplete.  What ends that is the contract of the reader: a read that can go on has used up the piece,
or it has filled the window.  In the one case no work is left, in the other a window is taken off the
image (`Unpacking.cycleUpTo_stops`).  After the image one read settles the matter, as there is room in
the window when it begins: there is more output, or no work is left (`Unpacking.readTrailing_stops`).
-/

namespace NorLoader

namespace Unpacker

variable {ρ : Type} [StreamReader ρ] [LawfulStreamReader ρ]

/-- A read that wants more input leaves more of the stream announced. -/
theorem readOnce_goesOn {u : Unpacker ρ} (hheld : u.held ≤ windowSize) (piece : List UInt8) :
    let read := u.readOnce piece
    read.2.2.held ≤ windowSize ∧
    (read.1.goesOn = true →
      read.1 = .windowFull ∧ read.2.2.held = windowSize ∨
      read.1 = .needsInput ∧ read.2.1 = piece.length ∧ read.2.2.packedLeft ≠ 0) := by
  intro read
  refine ⟨LawfulStreamReader.pos_read_le _ _ _ _ _ hheld, fun hgo => ?_⟩
  rcases LawfulStreamReader.read_goesOn u.reader piece u.window u.held
    (u.packedLeft.toNat > piece.length) hheld hgo with hfull | ⟨hstatus, hconsumed, hmore⟩
  · exact Or.inl hfull
  · have hmore : piece.length < u.packedLeft.toNat := of_decide_eq_true hmore
    have hleft := u.packedLeft_readOnce piece
    have hconsumed : (u.readOnce piece).2.1 = piece.length := hconsumed
    rw [hconsumed, List.drop_length, List.length_nil] at hleft
    refine Or.inr ⟨hstatus, hconsumed, ?_⟩
    intro hzero
    have hzero : (u.readOnce piece).2.2.packedLeft.toNat = 0 := congrArg UInt32.toNat hzero
    omega

end Unpacker

namespace Unpacking

variable {δ ρ : Type} [StreamReader ρ] [LawfulStreamReader ρ] {k : Unpacking δ ρ}

/-! ## Cycles -/

section Cycles

variable [FlashDevice δ]

/-- After a cycle that can go on the window was handed over or the piece is used up, and with the piece
    more of the stream is announced. -/
theorem cycle_goesOn (hheld : k.unpacker.held ≤ windowSize) (hgo : k.cycle.status.goesOn = true) :
    k.cycle.status = .windowFull ∧
      k.cycle.job.remaining.toNat = k.job.remaining.toNat - windowSize ∨
    k.cycle.status = .needsInput ∧ k.cycle.unpacker.packedLeft ≠ 0 ∧ k.cycle.rest = [] := by
  obtain ⟨-, hgoes⟩ := Unpacker.readOnce_goesOn hheld k.rest
  rw [k.status_cycle] at hgo
  rw [k.status_cycle, k.packedLeft_cycle, k.rest_cycle]
  rcases hgoes hgo with ⟨hfull, hend⟩ | ⟨hneeds, hconsumed, hmore⟩
  · refine Or.inl ⟨hfull, ?_⟩
    have hheldRead : k.afterRead.unpacker.held = windowSize := by
      rw [k.unpacker_afterRead]
      exact hend
    have hover : k.afterRead.handsOver = true := by
      rw [handsOver, hheldRead, decide_eq_true rfl, Bool.or_true]
    rw [cycle_eq, if_pos hover]
    exact remaining_handOver_full hheldRead
  · refine Or.inr ⟨hneeds, hmore, ?_⟩
    rw [hconsumed, List.drop_length]

/-- A window that a cycle filled was handed over. -/
theorem held_cycle_lt (h : k.unpacker.held ≤ windowSize) : k.cycle.unpacker.held < windowSize := by
  rw [cycle_eq]
  by_cases hover : k.afterRead.handsOver = true
  · rw [if_pos hover]
    exact Nat.zero_lt_succ _
  · rw [if_neg hover]
    have hle : k.afterRead.unpacker.held ≤ windowSize := by
      rw [k.unpacker_afterRead]
      exact (Unpacker.readOnce_goesOn h k.rest).1
    refine Nat.lt_of_le_of_ne hle ?_
    intro hfull
    simp [handsOver, hfull] at hover

/-- Nor does any number of cycles leave a full window. -/
theorem held_cycleUpTo_lt (n : Nat) (h : k.unpacker.held < windowSize) :
    (k.cycleUpTo n).unpacker.held < windowSize :=
  cycleUpTo_induct (P := fun k : Unpacking δ ρ => k.unpacker.held < windowSize)
    (fun h => held_cycle_lt (Nat.le_of_lt h)) n h

/-- Enough cycles leave no work, or the image complete. -/
theorem cycleUpTo_stops (n : Nat) (hheld : k.unpacker.held ≤ windowSize)
    (henough : k.job.remaining.toNat ≤ n * windowSize) :
    (k.cycleUpTo n).canGoOn = false ∨ (k.cycleUpTo n).job.remaining = 0 := by
  induction n generalizing k with
  | zero =>
      rw [Nat.zero_mul] at henough
      exact Or.inr (UInt32.toNat_inj.mp (Nat.le_zero.mp henough))
  | succ n ih =>
      by_cases hgo : (k.canGoOn && decide (k.job.remaining > 0)) = true
      · rw [cycleUpTo, if_pos hgo]
        -- without work further cycles change nothing
        have hend (hstop : k.cycle.canGoOn = false) : (k.cycle.cycleUpTo n).canGoOn = false ∨
            (k.cycle.cycleUpTo n).job.remaining = 0 := by
          rw [cycleUpTo_of_stop n (Or.inl hstop)]
          exact Or.inl hstop
        cases hstatus : k.cycle.status.goesOn with
        | false => exact hend (by rw [canGoOn, hstatus, Bool.false_and])
        | true =>
            rcases cycle_goesOn hheld hstatus with ⟨-, hremaining⟩ | ⟨hneeds, -, hrest⟩
            · refine ih (Nat.le_of_lt (held_cycle_lt hheld)) ?_
              rw [Nat.succ_mul] at henough
              omega
            · refine hend (canGoOn_of_rest_nil hrest ?_)
              rw [hneeds]
              decide
      · rw [cycleUpTo, if_neg hgo]
        rw [Bool.and_eq_true, not_and_or, Bool.not_eq_true, decide_eq_true_iff] at hgo
        exact hgo.imp_right fun hnone => by simpa using hnone

end Cycles

/-! ## After the image -/

omit [LawfulStreamReader ρ] in
/-- Output that comes after the image is not kept. -/
theorem held_readTrailing_lt (h : k.unpacker.held < windowSize) :
    k.readTrailing.unpacker.held < windowSize := by
  simp only [readTrailing]
  split
  · split
    · exact Nat.zero_lt_succ _
    · rename_i hnone
      exact Nat.lt_of_le_of_lt (Nat.le_of_not_lt hnone) h
  · exact h

/-- A read without output leaves no work, if there was room in the window. -/
theorem canGoOn_of_no_output {u : Unpacker ρ} {piece : List UInt8} (hheld : u.held < windowSize)
    (hnone : ¬(u.readOnce piece).2.2.held > u.held) (hstatus : k.status = (u.readOnce piece).1)
    (hrest : k.rest = piece.drop (u.readOnce piece).2.1) : k.canGoOn = false := by
  cases hgo : k.status.goesOn with
  | false => rw [canGoOn, hgo, Bool.false_and]
  | true =>
      rw [hstatus] at hgo
      obtain ⟨-, hgoes⟩ := Unpacker.readOnce_goesOn (Nat.le_of_lt hheld) piece
      rcases hgoes hgo with ⟨-, hfull⟩ | ⟨hneeds, hconsumed, -⟩
      · exact absurd (Nat.lt_of_lt_of_eq hheld hfull.symm) hnone
      · refine canGoOn_of_rest_nil ?_ ?_
        · rw [hrest, hconsumed, List.drop_length]
        · rw [hstatus, hneeds]
          decide

/-- After the image a read that puts nothing out stops too. -/
theorem readTrailing_stops (hheld : k.unpacker.held < windowSize)
    (hstop : k.canGoOn = false ∨ k.job.remaining = 0) :
    k.readTrailing.excess = true ∨ k.readTrailing.canGoOn = false := by
  by_cases hgo : (k.canGoOn && decide (k.job.remaining = 0)) = true
  · rw [readTrailing, if_pos hgo]
    by_cases hmore : (k.unpacker.readOnce k.rest).2.2.held > k.unpacker.held
    · simp only [if_pos hmore]
      exact Or.inl trivial
    · simp only [if_neg hmore]
      exact Or.inr (canGoOn_of_no_output hheld hmore rfl rfl)
  · refine Or.inr ?_
    rw [readTrailing, if_neg hgo]
    rcases hstop with hend | hcomplete
    · exact hend
    · rw [hcomplete, decide_eq_true rfl, Bool.and_true, Bool.not_eq_true] at hgo
      exact hgo

end Unpacking

namespace Unpacker

variable {δ ρ : Type} [StreamReader ρ] [LawfulStreamReader ρ] [FlashDevice δ] {u : Unpacker ρ}

/-- The cycles for a piece are enough, and leave room in the window. -/
theorem cycles_stop (h : u.held < windowSize) (j : Job) (piece : List UInt8) (d : δ) :
    let k := (⟨u, j, d, piece, .needsInput, false⟩ : Unpacking δ ρ).cycleUpTo
      (j.remaining.toNat / windowSize + 2)
    k.unpacker.held < windowSize ∧ (k.canGoOn = false ∨ k.job.remaining = 0) :=
  ⟨Unpacking.held_cycleUpTo_lt _ h,
    Unpacking.cycleUpTo_stops _ (Nat.le_of_lt h) (Nat.le_of_lt (Unpacking.enough_reads _))⟩

/-- A piece that was read leaves room in the window. -/
theorem held_readThrough_lt (h : u.held < windowSize) (j : Job) (piece : List UInt8) (d : δ) :
    (u.readThrough j piece d).unpacker.held < windowSize :=
  Unpacking.held_readTrailing_lt (cycles_stop h j piece d).1

/-- A piece leaves room in the window. -/
theorem held_unpack_lt (h : u.held < windowSize) (j : Job) (piece : List UInt8) (d : δ) :
    (u.unpack j piece d).1.held < windowSize := by
  by_cases hcomplete : u.phase = .complete
  · rw [unpack, if_pos hcomplete]
    exact h
  · rw [unpack_eq hcomplete]
    exact held_readThrough_lt h j piece d

/-- A piece is read until no work is left, or there is more output than the image has bytes. -/
theorem readThrough_stops (h : u.held < windowSize) (j : Job) (piece : List UInt8) (d : δ) :
    (u.readThrough j piece d).excess = true ∨ (u.readThrough j piece d).canGoOn = false :=
  Unpacking.readTrailing_stops (cycles_stop h j piece d).1 (cycles_stop h j piece d).2

end Unpacker
end NorLoader
