import NorLoader.Proofs.Flash.Spinning
import NorLoader.Proofs.Image.Stopping

/-!
# Reading without a bound

A piece of a stream is read by two loops that have no bound of their own: one for as long as the image
is incomplete, one for what follows it.  Either goes on while there is input to read or output that the
window had no room for.  They are given here as they run, with every slice that they take checked
against the list that it is taken from, and shown to give what `Unpacking.cycleUpTo` and
`Unpacking.readTrailing` give.

The first loop ends because enough cycles do (`Unpacking.cycleUpTo_stops`).  The second turns once: there
is room in the window when it begins, so output or the end of the piece settles it.
-/

namespace NorLoader

namespace Spinning

variable {capacity : Nat}

/-! ## Writing -/

/-- Writes the next bytes of the image, as many as the job takes. -/
def write (j : Job) (storage : Storage) (data : List UInt8) (s : Simulator capacity) :
    Part (Job × Simulator capacity) :=
  let count := min data.length j.remaining.toNat
  if count = 0 then Part.some (j, s)
  else do
    let bytes ← sliceTo count data
    let (plan, s) ← coverThrough (sectorIndex (satAdd j.cursor (UInt32.ofNat count))) j.plan s
    let s ← awaitIdle s
    let j := { j with plan := plan }
    match Job.programVia storage j.cursor bytes s with
    | (.ok (), s) => return (j.past (UInt32.ofNat count), s)
    | (.error _, s) => return ((j.note .programFailed).past (UInt32.ofNat count), s)

/-- A write ends, and no more of the data is taken than there is. -/
theorem write_eq (j : Job) (storage : Storage) (data : List UInt8) (s : Simulator capacity) :
    write j storage data s = Part.some (j.write storage data s) := by
  have hcount : min data.length j.remaining.toNat = (j.accepted data).length := by
    rw [Job.accepted, List.length_take, Nat.min_comm]
  have hbytes : sliceTo (j.accepted data).length data = Part.some (j.accepted data) := by
    rw [← hcount, sliceTo_eq (Nat.min_le_left _ _), Nat.min_comm, ← List.take_eq_take_min]
    rfl
  by_cases hnone : j.accepted data = []
  · rw [Job.write_of_accepted_nil j storage data s hnone, write, hcount, hnone]
    rfl
  · have hsome : (j.accepted data).length ≠ 0 := fun h => hnone (List.length_eq_zero_iff.mp h)
    rw [Job.write_of_accepted_ne j storage data s hnone, write]
    simp only [hcount, if_neg hsome, hbytes, coverThrough_eq, awaitIdle_eq, Part.bind_eq_bind,
      Part.bind_some, Job.deliver, Job.lastSectorOf]
    split <;> rename_i hresult <;> rw [hresult] <;> rfl

/-- Issues the next erase of a job if the device is idle; tells whether it did. -/
def eraseAhead (j : Job) (s : Simulator capacity) : Part (Bool × Job × Simulator capacity) := do
  let (issued, plan, s) ← issueIfIdle j.plan s
  return (issued, { j with plan := plan }, s)

/-- Erasing ahead ends. -/
theorem eraseAhead_eq (j : Job) (s : Simulator capacity) :
    eraseAhead j s = Part.some (j.eraseAhead s) := by
  rw [eraseAhead, issueIfIdle_eq]
  exact Part.bind_some _ _

/-! ## Reading a piece -/

/-- Hands the start of the window to the job. -/
def handOver (k : Unpacking (Simulator capacity)) : Part (Unpacking (Simulator capacity)) := do
  let excess := k.excess || k.unpacker.held > k.job.remaining.toNat
  let output ← sliceTo k.unpacker.held k.unpacker.window.toList
  let (job, device) ← write k.job .plain output k.device
  return { k with unpacker := { k.unpacker with held := 0 }, job, device, excess }

/-- Handing over ends. -/
theorem handOver_eq {k : Unpacking (Simulator capacity)} (h : k.unpacker.held ≤ windowSize) :
    handOver k = Part.some k.handOver := by
  have hfits : k.unpacker.held ≤ k.unpacker.window.toList.length := by
    rw [Vector.length_toList]
    exact h
  rw [handOver, sliceTo_eq hfits]
  simp only [write_eq, Part.bind_eq_bind, Part.bind_some]
  rfl

/-- One turn of the loop for an image that is incomplete. -/
def cycle (k : Unpacking (Simulator capacity)) : Part (Unpacking (Simulator capacity)) := do
  let (_, job, device) ← eraseAhead k.job k.device
  let (status, consumed, unpacker) := k.unpacker.readOnce k.rest
  let rest ← sliceFrom consumed k.rest
  let unpacker := if consumed > 0 then { unpacker with phase := .reading } else unpacker
  let k := { k with unpacker, job, device, rest, status }
  if !status.goesOn || unpacker.held = windowSize then handOver k else Part.some k

/-- A cycle ends. -/
theorem cycle_eq {k : Unpacking (Simulator capacity)} (h : k.unpacker.held ≤ windowSize) :
    cycle k = Part.some k.cycle := by
  have hle : k.afterRead.unpacker.held ≤ windowSize := by
    rw [k.unpacker_afterRead]
    exact (Unpacker.readOnce_goesOn h k.rest).1
  have hread : cycle k
      = if k.afterRead.handsOver then handOver k.afterRead else Part.some k.afterRead := by
    rw [cycle, eraseAhead_eq]
    simp only [sliceFrom_eq (k.unpacker.consumed_readOnce_le k.rest), Part.bind_eq_bind,
      Part.bind_some]
    rfl
  rw [hread, Unpacking.cycle_eq, handOver_eq hle]
  exact (apply_ite Part.some _ _ _).symm

/-- A cycle, if there is work and the image is incomplete. -/
def readTurn (k : Unpacking (Simulator capacity)) :
    Part (Unpacking (Simulator capacity) ⊕ Unpacking (Simulator capacity)) :=
  if k.canGoOn && k.job.remaining > 0 then (cycle k).map .inr else Part.some (.inl k)

/-- Reads a piece while there is work and the image is incomplete. -/
def readOn : Unpacking (Simulator capacity) → Part (Unpacking (Simulator capacity)) :=
  PFun.fix readTurn

/-- Without work there is no cycle to wait for. -/
theorem readOn_of_stop {k : Unpacking (Simulator capacity)}
    (h : k.canGoOn = false ∨ k.job.remaining = 0) : readOn k = Part.some k := by
  refine fix_of_leave ?_
  rcases h with hend | hcomplete
  · simp [readTurn, hend]
  · simp [readTurn, hcomplete]

/-- With work there is a cycle, and then the rest. -/
theorem readOn_of_work {k : Unpacking (Simulator capacity)}
    (h : (k.canGoOn && decide (k.job.remaining > 0)) = true) (hheld : k.unpacker.held ≤ windowSize) :
    readOn k = readOn k.cycle :=
  fix_of_again (by rw [readTurn, if_pos h, cycle_eq hheld, Part.map_some])

/-- The first loop ends where enough cycles stop. -/
theorem readOn_eq_cycleUpTo (n : Nat) {k : Unpacking (Simulator capacity)}
    (hheld : k.unpacker.held ≤ windowSize)
    (hstop : (k.cycleUpTo n).canGoOn = false ∨ (k.cycleUpTo n).job.remaining = 0) :
    readOn k = Part.some (k.cycleUpTo n) := by
  induction n generalizing k with
  | zero => exact readOn_of_stop hstop
  | succ n ih =>
      by_cases hgo : (k.canGoOn && decide (k.job.remaining > 0)) = true
      · rw [Unpacking.cycleUpTo, if_pos hgo] at hstop ⊢
        rw [readOn_of_work hgo hheld]
        exact ih (Nat.le_of_lt (Unpacking.held_cycle_lt hheld)) hstop
      · rw [Unpacking.cycleUpTo, if_neg hgo] at hstop ⊢
        exact readOn_of_stop hstop

/-- A read after the image is complete, if there is work.  More output settles the matter, and there is
    no point in another turn after a read that took nothing and has not filled the window. -/
def trailingTurn (k : Unpacking (Simulator capacity)) :
    Part (Unpacking (Simulator capacity) ⊕ Unpacking (Simulator capacity)) :=
  if k.canGoOn && k.job.remaining = 0 then do
    let (status, consumed, unpacker) := k.unpacker.readOnce k.rest
    let rest ← sliceFrom consumed k.rest
    let after := { k with unpacker, rest, status }
    if unpacker.held > k.unpacker.held then
      return .inl { after with unpacker := { unpacker with held := 0 }, excess := true }
    else if consumed = 0 ∧ status ≠ .windowFull then return .inl after
    else return .inr after
  else Part.some (.inl k)

/-- Reads on after the image is complete. -/
def readTrailing : Unpacking (Simulator capacity) → Part (Unpacking (Simulator capacity)) :=
  PFun.fix trailingTurn

/-- Nor is there anything to read on. -/
theorem readTrailing_of_stop {k : Unpacking (Simulator capacity)}
    (h : ¬(k.canGoOn && decide (k.job.remaining = 0)) = true) : readTrailing k = Part.some k :=
  fix_of_leave (by rw [trailingTurn, if_neg h])

/-- The second loop ends after one turn: without more output the window is not full, so the piece is
    used up or the stream is at its end. -/
theorem readTrailing_eq {k : Unpacking (Simulator capacity)} (hheld : k.unpacker.held < windowSize) :
    readTrailing k = Part.some k.readTrailing := by
  by_cases hgo : (k.canGoOn && decide (k.job.remaining = 0)) = true
  · let read := k.unpacker.readOnce k.rest
    let after : Unpacking (Simulator capacity) :=
      ⟨read.2.2, k.job, k.device, k.rest.drop read.2.1, read.1, k.excess⟩
    let overfull : Unpacking (Simulator capacity) :=
      { after with unpacker := { read.2.2 with held := 0 }, excess := true }
    have hturn : trailingTurn k = Part.some (if read.2.2.held > k.unpacker.held then .inl overfull
        else if read.2.1 = 0 ∧ read.1 ≠ .windowFull then .inl after else .inr after) := by
      rw [trailingTurn, if_pos hgo]
      simp only [sliceFrom_eq (k.unpacker.consumed_readOnce_le k.rest), Part.bind_eq_bind,
        Part.bind_some]
      split_ifs <;> rfl
    have hread : k.readTrailing = if read.2.2.held > k.unpacker.held then overfull else after := by
      rw [Unpacking.readTrailing, if_pos hgo]
    rw [hread]
    by_cases hmore : read.2.2.held > k.unpacker.held
    · rw [if_pos hmore] at hturn ⊢
      exact fix_of_leave hturn
    rw [if_neg hmore] at hturn ⊢
    have hend : after.canGoOn = false := Unpacking.canGoOn_of_no_output hheld hmore rfl rfl
    by_cases hnothing : read.2.1 = 0 ∧ read.1 ≠ .windowFull
    · rw [if_pos hnothing] at hturn
      exact fix_of_leave hturn
    · rw [if_neg hnothing] at hturn
      exact (fix_of_again hturn).trans (readTrailing_of_stop (by simp [hend]))
  · rw [readTrailing_of_stop hgo, Unpacking.readTrailing, if_neg hgo]

/-- Unpacks a piece of the stream into the job. -/
def unpack (u : Unpacker) (j : Job) (piece : List UInt8) (s : Simulator capacity) :
    Part (Unpacker × Job × Simulator capacity) :=
  if u.phase = .complete then Part.some (u, if piece.isEmpty then j else j.note .excessData, s)
  else do
    let k ← readOn ⟨u, j, s, piece, .needsInput, false⟩
    let k ← readTrailing k
    return k.settle

/-- A piece ends, if there is room in the window before it. -/
theorem unpack_eq {u : Unpacker} (hheld : u.held < windowSize) (j : Job) (piece : List UInt8)
    (s : Simulator capacity) : unpack u j piece s = Part.some (u.unpack j piece s) := by
  by_cases hcomplete : u.phase = .complete
  · rw [unpack, if_pos hcomplete, Unpacker.unpack, if_pos hcomplete]
  · obtain ⟨hroom, hstop⟩ := Unpacker.cycles_stop hheld j piece s
    rw [unpack, if_neg hcomplete, Unpacker.unpack, if_neg hcomplete,
      readOn_eq_cycleUpTo _ (Nat.le_of_lt hheld) hstop]
    simp only [Part.bind_eq_bind, Part.bind_some, readTrailing_eq hroom]
    rfl

end Spinning
end NorLoader
