import Mathlib.Data.PFun
import NorLoader.Proofs.Flash.EraseFrontier

/-!
# Spinning on a device

Nothing bounds the waits of a loader.  It polls until the device is idle, and to erase up to a sector it
asks for the next erase again and again, whether or not the device took the last one.  The bounds that
`awaitIdle` and `coverThrough` have are there to make them total.

So here are the same loops without a bound, as partial functions: `PFun.fix` repeats a turn until the turn
leaves the loop, and has no value where it never does.  Nor is there a value where a slice is taken that
its list is too short for.  Each loop is shown to have the value of its bounded counterpart.  An erase
that finds the device busy costs a poll and changes nothing else, so it comes down to a wait
(`Spinning.coverThrough_of_next`); and every erase takes sectors off the plan.
-/

namespace NorLoader

/-! ## Slices -/

/-- The first `n` bytes of a slice that has as many. -/
def sliceTo (n : Nat) (bytes : List UInt8) : Part (List UInt8) :=
  Part.assert (n ≤ bytes.length) fun _ => Part.some (bytes.take n)

/-- A slice from its `n`th byte on, if it reaches that far. -/
def sliceFrom (n : Nat) (bytes : List UInt8) : Part (List UInt8) :=
  Part.assert (n ≤ bytes.length) fun _ => Part.some (bytes.drop n)

/-- A slice that is not too long is there. -/
theorem sliceTo_eq {n : Nat} {bytes : List UInt8} (h : n ≤ bytes.length) :
    sliceTo n bytes = Part.some (bytes.take n) := Part.assert_pos h

/-- So is one that starts no later than the bytes end. -/
theorem sliceFrom_eq {n : Nat} {bytes : List UInt8} (h : n ≤ bytes.length) :
    sliceFrom n bytes = Part.some (bytes.drop n) := Part.assert_pos h

namespace Spinning

/-! ## Loops -/

section Loops

variable {σ β : Type} {turn : σ → Part (β ⊕ σ)} {s s' : σ}

/-- A turn that leaves the loop gives its value. -/
theorem fix_of_leave {b : β} (h : turn s = Part.some (.inl b)) : PFun.fix turn s = Part.some b :=
  Part.eq_some_iff.mpr (PFun.fix_stop (Part.eq_some_iff.mp h))

/-- A turn that stays in the loop may be skipped. -/
theorem fix_of_again (h : turn s = Part.some (.inr s')) : PFun.fix turn s = PFun.fix turn s' :=
  PFun.fix_fwd_eq (Part.eq_some_iff.mp h)

end Loops

variable {capacity : Nat}

/-! ## Waiting -/

/-- Polls until the answer is yes. -/
def awaitIdle : Simulator capacity → Part (Simulator capacity) :=
  PFun.fix fun s =>
    let (ready, s) := s.poll
    Part.some (if ready then .inl s else .inr s)

/-- A wait ends, since every poll that finds the device busy brings it closer to being idle. -/
theorem awaitIdle_eq (s : Simulator capacity) :
    awaitIdle s = Part.some (FlashDevice.awaitIdle s) := by
  rw [Simulator.awaitIdle_eq]
  induction hbusy : s.busy generalizing s with
  | zero =>
      refine fix_of_leave ?_
      simp [Simulator.poll, hbusy]
  | succ n ih =>
      let polled := { s with polls := s.polls + 1, busy := s.busy - 1 }
      have hpolls : s.polls + 1 + n + 1 = s.polls + (n + 1) + 1 := by omega
      have hagain : awaitIdle s = awaitIdle polled := by
        refine fix_of_again ?_
        simp [Simulator.poll, hbusy, polled]
      rw [hagain, ih polled (by simp [polled, hbusy])]
      simp [polled, hpolls]

/-- Waits for the device to be idle and sets the write enable latch. -/
def enableWrite (s : Simulator capacity) : Part (Simulator capacity) := do
  let s ← awaitIdle s
  return { s.record .enableWrite with writeEnabled := true }

/-- Setting the latch ends, as the wait in it does. -/
theorem enableWrite_eq (s : Simulator capacity) : enableWrite s = Part.some s.enableWrite := by
  rw [enableWrite, awaitIdle_eq]
  exact Part.bind_some _ _

/-! ## Erasing -/

/-- Issues the next erase of a plan if there is one and the device is idle; tells whether it did. -/
def issueIfIdle (p : ErasePlan) (s : Simulator capacity) :
    Part (Bool × ErasePlan × Simulator capacity) :=
  match p.nextSize with
  | none => Part.some (false, p, s)
  | some size =>
      match s.poll with
      | (false, s) => Part.some (false, p, s)
      | (true, s) => do
          let s ← enableWrite s
          return (true, p.after size, s.erase p.nextAddress size)

/-- An erase ahead ends. -/
theorem issueIfIdle_eq (p : ErasePlan) (s : Simulator capacity) :
    issueIfIdle p s = Part.some (p.issueIfIdle s) := by
  cases hnext : p.nextSize with
  | none => simp [issueIfIdle, ErasePlan.issueIfIdle, hnext]
  | some size =>
      by_cases hidle : s.busy = 0
      · simp [issueIfIdle, ErasePlan.issueIfIdle, hnext, FlashDevice.poll, Simulator.poll, hidle,
          enableWrite_eq, ErasePlan.issue, FlashDevice.erase, FlashDevice.enableWrite]
      · simp [issueIfIdle, ErasePlan.issueIfIdle, hnext, FlashDevice.poll, Simulator.poll, hidle]

/-- Asks for the next erase unless a sector is covered or nothing is left, not minding whether the
    device was idle for it. -/
def coverTurn (last : UInt32) : ErasePlan × Simulator capacity →
    Part ((ErasePlan × Simulator capacity) ⊕ (ErasePlan × Simulator capacity))
  | (p, s) =>
      if !p.isEmpty && p.first ≤ last then do
        let (_, p, s) ← issueIfIdle p s
        return .inr (p, s)
      else Part.some (.inl (p, s))

/-- Erases until a sector is covered or nothing is left. -/
def coverThrough (last : UInt32) (p : ErasePlan) (s : Simulator capacity) :
    Part (ErasePlan × Simulator capacity) :=
  PFun.fix (coverTurn last) (p, s)

/-- Up to a sector that is erased already there is nothing to do. -/
theorem coverThrough_of_covers {last : UInt32} {p : ErasePlan} (h : p.Covers last)
    (s : Simulator capacity) : coverThrough last p s = Part.some (p, s) := by
  refine fix_of_leave ?_
  rcases h with hempty | hpast
  · simp [coverTurn, hempty]
  · simp [coverTurn, UInt32.not_le.mpr hpast]

/-- As long as the device is busy nothing but polls comes of asking, so the next erase comes after a
    wait. -/
theorem coverThrough_of_next {last : UInt32} {p : ErasePlan} {size : EraseSize}
    (hnext : p.nextSize = some size) (hfirst : p.first ≤ last) (s : Simulator capacity) :
    coverThrough last p s = coverThrough last (p.issue size (FlashDevice.awaitIdle s)).1
      (p.issue size (FlashDevice.awaitIdle s)).2 := by
  have hleft : p.isEmpty = false := by
    cases hempty : p.isEmpty with
    | false => rfl
    | true => simp [ErasePlan.nextSize, hempty] at hnext
  rw [Simulator.awaitIdle_eq]
  induction hbusy : s.busy generalizing s with
  | zero =>
      refine fix_of_again ?_
      simp [coverTurn, hleft, hfirst, issueIfIdle_eq, ErasePlan.issueIfIdle, hnext, FlashDevice.poll,
        Simulator.poll, hbusy]
  | succ n ih =>
      let polled := { s with polls := s.polls + 1, busy := s.busy - 1 }
      have hpolls : s.polls + 1 + n + 1 = s.polls + (n + 1) + 1 := by omega
      have hagain : coverThrough last p s = coverThrough last p polled := by
        refine fix_of_again ?_
        simp [coverTurn, hleft, hfirst, issueIfIdle_eq, ErasePlan.issueIfIdle, hnext,
          FlashDevice.poll, Simulator.poll, hbusy, polled]
      rw [hagain, ih polled (by simp [polled, hbusy])]
      simp [polled, hpolls]

/-- The erases up to a sector end, after as many turns as there are sectors at most. -/
theorem coverThrough_eq_issueUpTo (last : UInt32) (n : Nat) (p : ErasePlan) (s : Simulator capacity)
    (h : p.count.toNat ≤ n) : coverThrough last p s = Part.some (p.issueUpTo last n s) := by
  induction n generalizing p s with
  | zero =>
      have hempty : p.isEmpty = true := (ErasePlan.isEmpty_iff p).mpr (Nat.le_zero.mp h)
      exact coverThrough_of_covers (Or.inl hempty) s
  | succ n ih =>
      cases hnext : p.nextSize with
      | none =>
          rw [coverThrough_of_covers (Or.inl (ErasePlan.nextSize_none hnext))]
          simp only [ErasePlan.issueUpTo, hnext]
      | some size =>
          by_cases hfirst : p.first ≤ last
          · have hless : (p.issue size (FlashDevice.awaitIdle s)).1.count.toNat ≤ n := by
              have hpos := size.sectors_pos
              have hcount : (p.issue size (FlashDevice.awaitIdle s)).1.count.toNat
                  = p.count.toNat - size.sectors := ErasePlan.toNat_count_after hnext
              omega
            rw [coverThrough_of_next hnext hfirst, ih _ _ hless]
            simp only [ErasePlan.issueUpTo, hnext, if_pos hfirst]
          · rw [coverThrough_of_covers (Or.inr (UInt32.not_le.mp hfirst))]
            simp only [ErasePlan.issueUpTo, hnext, if_neg hfirst]

/-- Erasing up to a sector ends: every erase takes sectors off the plan, and in between the device
    gets closer to being idle. -/
theorem coverThrough_eq (last : UInt32) (p : ErasePlan) (s : Simulator capacity) :
    coverThrough last p s = Part.some (p.coverThrough last s) :=
  coverThrough_eq_issueUpTo last _ p s (Nat.le_refl _)

end Spinning
end NorLoader
