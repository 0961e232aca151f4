import NorLoader.Proofs.Image.Upkeep

/-!
# Where a job is

A job that was opened for `size` bytes at `offset` and handed `n` of them to the device is at
`offset + n`, whatever became of the bytes (`Spans`).  The cells from there to the erase frontier
are erased and those of the bytes before lie behind it (`Placed`): this is what lets the next
bytes be programmed, and what keeps the next erase off the bytes before.
-/

namespace NorLoader

namespace Job

/-! ## A delivery to the simulated device -/

/-- A delivery either programs its bytes or leaves the cells alone and keeps an error. -/
theorem deliver_cases {capacity : Nat} (j : Job) (v : Delivery) (s : Simulator capacity) :
    ((j.deliver v s).1 = j.past (UInt32.ofNat v.bytes.length) ∧
        j.cursor.toNat + v.bytes.length ≤ capacity ∧
        (j.deliver v s).2.cells
          = s.cells.program j.cursor.toNat (Simulator.storedBytes v.storage v.bytes) ∧
        (j.deliver v s).2.misuses = s.misuses
          ++ ((FlashDevice.awaitIdle s).deliveryMisuses v.storage j.cursor
            ++ (s.cells.unerased j.cursor.toNat v.bytes.length).map Misuse.notErased)) ∨
      ((j.deliver v s).1 = (j.note .programFailed).past (UInt32.ofNat v.bytes.length) ∧
        (j.deliver v s).2.cells = s.cells ∧
        (j.deliver v s).2.misuses = s.misuses
          ++ (FlashDevice.awaitIdle s).deliveryMisuses v.storage j.cursor) := by
  cases hv : programVia v.storage j.cursor v.bytes (FlashDevice.awaitIdle s) with
  | mk result s' =>
      cases result with
      | ok =>
          obtain ⟨hin, hprogram, -, hseen⟩ := Simulator.programVia_ok hv
          rw [Simulator.cells_awaitIdle] at hprogram hseen
          rw [Simulator.misuses_awaitIdle] at hseen
          simp only [deliver, hv]
          exact Or.inl ⟨trivial, hin, hprogram, hseen⟩
      | error fault =>
          obtain ⟨hkeep, -, hseen⟩ := Simulator.programVia_error hv
          rw [Simulator.cells_awaitIdle] at hkeep
          rw [Simulator.misuses_awaitIdle] at hseen
          simp only [deliver, hv]
          exact Or.inr ⟨trivial, hkeep, hseen⟩

/-- A delivery adds its calls to the log. -/
theorem calls_deliver {capacity : Nat} (j : Job) (v : Delivery) (s : Simulator capacity) :
    (j.deliver v s).2.calls
      = s.calls ++ Simulator.programCalls v.storage j.cursor v.bytes := by
  cases hv : programVia v.storage j.cursor v.bytes (FlashDevice.awaitIdle s) with
  | mk result s' =>
      simp only [deliver, hv]
      rw [← Simulator.calls_awaitIdle s]
      cases result with
      | ok => exact (Simulator.programVia_ok hv).2.2.1
      | error fault => exact (Simulator.programVia_error hv).2.1

/-- How a delivery ends is told by the conduct of the device. -/
theorem deliver_conduct {capacity : Nat} (j : Job) (v : Delivery) (s : Simulator capacity) :
    (j.deliver v s).1
        = (if s.conduct.succeeds capacity v.storage j.cursor v.bytes.length then j
            else j.note .programFailed).past (UInt32.ofNat v.bytes.length) ∧
      (j.deliver v s).2.conduct
        = s.conduct.next capacity v.storage j.cursor v.bytes.length := by
  obtain ⟨hok, hnext⟩ := Simulator.programVia_conduct v.storage j.cursor v.bytes
    (FlashDevice.awaitIdle s)
  rw [Simulator.conduct_awaitIdle] at hok hnext
  cases hv : programVia v.storage j.cursor v.bytes (FlashDevice.awaitIdle s) with
  | mk result s' =>
      rw [hv] at hok hnext
      simp only [deliver, hv]
      cases result with
      | ok => exact ⟨by rw [if_pos (hok.mp rfl)], hnext⟩
      | error fault =>
          have hfails : ¬s.conduct.succeeds capacity v.storage j.cursor v.bytes.length = true := by
            intro hs
            cases hok.mpr hs
          exact ⟨by rw [if_neg hfails], hnext⟩

/-- A delivery programs its bytes if the conduct of the device lets it, and else leaves the cells
    alone. -/
theorem cells_deliver {capacity : Nat} (j : Job) (v : Delivery) (s : Simulator capacity) :
    (j.deliver v s).2.cells
      = if s.conduct.succeeds capacity v.storage j.cursor v.bytes.length then
          s.cells.program j.cursor.toNat (Simulator.storedBytes v.storage v.bytes)
        else s.cells := by
  obtain ⟨hok, -⟩ := Simulator.programVia_conduct v.storage j.cursor v.bytes
    (FlashDevice.awaitIdle s)
  rw [Simulator.conduct_awaitIdle] at hok
  rw [j.device_deliver v s]
  cases hv : programVia v.storage j.cursor v.bytes (FlashDevice.awaitIdle s) with
  | mk result s' =>
      rw [hv] at hok
      cases result with
      | ok =>
          rw [if_pos (hok.mp rfl), (Simulator.programVia_ok hv).2.1, Simulator.cells_awaitIdle]
      | error fault =>
          rw [if_neg (fun hs => nomatch hok.mpr hs), (Simulator.programVia_error hv).1,
            Simulator.cells_awaitIdle]

/-! ## The record -/

/-- The record of a job for `size` bytes at `offset` after `n` of them were delivered. -/
structure Spans (offset size : UInt32) (n : Nat) (j : Job) : Prop where
  remaining : n + j.remaining.toNat = size.toNat
  cursor : j.cursor.toNat = min (offset.toNat + n) (2 ^ 32 - 1)
  lastSector : j.plan.lastSector = endSector offset.toNat size.toNat

/-- A job that was just opened has its span before it. -/
theorem spans_fresh (offset size : UInt32) : (fresh size offset).Spans offset size 0 where
  remaining := Nat.zero_add _
  cursor := by
    have := offset.toNat_lt
    show offset.toNat = _
    omega
  lastSector := ErasePlan.lastSector_ofSpan offset size

namespace Spans

variable {offset size : UInt32} {n : Nat} {j : Job}

/-- Of a job that is complete, all bytes were delivered. -/
theorem delivered_of_complete (h : j.Spans offset size n) (hremaining : j.remaining = 0) :
    n = size.toNat := by
  have hspan := h.remaining
  rw [hremaining] at hspan
  exact hspan

/-- The end of a plan is a word. -/
theorem lastSector_lt (h : j.Spans offset size n) : j.plan.lastSector < 2 ^ 32 := by
  rw [h.lastSector]
  exact ErasePlan.endSector_lt offset size

/-- An error leaves the span alone. -/
theorem note (h : j.Spans offset size n) (e : JobError) : (j.note e).Spans offset size n where
  remaining := by rw [remaining_note]; exact h.remaining
  cursor := by rw [cursor_note]; exact h.cursor
  lastSector := by rw [plan_note]; exact h.lastSector

/-- An erase is inside it. -/
theorem after (h : j.Spans offset size n) {unit : EraseSize}
    (hunit : j.plan.nextSize = some unit) :
    Spans offset size n { j with plan := j.plan.after unit } where
  remaining := h.remaining
  cursor := h.cursor
  lastSector := (ErasePlan.lastSector_after hunit h.lastSector_lt).trans h.lastSector

/-- Bytes that are expected are inside it. -/
theorem past (h : j.Spans offset size n) {len : Nat} (hlen : len ≤ j.remaining.toNat) :
    (j.past (UInt32.ofNat len)).Spans offset size (n + len) := by
  have hcount : (UInt32.ofNat len).toNat = len := toNat_ofNat_of_le_remaining hlen
  refine ⟨?_, ?_, h.lastSector⟩
  · show n + len + (j.remaining - UInt32.ofNat len).toNat = _
    rw [UInt32.toNat_sub_of_le _ _ (UInt32.le_iff_toNat_le.mpr (by omega)), hcount, ← h.remaining]
    omega
  · show (satAdd j.cursor (UInt32.ofNat len)).toNat = _
    rw [toNat_satAdd, h.cursor, hcount]
    omega

/-- So is a delivery. -/
theorem deliver {δ : Type} [FlashDevice δ] (h : j.Spans offset size n) (v : Delivery) (d : δ)
    (hlen : v.bytes.length ≤ j.remaining.toNat) :
    (j.deliver v d).1.Spans offset size (n + v.bytes.length) := by
  rcases j.job_deliver v d with hjob | hjob
  · rw [hjob]
    exact h.past hlen
  · rw [hjob]
    refine (h.note _).past ?_
    rw [remaining_note]
    exact hlen

/-- What is within the device is programmed where it belongs. -/
theorem cursor_eq {capacity len : Nat} (h : j.Spans offset size n)
    (hfits : Fits capacity offset.toNat size.toNat) (hpos : 0 < len)
    (hlen : len ≤ j.remaining.toNat) (hin : j.cursor.toNat + len ≤ capacity) :
    j.cursor.toNat = offset.toNat + n := by
  have hr := h.remaining
  have hc := h.cursor
  -- the cursor is on the device, so either way it was not clamped
  rcases hfits with ⟨-, hlt⟩ | ⟨-, hspan, haddressable⟩
  · omega
  · omega

/-- A plan that covers the sector where some bytes end is past those bytes, as far as the device
    goes. -/
theorem covers {capacity len : Nat} (h : j.Spans offset size n)
    (hfits : Fits capacity offset.toNat size.toNat) (hlen : len ≤ j.remaining.toNat)
    (hcovers : j.plan.Covers (j.lastSectorOf len)) :
    min (offset.toNat + n + len) capacity ≤ j.plan.start := by
  have hr := h.remaining
  have hc := h.cursor
  have hreach : capacity < 2 ^ 32 ∨ offset.toNat + size.toNat ≤ 2 ^ 32 := by
    rcases hfits with ⟨-, hlt⟩ | ⟨-, -, haddressable⟩
    · exact Or.inl hlt
    · exact Or.inr haddressable
  have hcount : (UInt32.ofNat len).toNat = len := toNat_ofNat_of_le_remaining hlen
  rcases hcovers with hempty | hsector
  · -- an empty plan is at the end of the span, which is behind all of its bytes
    have hend := le_endSector offset.toNat size.toNat
    have hzero := (ErasePlan.isEmpty_iff _).mp hempty
    rw [← h.lastSector, ErasePlan.lastSector, hzero] at hend
    show _ ≤ j.plan.first.toNat * sectorSize
    simp only [Nat.add_zero] at hend
    omega
  · -- the frontier is past the sector where the bytes end
    have hsector' := UInt32.lt_iff_toNat_lt.mp hsector
    rw [lastSectorOf, toNat_sectorIndex, toNat_satAdd, hcount] at hsector'
    simp only [ErasePlan.start, sectorSize] at hsector' ⊢
    omega

end Spans

/-! ## The cells ahead -/

/-- Everything that is delivered lies behind the frontier, and the cells from there up to it are
    erased. -/
structure Placed {capacity : Nat} (offset size : UInt32) (n : Nat) (j : Job)
    (cells : Cells capacity) : Prop extends Spans offset size n j where
  behind : ∀ a < capacity, offset.toNat ≤ a → a < offset.toNat + n → a < j.plan.start
  erased : ∀ (a : Nat) (ha : a < capacity), offset.toNat + n ≤ a → a < j.plan.start →
    cells[a] = .erased

namespace Placed

variable {capacity : Nat} {offset size : UInt32} {n : Nat} {j : Job} {cells : Cells capacity}

/-- An error leaves the cells alone. -/
theorem note (h : j.Placed offset size n cells) (e : JobError) :
    (j.note e).Placed offset size n cells where
  toSpans := h.toSpans.note e
  behind := by rw [plan_note]; exact h.behind
  erased := by rw [plan_note]; exact h.erased

/-- An erase readies the cells that it clears and reaches none that were delivered. -/
theorem issue {s : Simulator capacity} (h : j.Placed offset size n s.cells)
    (hfits : Fits capacity offset.toNat size.toNat) {unit : EraseSize}
    (hunit : j.plan.nextSize = some unit) :
    Placed offset size n { j with plan := (j.plan.issue unit s).1 }
      (j.plan.issue unit s).2.cells := by
  have hstart := ErasePlan.start_after hunit h.lastSector_lt
  refine ⟨h.toSpans.after hunit, ?_, ?_⟩
  · intro a ha hfrom hto
    have hbehind := h.behind a ha hfrom hto
    show a < (j.plan.after unit).start
    omega
  · intro a ha hfrom hto
    rw [ErasePlan.getElem_issue j.plan unit s hfits h.lastSector hunit a ha]
    -- a cell ahead is erased by this erase or was erased before it
    by_cases hnew : j.plan.start ≤ a ∧ a < j.plan.start + unit.bytes
    · rw [if_pos hnew]
    · rw [if_neg hnew]
      refine h.erased a ha hfrom ?_
      have hto : a < (j.plan.after unit).start := hto
      omega

/-- The cells that a delivery is for are erased. -/
theorem ready (h : j.Placed offset size n cells)
    (hfits : Fits capacity offset.toNat size.toNat) {len : Nat}
    (hlen : len ≤ j.remaining.toNat) (hcovers : j.plan.Covers (j.lastSectorOf len))
    (a : Nat) (ha : a < capacity) (hfrom : offset.toNat + n ≤ a)
    (hto : a < offset.toNat + n + len) : cells[a] = .erased := by
  have := h.toSpans.covers hfits hlen hcovers
  exact h.erased a ha hfrom (by omega)

/-- A delivery leaves the cells beyond it erased, whether or not it was carried out. -/
theorem deliver {s : Simulator capacity} (h : j.Placed offset size n s.cells)
    (hfits : Fits capacity offset.toNat size.toNat) {v : Delivery} (hne : v.bytes ≠ [])
    (hlen : v.bytes.length ≤ j.remaining.toNat)
    (hcovers : j.plan.Covers (j.lastSectorOf v.bytes.length)) :
    (j.deliver v s).1.Placed offset size (n + v.bytes.length) (j.deliver v s).2.cells := by
  have hcover := h.toSpans.covers hfits hlen hcovers
  have hplan : (j.deliver v s).1.plan = j.plan := (j.kept_deliver v s).1
  refine ⟨h.toSpans.deliver v s hlen, ?_, ?_⟩
  · intro a ha hfrom hto
    rw [hplan]
    omega
  · -- a cell ahead of the new bytes was ahead of the old ones, and is not programmed
    intro a ha hfrom hto
    rw [hplan] at hto
    have hold : s.cells[a] = .erased := h.erased a ha (by omega) hto
    rcases deliver_cases j v s with ⟨-, hin, hcells, -⟩ | ⟨-, hcells, -⟩
    · have hcursor := h.toSpans.cursor_eq hfits (List.length_pos_iff.mpr hne) hlen hin
      simp only [hcells]
      rw [Cells.getElem_program_of_not_mem _ _ _ _ ha
        (by rw [Simulator.length_storedBytes]; omega)]
      exact hold
    · simp only [hcells]
      exact hold

/-- When everything was delivered the frontier is at the end of the last sector. -/
theorem start_of_complete (h : j.Placed offset size n cells) (hpos : 0 < size.toNat)
    (hin : offset.toNat + size.toNat ≤ capacity) (hremaining : j.remaining = 0) :
    j.plan.start = endSector offset.toNat size.toNat * sectorSize := by
  have hall := h.delivered_of_complete hremaining
  -- the last byte of the span is behind the frontier, which is at the border of a sector
  have hbehind := h.behind (offset.toNat + size.toNat - 1) (by omega) (by omega) (by omega)
  have hlast := h.lastSector
  simp only [ErasePlan.start, ErasePlan.lastSector, endSector, sectorSize] at hbehind hlast ⊢
  omega

end Placed

/-- Without a delivery there is nothing to be behind. -/
theorem placed_fresh {capacity : Nat} (offset size : UInt32) (cells : Cells capacity) :
    (fresh size offset).Placed offset size 0 cells where
  toSpans := spans_fresh offset size
  behind := by
    intro a _ hfrom hto
    omega
  erased := by
    intro a _ hfrom hto
    have hstart : (fresh size offset).plan.start ≤ offset.toNat :=
      ErasePlan.start_ofSpan_le offset size
    omega

end Job
end NorLoader
