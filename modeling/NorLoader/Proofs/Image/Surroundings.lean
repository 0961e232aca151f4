import NorLoader.Proofs.Image.Placement

/-!
# What a job leaves around its span

Erases come in whole sectors, so a job also clears what shares a sector with its span; it touches
nothing else.  Up to the frontier the cells before the span are erased, from the frontier on and
before the first sector they are what they were when the job was opened (`Surrounded`).  A job
that delivered everything has its frontier at the end of the last sector.
-/

namespace NorLoader

/-- An address is in a sector where a span has a byte. -/
def Touches (offset size a : Nat) : Prop :=
  ∃ b, offset ≤ b ∧ b < offset + size ∧ b / sectorSize = a / sectorSize

/-- The sectors of a span run from the one of its first byte to the one of its last. -/
theorem touches_iff {offset size : Nat} (hpos : 0 < size) (a : Nat) : Touches offset size a ↔
    offset / sectorSize * sectorSize ≤ a ∧ a < endSector offset size * sectorSize := by
  simp only [endSector, sectorSize]
  constructor
  · rintro ⟨b, hfrom, hto, hsame⟩
    simp only [sectorSize] at hsame
    omega
  · rintro ⟨hfrom, hto⟩
    -- the address itself, or the end of the span that is nearer
    refine ⟨max offset (min a (offset + size - 1)), by omega, by omega, ?_⟩
    simp only [sectorSize]
    omega

namespace Job

/-- The cells around the span of a job that was opened when the device had the cells `was`. -/
structure Surrounded {capacity : Nat} (offset size : UInt32) (was : Cells capacity)
    (w : List Delivery) (j : Job) (s : Simulator capacity) : Prop where
  placed : j.Placed offset size (delivered w) s.cells
  start_le : (ErasePlan.ofSpan offset size).start ≤ j.plan.start
  before : ∀ (a : Nat) (ha : a < capacity), (ErasePlan.ofSpan offset size).start ≤ a →
    a < offset.toNat → a < j.plan.start → s.cells[a] = .erased
  outside : ∀ (a : Nat) (ha : a < capacity),
    a < (ErasePlan.ofSpan offset size).start ∨ j.plan.start ≤ a → s.cells[a] = was[a]

namespace Surrounded

variable {capacity : Nat} {offset size : UInt32} {was : Cells capacity} {w : List Delivery}
  {j : Job} {s : Simulator capacity}

/-- A job that was just opened has cleared nothing. -/
theorem fresh (offset size : UInt32) (s : Simulator capacity) :
    (fresh size offset).Surrounded offset size s.cells [] s where
  placed := placed_fresh offset size s.cells
  start_le := Nat.le_refl _
  before := by
    intro a _ hfrom _ hto
    exact absurd hto (Nat.not_lt.mpr hfrom)
  outside := fun _ _ _ => rfl

/-- An error leaves the cells alone. -/
theorem note (h : j.Surrounded offset size was w s) (e : JobError) :
    (j.note e).Surrounded offset size was w s where
  placed := h.placed.note e
  start_le := by rw [plan_note]; exact h.start_le
  before := by rw [plan_note]; exact h.before
  outside := by rw [plan_note]; exact h.outside

/-- An erase clears cells before the span or at the frontier. -/
theorem issue (h : j.Surrounded offset size was w s)
    (hfits : Fits capacity offset.toNat size.toNat) {unit : EraseSize}
    (hunit : j.plan.nextSize = some unit) :
    Surrounded offset size was w { j with plan := (j.plan.issue unit s).1 }
      (j.plan.issue unit s).2 := by
  have hstart : (j.plan.after unit).start = j.plan.start + unit.bytes :=
    ErasePlan.start_after hunit h.placed.lastSector_lt
  have hcells := ErasePlan.getElem_issue j.plan unit s hfits h.placed.lastSector hunit
  have hle := h.start_le
  refine ⟨h.placed.issue hfits hunit, ?_, ?_, ?_⟩
  · show _ ≤ (j.plan.after unit).start
    omega
  · intro a ha hfrom hto hstart'
    rw [hcells a ha]
    by_cases hnew : j.plan.start ≤ a ∧ a < j.plan.start + unit.bytes
    · rw [if_pos hnew]
    · rw [if_neg hnew]
      have hstart' : a < (j.plan.after unit).start := hstart'
      exact h.before a ha hfrom hto (by omega)
  · intro a ha hout
    have hout : a < _ ∨ (j.plan.after unit).start ≤ a := hout
    rw [hcells a ha, if_neg (by omega)]
    exact h.outside a ha (by omega)

/-- A delivery reaches cells of the span only, and those that it reaches are behind the
    frontier. -/
theorem deliver (h : j.Surrounded offset size was w s)
    (hfits : Fits capacity offset.toNat size.toNat) {v : Delivery} (hne : v.bytes ≠ [])
    (hlen : v.bytes.length ≤ j.remaining.toNat)
    (hcovers : j.plan.Covers (j.lastSectorOf v.bytes.length)) :
    (j.deliver v s).1.Surrounded offset size was (w ++ [v]) (j.deliver v s).2 := by
  have hplan : (j.deliver v s).1.plan = j.plan := (j.kept_deliver v s).1
  have hcover := h.placed.toSpans.covers hfits hlen hcovers
  have hstart := ErasePlan.start_ofSpan_le offset size
  have hkeeps : ∀ (a : Nat) (ha : a < capacity), a < offset.toNat ∨ j.plan.start ≤ a →
      (j.deliver v s).2.cells[a] = s.cells[a] := by
    intro a ha hout
    rcases deliver_cases j v s with ⟨-, hin, hcells, -⟩ | ⟨-, hcells, -⟩
    · have hcursor := h.placed.toSpans.cursor_eq hfits (List.length_pos_iff.mpr hne) hlen hin
      simp only [hcells]
      exact Cells.getElem_program_of_not_mem _ _ _ _ ha
        (by rw [Simulator.length_storedBytes]; omega)
    · simp only [hcells]
  refine ⟨?_, ?_, ?_, ?_⟩
  · rw [delivered_concat]
    exact h.placed.deliver hfits hne hlen hcovers
  · rw [hplan]
    exact h.start_le
  · intro a ha hfrom hto hbehind
    rw [hplan] at hbehind
    rw [hkeeps a ha (Or.inl hto)]
    exact h.before a ha hfrom hto hbehind
  · intro a ha hout
    rw [hplan] at hout
    rw [hkeeps a ha (by omega)]
    exact h.outside a ha hout

/-- The surroundings are kept whatever the job is used for. -/
theorem upkeep (offset size : UInt32) (was : Cells capacity)
    (hfits : Fits capacity offset.toNat size.toNat) :
    Upkeep (δ := Simulator capacity) (Surrounded offset size was) :=
  .onSimulator (fun _ _ h => { h with }) (fun h => h.issue hfits) (fun h => h.deliver hfits)
    fun e h => h.note e

/-- When everything was delivered the sectors of the span are erased around it, and all other
    cells are what they were. -/
theorem around (h : j.Surrounded offset size was w s) (hpos : 0 < size.toNat)
    (hin : offset.toNat + size.toNat ≤ capacity) (hremaining : j.remaining = 0)
    (a : Nat) (ha : a < capacity) :
    (Touches offset.toNat size.toNat a → a < offset.toNat ∨ offset.toNat + size.toNat ≤ a →
        s.cells[a] = .erased) ∧
      (¬Touches offset.toNat size.toNat a → s.cells[a] = was[a]) := by
  have hall := h.placed.delivered_of_complete hremaining
  have hfirst : (ErasePlan.ofSpan offset size).start = offset.toNat / sectorSize * sectorSize := by
    show (sectorIndex offset).toNat * sectorSize = _
    rw [toNat_sectorIndex]
  have hend := h.placed.start_of_complete hpos hin hremaining
  rw [touches_iff hpos]
  constructor
  · rintro ⟨hfrom, hto⟩ (hbefore | hbeyond)
    · exact h.before a ha (by omega) hbefore (by omega)
    · exact h.placed.erased a ha (by omega) (by omega)
  · intro hout
    exact h.outside a ha (by omega)

end Surrounded
end Job
end NorLoader
