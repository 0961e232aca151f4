import NorLoader.Proofs.Image.Faultless

/-!
# What a job makes of the cells

How a job gets at its cells depends on when the device was idle, since that decides how far the
erases are ahead of the data.  But an erase of the plan is beyond all that was delivered and
commutes with it.  So at any time the cells are those of the opening, erased up to the frontier
and then programmed, delivery by delivery (`Job.Imprinted`), and once everything was delivered the
frontier is at the end of the span and tells nothing more of the way there.
-/

namespace NorLoader

/-- A span of at least one byte on a device. -/
structure OnDevice (capacity : Nat) (offset size : UInt32) : Prop where
  pos : 0 < size.toNat
  inside : offset.toNat + size.toNat ≤ capacity

/-- Addresses are words, so a span can be erased as a whole only if it ends where they do. -/
theorem OnDevice.fits {capacity : Nat} {offset size : UInt32} (h : OnDevice capacity offset size)
    (hsectors : sectorSize ∣ capacity) (haddressable : offset.toNat + size.toNat ≤ 2 ^ 32) :
    Fits capacity offset.toNat size.toNat :=
  Or.inr ⟨hsectors, h.inside, haddressable⟩

namespace Cells

open Simulator

variable {capacity : Nat} {cells cells' : Cells capacity}

/-! ## Erased up to a frontier -/

/-- The cells once those from one address up to another are erased. -/
def clearedTo (cells : Cells capacity) (first frontier : Nat) : Cells capacity :=
  cells.erase first (frontier - first)

/-- Clearing erases its range and leaves all else alone. -/
theorem getElem_clearedTo (cells : Cells capacity) (first frontier a : Nat) (ha : a < capacity) :
    (cells.clearedTo first frontier)[a]
      = if first ≤ a ∧ a < frontier then .erased else cells[a] := by
  rw [clearedTo, getElem_erase _ _ _ _ ha]
  by_cases hin : first ≤ a ∧ a < frontier
  · rw [if_pos hin, if_pos (by omega)]
  · rw [if_neg hin, if_neg (by omega)]

/-- Nothing is cleared up to where it begins. -/
theorem clearedTo_self (cells : Cells capacity) (first : Nat) :
    cells.clearedTo first first = cells := by
  rw [clearedTo, Nat.sub_self]
  rfl

/-! ## Programmed delivery by delivery -/

/-- What programming makes of a cell depends on no other. -/
theorem getElem_program_congr (start : Nat) (data : List UInt8) {a : Nat} (ha : a < capacity)
    (h : cells'[a] = cells[a]) : (cells'.program start data)[a] = (cells.program start data)[a] := by
  by_cases hin : start ≤ a ∧ a < start + data.length
  · obtain ⟨i, rfl⟩ := Nat.exists_eq_add_of_le hin.1
    have hi : i < data.length := by omega
    rw [getElem_program _ _ _ _ hi ha, getElem_program _ _ _ _ hi ha, h]
  · rw [getElem_program_of_not_mem _ _ _ _ ha (by omega),
      getElem_program_of_not_mem _ _ _ _ ha (by omega), h]

/-- The cells after a delivery that belongs at an address, on a device of some conduct. -/
def print (cells : Cells capacity) (t : Conduct) (addr : Nat) (v : Delivery) : Cells capacity :=
  if t.succeeds capacity v.storage (clampWord addr) v.bytes.length then
    cells.program (clampWord addr).toNat (storedBytes v.storage v.bytes)
  else cells

/-- The cells after some deliveries, from an address on. -/
def imprint (cells : Cells capacity) (t : Conduct) (addr : Nat) : List Delivery → Cells capacity
  | [] => cells
  | v :: w => (cells.print t addr v).imprint t (addr + v.bytes.length) w

/-- One more delivery prints behind the others. -/
theorem imprint_concat (cells : Cells capacity) (t : Conduct) (addr : Nat) (w : List Delivery)
    (v : Delivery) : cells.imprint t addr (w ++ [v])
      = (cells.imprint t addr w).print t (addr + delivered w) v := by
  induction w generalizing cells addr with
  | nil => rfl
  | cons u w ih =>
      show (cells.print t addr u).imprint t (addr + u.bytes.length) (w ++ [v]) = _
      rw [ih, Nat.add_assoc]
      rfl

/-- What a delivery prints on a cell depends on that cell. -/
theorem getElem_print_congr (t : Conduct) (addr : Nat) (v : Delivery) {a : Nat}
    (ha : a < capacity) (h : cells'[a] = cells[a]) :
    (cells'.print t addr v)[a] = (cells.print t addr v)[a] := by
  simp only [print]
  split
  · exact getElem_program_congr _ _ ha h
  · exact h

/-- A delivery prints on the cells that it reaches. -/
theorem getElem_print_of_le (cells : Cells capacity) (t : Conduct) (addr : Nat) (v : Delivery)
    {a : Nat} (ha : a < capacity) (h : v.bytes.length = 0 ∨ addr + v.bytes.length ≤ a) :
    (cells.print t addr v)[a] = cells[a] := by
  simp only [print]
  split
  · -- an address that is clamped is not beyond the one before
    refine getElem_program_of_not_mem _ _ _ _ ha ?_
    rw [length_storedBytes, toNat_clampWord]
    omega
  · rfl

/-- What deliveries print on a cell depends on that cell. -/
theorem getElem_imprint_congr (t : Conduct) (addr : Nat) (w : List Delivery) {a : Nat}
    (ha : a < capacity) (h : cells'[a] = cells[a]) :
    (cells'.imprint t addr w)[a] = (cells.imprint t addr w)[a] := by
  induction w generalizing cells cells' addr with
  | nil => exact h
  | cons v w ih => exact ih _ (getElem_print_congr t addr v ha h)

/-- Deliveries do not reach beyond their end. -/
theorem getElem_imprint_of_le (cells : Cells capacity) (t : Conduct) (addr : Nat)
    (w : List Delivery) {a : Nat} (ha : a < capacity)
    (h : delivered w = 0 ∨ addr + delivered w ≤ a) : (cells.imprint t addr w)[a] = cells[a] := by
  induction w generalizing cells addr with
  | nil => rfl
  | cons v w ih =>
      have hsum : delivered (v :: w) = v.bytes.length + delivered w := rfl
      have hrest := ih (cells.print t addr v) (addr + v.bytes.length) (by omega)
      exact hrest.trans (getElem_print_of_le cells t addr v ha (by omega))

/-- An erase beyond all deliveries can as well come before them. -/
theorem getElem_imprint_clearedTo (cells : Cells capacity) (t : Conduct) (addr : Nat)
    (w : List Delivery) {first frontier frontier' : Nat} (hfirst : first ≤ frontier)
    (hle : frontier ≤ frontier') (hbeyond : delivered w = 0 ∨ addr + delivered w ≤ frontier)
    {a : Nat} (ha : a < capacity) : ((cells.clearedTo first frontier').imprint t addr w)[a]
      = if frontier ≤ a ∧ a < frontier' then .erased
        else ((cells.clearedTo first frontier).imprint t addr w)[a] := by
  by_cases hnew : frontier ≤ a ∧ a < frontier'
  · rw [if_pos hnew, getElem_imprint_of_le _ t addr w ha (by omega), getElem_clearedTo _ _ _ _ ha,
      if_pos (by omega)]
  · rw [if_neg hnew]
    refine getElem_imprint_congr t addr w ha ?_
    rw [getElem_clearedTo _ _ _ _ ha, getElem_clearedTo _ _ _ _ ha]
    by_cases hold : first ≤ a ∧ a < frontier
    · rw [if_pos hold, if_pos (by omega)]
    · rw [if_neg hold, if_neg (by omega)]

end Cells

namespace Job

/-- A job on a device whose programs all end by the conduct `t`, and that had the cells `was` when
    the job was opened. -/
structure Imprinted {capacity : Nat} (offset size : UInt32) (calls : Nat) (t : Simulator.Conduct)
    (was : Cells capacity) (w : List Delivery) (j : Job) (s : Simulator capacity) : Prop where
  placed : j.Placed offset size (delivered w) s.cells
  logged : j.Logged offset size calls w s
  conduct : s.conduct = t
  start_le : (ErasePlan.ofSpan offset size).start ≤ j.plan.start
  cells : s.cells
    = (was.clearedTo (ErasePlan.ofSpan offset size).start j.plan.start).imprint t offset.toNat w

namespace Imprinted

variable {capacity : Nat} {offset size : UInt32} {calls : Nat} {t : Simulator.Conduct}
  {was : Cells capacity} {w : List Delivery} {j : Job} {s : Simulator capacity}

/-- A job that was just opened has left no marks. -/
theorem fresh (offset size : UInt32) (hle : calls ≤ s.calls.size)
    (hcalls : (s.callsSince calls).filter DeviceCall.isProgram = []) :
    (fresh size offset).Imprinted offset size calls s.conduct s.cells [] s where
  placed := placed_fresh offset size s.cells
  logged := Logged.fresh hle hcalls
  conduct := rfl
  start_le := Nat.le_refl _
  cells := (Cells.clearedTo_self _ _).symm

variable (hspan : OnDevice capacity offset size) (hfits : Fits capacity offset.toNat size.toNat)

include hspan hfits in
/-- An erase clears cells that nothing was delivered to. -/
theorem issue (h : j.Imprinted offset size calls t was w s) {unit : EraseSize}
    (hunit : j.plan.nextSize = some unit) :
    Imprinted offset size calls t was w { j with plan := (j.plan.issue unit s).1 }
      (j.plan.issue unit s).2 := by
  have hstart : (j.plan.after unit).start = j.plan.start + unit.bytes :=
    ErasePlan.start_after hunit h.placed.lastSector_lt
  refine ⟨h.placed.issue hfits hunit, (Logged.upkeep offset size calls).issue h.logged hunit,
    (j.plan.conduct_issue unit s).trans h.conduct, ?_, ?_⟩
  · show _ ≤ (j.plan.after unit).start
    rw [hstart]
    exact Nat.le_trans h.start_le (Nat.le_add_right _ _)
  · -- what was delivered is behind the frontier
    have hbeyond : delivered w = 0 ∨ offset.toNat + delivered w ≤ j.plan.start := by
      have hremaining := h.placed.remaining
      have hinside := hspan.inside
      by_cases hzero : delivered w = 0
      · exact Or.inl hzero
      · have hbehind := h.placed.behind (offset.toNat + delivered w - 1) (by omega) (by omega)
          (by omega)
        exact Or.inr (by omega)
    ext a ha
    have hadvance := was.getElem_imprint_clearedTo t offset.toNat w h.start_le
      (Nat.le_add_right j.plan.start unit.bytes) hbeyond ha
    rw [← h.cells, ← hstart] at hadvance
    rw [ErasePlan.getElem_issue j.plan unit s hfits h.placed.lastSector hunit a ha, ← hstart]
    exact hadvance.symm

include hfits in
/-- A delivery prints where it reaches, as the conduct has it. -/
theorem deliver (hlasting : t.faults.nextProgram = false)
    (h : j.Imprinted offset size calls t was w s) {v : Delivery} (hne : v.bytes ≠ [])
    (hlen : v.bytes.length ≤ j.remaining.toNat)
    (hcovers : j.plan.Covers (j.lastSectorOf v.bytes.length)) :
    (j.deliver v s).1.Imprinted offset size calls t was (w ++ [v]) (j.deliver v s).2 := by
  have hplan : (j.deliver v s).1.plan = j.plan := (j.kept_deliver v s).1
  refine ⟨?_, (Logged.upkeep offset size calls).deliver h.logged hne hlen hcovers,
    (conduct_upkeep hlasting).deliver (w := w) h.conduct hne hlen hcovers, ?_, ?_⟩
  · rw [delivered_concat]
    exact h.placed.deliver hfits hne hlen hcovers
  · rw [hplan]
    exact h.start_le
  · rw [hplan, Cells.imprint_concat, ← h.cells, cells_deliver, h.conduct, h.logged.cursor_eq]
    rfl

include hspan hfits in
/-- A job leaves the marks of its deliveries, whatever it is used for. -/
theorem upkeep (hlasting : t.faults.nextProgram = false) (calls : Nat) (was : Cells capacity) :
    Upkeep (Imprinted offset size calls t was) := by
  refine .onSimulator (fun _ _ h => { h with logged := { h.logged with } })
    (fun h => h.issue hspan hfits) (fun h => h.deliver hfits hlasting) ?note
  case note =>
    intro w j s e h
    refine ⟨h.placed.note e, (Logged.upkeep offset size calls).note e h.logged, h.conduct, ?_, ?_⟩
    · rw [plan_note]
      exact h.start_le
    · rw [plan_note]
      exact h.cells

include hspan in
/-- When everything was delivered, the cells tell the deliveries only. -/
theorem cells_of_complete (h : j.Imprinted offset size calls t was w s)
    (hremaining : j.remaining = 0) :
    s.cells = (was.clearedTo (ErasePlan.ofSpan offset size).start
      (endSector offset.toNat size.toNat * sectorSize)).imprint t offset.toNat w := by
  rw [← h.placed.start_of_complete hspan.pos hspan.inside hremaining]
  exact h.cells

end Imprinted
end Job
end NorLoader
