import NorLoader.Proofs.Image.Placement

/-!
# What a job leaves on the flash

A delivery that is carried out meets erased cells, so they read as its bytes from then on; later
deliveries are beyond them and later erases beyond the frontier.  As long as a job keeps no error,
the cells of its span hold everything that it delivered (`Contents`).
-/

namespace NorLoader

/-- The bytes that some deliveries put into the cells. -/
def stored (w : List Delivery) : List UInt8 :=
  w.flatMap fun v => Simulator.storedBytes v.storage v.bytes

/-- What is stored of one more delivery comes behind the rest. -/
theorem stored_concat (w : List Delivery) (v : Delivery) :
    stored (w ++ [v]) = stored w ++ Simulator.storedBytes v.storage v.bytes := by
  simp [stored]

/-- As many bytes are stored as delivered. -/
theorem length_stored (w : List Delivery) : (stored w).length = delivered w := by
  rw [stored, List.length_flatMap, delivered]
  congr 1
  refine List.map_congr_left ?_
  intro v _
  exact Simulator.length_storedBytes _ _

/-- Deliveries that are all stored in one way leave their bytes, ciphered or not. -/
theorem stored_of_storage {w : List Delivery} (storage : Storage)
    (h : ∀ v ∈ w, v.storage = storage) :
    stored w = Simulator.storedBytes storage (sent w) := by
  induction w with
  | nil => cases storage <;> rfl
  | cons v w ih =>
      obtain ⟨hv, hw⟩ := List.forall_mem_cons.mp h
      show Simulator.storedBytes v.storage v.bytes ++ stored w
        = Simulator.storedBytes storage (v.bytes ++ sent w)
      rw [hv, ih hw]
      cases storage with
      | plain => rfl
      | encrypted => exact List.map_append.symm

namespace Cells

variable {capacity : Nat} {cells : Cells capacity}

/-- The cells from an address on read as some bytes, all of them within the device. -/
def Holds (cells : Cells capacity) (start : Nat) (bytes : List UInt8) : Prop :=
  ∀ i < bytes.length, cells[start + i]?.map Cell.value = bytes[i]?

namespace Holds

variable {start : Nat} {bytes : List UInt8}

/-- Any cells hold nothing. -/
theorem nil (cells : Cells capacity) (start : Nat) : cells.Holds start [] := nofun

/-- What a range holds depends on its cells only. -/
theorem congr (h : cells.Holds start bytes) {cells' : Cells capacity}
    (hsame : ∀ (a : Nat) (ha : a < capacity), start ≤ a → a < start + bytes.length →
      cells'[a] = cells[a]) : cells'.Holds start bytes := by
  intro i hi
  rw [← h i hi]
  by_cases ha : start + i < capacity
  · rw [Vector.getElem?_eq_getElem ha, Vector.getElem?_eq_getElem ha,
      hsame _ ha (Nat.le_add_right _ _) (Nat.add_lt_add_left hi _)]
  · rw [Vector.getElem?_eq_none (Nat.not_lt.mp ha), Vector.getElem?_eq_none (Nat.not_lt.mp ha)]

/-- What cells hold is inside the device. -/
theorem in_range (h : cells.Holds start bytes) (hne : bytes ≠ []) :
    start + bytes.length ≤ capacity := by
  have hpos := List.length_pos_iff.mpr hne
  have hlast := h (bytes.length - 1) (by omega)
  rw [List.getElem?_eq_getElem (by omega)] at hlast
  obtain ⟨cell, hcell, -⟩ := Option.map_eq_some_iff.mp hlast
  have := (Vector.getElem?_eq_some_iff.mp hcell).1
  omega

/-- Programming erased cells right behind a range extends what it holds. -/
theorem program (h : cells.Holds start bytes) (data : List UInt8)
    (hin : start + bytes.length + data.length ≤ capacity)
    (hready : ∀ (a : Nat) (ha : a < capacity), start + bytes.length ≤ a →
      a < start + bytes.length + data.length → cells[a] = .erased) :
    (cells.program (start + bytes.length) data).Holds start (bytes ++ data) := by
  intro i hi
  rw [List.length_append] at hi
  by_cases hold : i < bytes.length
  · -- a byte of the range itself, which the program does not reach
    have ha : start + i < capacity := by omega
    rw [List.getElem?_append_left hold, ← h i hold, Vector.getElem?_eq_getElem ha,
      Vector.getElem?_eq_getElem ha, getElem_program_of_not_mem _ _ _ _ ha (by omega)]
  · -- the `k`th byte of the data
    obtain ⟨k, rfl⟩ := Nat.exists_eq_add_of_le (Nat.not_lt.mp hold)
    have hk : k < data.length := by omega
    have ha : start + bytes.length + k < capacity := by omega
    rw [← Nat.add_assoc, List.getElem?_append_right (Nat.le_add_right _ _),
      Nat.add_sub_cancel_left, Vector.getElem?_eq_getElem ha, getElem_program _ _ _ _ hk ha,
      hready _ ha (Nat.le_add_right _ _) (by omega), List.getElem?_eq_getElem hk]
    exact congrArg some (Cell.value_program_erased _)

end Holds
end Cells

/-- What cells hold is what is read from them. -/
theorem Simulator.read?_of_holds {capacity start : Nat} {s : Simulator capacity}
    {bytes : List UInt8} (h : s.cells.Holds start bytes) (hne : bytes ≠ []) :
    s.read? start bytes.length = some bytes := by
  rw [Simulator.read?, if_pos (h.in_range hne)]
  refine congrArg some (List.ext_getElem? ?_)
  intro i
  rw [List.getElem?_map]
  by_cases hi : i < bytes.length
  · rw [List.getElem?_take_of_lt hi, List.getElem?_drop, ← h i hi]
    exact congrArg (Option.map Cell.value) (Vector.getElem?_toList ..)
  · rw [List.getElem?_take_eq_none (Nat.not_lt.mp hi), List.getElem?_eq_none (Nat.not_lt.mp hi)]
    rfl

namespace Job

/-- Unless it keeps an error, a job has put into the cells of its span what it delivered. -/
structure Contents {capacity : Nat} (offset size : UInt32) (w : List Delivery) (j : Job)
    (s : Simulator capacity) : Prop where
  placed : j.Placed offset size (delivered w) s.cells
  holds : j.error = none → s.cells.Holds offset.toNat (stored w)

namespace Contents

variable {capacity : Nat} {offset size : UInt32} {w : List Delivery} {j : Job}
  {s : Simulator capacity}

/-- A job that was just opened has put nothing there. -/
theorem fresh (offset size : UInt32) (s : Simulator capacity) :
    (fresh size offset).Contents offset size [] s where
  placed := placed_fresh offset size s.cells
  holds := fun _ => Cells.Holds.nil _ _

/-- An error that is kept excuses the contents. -/
theorem note (h : j.Contents offset size w s) (e : JobError) :
    (j.note e).Contents offset size w s where
  placed := h.placed.note e
  holds := fun hnone => absurd hnone (error_note_ne_none j e)

/-- An erase is beyond everything that was delivered. -/
theorem issue (h : j.Contents offset size w s) (hfits : Fits capacity offset.toNat size.toNat)
    {unit : EraseSize} (hunit : j.plan.nextSize = some unit) :
    Contents offset size w { j with plan := (j.plan.issue unit s).1 } (j.plan.issue unit s).2 where
  placed := h.placed.issue hfits hunit
  holds := by
    intro hnone
    refine (h.holds hnone).congr ?_
    intro a ha hfrom hto
    rw [length_stored] at hto
    have hbehind := h.placed.behind a ha hfrom hto
    rw [ErasePlan.getElem_issue j.plan unit s hfits h.placed.lastSector hunit a ha,
      if_neg (fun hin => Nat.not_lt.mpr hin.1 hbehind)]

/-- A delivery goes behind the contents, or leaves an error. -/
theorem deliver (h : j.Contents offset size w s) (hfits : Fits capacity offset.toNat size.toNat)
    {v : Delivery} (hne : v.bytes ≠ []) (hlen : v.bytes.length ≤ j.remaining.toNat)
    (hcovers : j.plan.Covers (j.lastSectorOf v.bytes.length)) :
    (j.deliver v s).1.Contents offset size (w ++ [v]) (j.deliver v s).2 := by
  constructor
  · rw [delivered_concat]
    exact h.placed.deliver hfits hne hlen hcovers
  · intro hnone
    rcases deliver_cases j v s with ⟨hjob, hin, hcells, -⟩ | ⟨hjob, -⟩
    · -- no error, so the bytes went where they belong, onto erased cells
      rw [hjob] at hnone
      have hcursor := h.placed.toSpans.cursor_eq hfits (List.length_pos_iff.mpr hne) hlen hin
      rw [hcells, hcursor, stored_concat, ← length_stored]
      have hdata := Simulator.length_storedBytes v.storage v.bytes
      refine (h.holds hnone).program _ ?_ ?_
      · rw [length_stored]
        omega
      · intro a ha hfrom hto
        rw [length_stored] at hfrom hto
        exact h.placed.ready hfits hlen hcovers a ha hfrom (by omega)
    · rw [hjob] at hnone
      exact absurd hnone (error_note_ne_none j _)

/-- The contents are kept whatever the job is used for. -/
theorem upkeep (offset size : UInt32) (hfits : Fits capacity offset.toNat size.toNat) :
    Upkeep (δ := Simulator capacity) (Contents offset size) :=
  .onSimulator (fun _ _ h => { h with }) (fun h => h.issue hfits) (fun h => h.deliver hfits)
    fun e h => h.note e

end Contents
end Job
end NorLoader
