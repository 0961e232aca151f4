/-!
# Flash cells

One byte of NOR flash, and the cells of a whole device.  An erase sets cells to `0xFF` and a
program can only clear bits.  A cell remembers which of the two came last, because programming a
cell twice and erasing what was programmed are what a careful driver avoids.
-/

namespace NorLoader

/-- One byte of flash and how it came about. -/
inductive Cell where
  /-- Never erased since the device was made. -/
  | stale
  /-- Erased and not programmed since. -/
  | erased
  /-- Programmed since the last erase, now holding this value. -/
  | programmed (value : UInt8)
  deriving DecidableEq, Repr

namespace Cell

/-- What a cell reads as before its first erase. -/
def staleByte : UInt8 := 0x5A

/-- What a cell reads as. -/
def value : Cell → UInt8
  | stale => staleByte
  | erased => 0xFF
  | programmed v => v

/-- Programming can only clear bits. -/
def program (c : Cell) (b : UInt8) : Cell := programmed (c.value &&& b)

/-- Whether the cell was programmed since its last erase. -/
def isProgrammed : Cell → Bool
  | programmed _ => true
  | _ => false

/-- An erased cell takes any byte. -/
@[simp] theorem value_program_erased (b : UInt8) : (program erased b).value = b := by
  show (-1 : UInt8) &&& b = b
  exact UInt8.neg_one_and

end Cell

/-! ## The cells of a device -/

/-- The cells of a device of some capacity. -/
abbrev Cells (capacity : Nat) := Vector Cell capacity

namespace Cells

variable {capacity : Nat}

/-- The cells of a device as it comes. -/
def stale : Cells capacity := Vector.replicate capacity .stale

/-- Erases `len` cells from `start` on, as far as there are any. -/
def erase (cells : Cells capacity) (start : Nat) : Nat → Cells capacity
  | 0 => cells
  | len + 1 =>
      if h : start < capacity then erase (cells.set start .erased) (start + 1) len
      else cells

/-- Programs cells from `start` on, as far as there are any. -/
def program (cells : Cells capacity) (start : Nat) : List UInt8 → Cells capacity
  | [] => cells
  | b :: rest =>
      if h : start < capacity then
        let cell := cells[start].program b
        program (cells.set start cell) (start + 1) rest
      else cells

/-- The addresses among `len` from `start` on whose cells are not erased. -/
def unerased (cells : Cells capacity) (start len : Nat) : List Nat :=
  (List.range' start len).filter fun a => cells[a]? != some .erased

/-- The first address among `len` from `start` on whose cell is programmed. -/
def firstProgrammed? (cells : Cells capacity) (start len : Nat) : Option Nat :=
  (List.range' start len).find? fun a => (cells[a]?.map Cell.isProgrammed).getD false

/-! ## What the operations do to each cell -/

/-- An erase clears its range and leaves all else alone. -/
theorem getElem_erase (cells : Cells capacity) (start len a : Nat)
    (ha : a < capacity) :
    (erase cells start len)[a]
      = if start ≤ a ∧ a < start + len then .erased else cells[a] := by
  induction len generalizing cells start with
  | zero =>
      show cells[a] = _
      rw [if_neg (by omega)]
  | succ len ih =>
      by_cases hs : start < capacity
      · simp only [erase, hs, dite_true, ih, Vector.getElem_set]
        by_cases h₁ : start + 1 ≤ a ∧ a < start + 1 + len
        · rw [if_pos h₁, if_pos (by omega)]
        · rw [if_neg h₁]
          by_cases h₂ : start = a
          · rw [if_pos h₂, if_pos (by omega)]
          · rw [if_neg h₂, if_neg (by omega)]
      · simp only [erase, hs, dite_false]
        rw [if_neg (by omega)]

/-- A program leaves alone what it does not reach. -/
theorem getElem_program_of_not_mem (cells : Cells capacity) (start a : Nat)
    (data : List UInt8) (ha : a < capacity) (h : a < start ∨ start + data.length ≤ a) :
    (program cells start data)[a] = cells[a] := by
  induction data generalizing cells start with
  | nil => rfl
  | cons b rest ih =>
      simp only [List.length_cons] at h
      by_cases hs : start < capacity
      · simp only [program, hs, dite_true]
        rw [ih _ _ (by omega), Vector.getElem_set, if_neg (by omega)]
      · simp only [program, hs, dite_false]

/-- Where it reaches, every cell takes its byte. -/
theorem getElem_program (cells : Cells capacity) (start i : Nat)
    (data : List UInt8) (hi : i < data.length) (ha : start + i < capacity) :
    (program cells start data)[start + i] = cells[start + i].program data[i] := by
  induction data generalizing cells start i with
  | nil => cases hi
  | cons b rest ih =>
      have hs : start < capacity := by omega
      simp only [program, hs, dite_true]
      cases i with
      | zero =>
          show (program (cells.set start (cells[start].program b)) (start + 1) rest)[start]
            = cells[start].program b
          rw [getElem_program_of_not_mem _ _ _ _ _ (by omega), Vector.getElem_set_self]
      | succ i =>
          have hi' : i < rest.length := by simpa using hi
          have hne : ¬start = start + 1 + i := by omega
          have key := ih (cells.set start (cells[start].program b)) (start + 1) i hi' (by omega)
          rw [Vector.getElem_set, if_neg hne] at key
          simp only [show start + (i + 1) = start + 1 + i by omega, List.getElem_cons_succ]
          exact key

/-- What a program reaches is programmed afterwards. -/
theorem isProgrammed_program (cells : Cells capacity) (start : Nat) (data : List UInt8) {a : Nat}
    (ha : a < capacity) (h : start ≤ a ∧ a < start + data.length) :
    ((program cells start data)[a]).isProgrammed = true := by
  obtain ⟨i, rfl⟩ := Nat.exists_eq_add_of_le h.1
  rw [getElem_program cells start i data (Nat.lt_of_add_lt_add_left h.2) ha]
  rfl

end Cells
end NorLoader
