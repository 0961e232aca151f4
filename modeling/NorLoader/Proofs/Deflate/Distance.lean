import Mathlib.Algebra.Order.Ring.Nat
import NorLoader.Geometry
import NorLoader.Deflate.Decoder

/-!
# How far back a match looks

A distance is a class, read as a symbol, and the extra bits of that class.  No class reaches beyond
the window, so what a decoder asks to be repeated is still there (`near_copy`).  The invariant is
`Near`: it speaks of the two stages that know a distance, and each way to leave a stage either
keeps it or comes to a stage that knows none.
-/

namespace NorLoader

namespace Decoder

/-- A match in the decoder keeps to the distances that the window holds.  While the extra bits are
    read, that goes for every distance they can still lead to. -/
def Near (d : Decoder) : Prop :=
  match d.stage with
  | .field (.matchDistance _ _ least) width got value =>
      0 < least ∧ got < width ∧ value < 2 ^ got ∧ least + 2 ^ width ≤ windowSize + 1
  | .copy _ distance _ => 0 < distance ∧ distance ≤ windowSize
  | _ => True

/-- At the start there is no match yet. -/
theorem near_start : start.Near := trivial

/-- Every class of distances that there is keeps to the window. -/
theorem distanceClasses_near {symbol least extra : Nat}
    (h : distanceClasses[symbol]? = some (least, extra)) :
    0 < least ∧ least + 2 ^ extra ≤ windowSize + 1 := by
  have hall : ∀ c ∈ distanceClasses, 0 < c.1 ∧ c.1 + 2 ^ c.2 ≤ windowSize + 1 := by decide
  exact hall _ (Array.mem_of_getElem? h)

/-- Nor is there one between blocks. -/
theorem near_endBlock (d : Decoder) : d.endBlock.Near := by
  simp only [endBlock]
  split <;> trivial

theorem near_buildTables (d : Decoder) (r : LengthReading) : (d.buildTables r).Near := by
  simp only [buildTables]
  split <;> trivial

theorem near_nextCodeLength (d : Decoder) (r : LengthReading) : (d.nextCodeLength r).Near := by
  simp only [nextCodeLength]
  split
  · trivial
  · split
    · exact near_buildTables d r
    · trivial

theorem near_nextLengthOfLength (d : Decoder) (sizes : TableSizes) (left : Nat)
    (found : List Nat) : (d.nextLengthOfLength sizes left found).Near := by
  simp only [nextLengthOfLength]
  split
  · split
    · exact near_nextCodeLength d _
    · trivial
  · trivial

/-- A field leads to a near match if its extra bits do. -/
theorem near_resolveField (d : Decoder) (goal : FieldGoal) (value : Nat)
    (h : ∀ tables length least, goal = .matchDistance tables length least →
      0 < least ∧ least + value ≤ windowSize) : (d.resolveField goal value).Near := by
  cases goal with
  | flags =>
      simp only [resolveField]
      split <;> trivial
  | blockHeader =>
      simp only [resolveField]
      split <;> trivial
  | storedCheck =>
      simp only [resolveField]
      split
      · trivial
      · split
        · exact near_endBlock d
        · trivial
  | tableSizes =>
      simp only [resolveField]
      split
      · exact near_nextLengthOfLength d _ _ _
      · trivial
  | lengthOfLength => exact near_nextLengthOfLength d _ _ _
  | lengthRun => exact near_nextCodeLength d _
  | matchDistance tables length least =>
      obtain ⟨hpos, hle⟩ := h tables length least rfl
      exact ⟨Nat.add_pos_left hpos _, hle⟩
  | _ => trivial

/-- A code word for a distance leads to extra bits that keep to the window. -/
theorem near_resolveSymbol (d : Decoder) (goal : SymbolGoal) (symbol : Nat) :
    (d.resolveSymbol goal symbol).Near := by
  cases goal with
  | codeLength r =>
      simp only [resolveSymbol]
      split
      · split <;> trivial
      · trivial
      · trivial
      · exact near_nextCodeLength d _
  | literal tables =>
      simp only [resolveSymbol]
      split
      · trivial
      · split
        · exact near_endBlock d
        · split <;> trivial
  | distance tables length =>
      simp only [resolveSymbol]
      split
      · trivial
      · rename_i least hclass
        obtain ⟨hpos, hle⟩ := distanceClasses_near hclass
        exact ⟨hpos, by omega⟩
      · -- a class with extra bits: the window holds all of its range
        rename_i least extra hextra hclass
        obtain ⟨hpos, hle⟩ := distanceClasses_near hclass
        exact ⟨hpos, Nat.pos_of_ne_zero (fun h0 => hextra h0), Nat.one_pos, hle⟩

/-- A bit keeps matches near. -/
theorem near_bit {d : Decoder} (h : d.Near) (b : Bool) : (d.bit b).Near := by
  obtain ⟨lastBlock, stage⟩ := d
  cases stage with
  | field goal width got value =>
      have hb : b.toNat <<< got ≤ 2 ^ got := by cases b <;> simp [Nat.one_shiftLeft]
      simp only [bit]
      split
      · -- the value stays below the power of two that its bits allow
        rename_i hmore
        cases goal with
        | matchDistance tables length least =>
            obtain ⟨hpos, -, hvalue, hle⟩ := h
            refine ⟨hpos, hmore, ?_, hle⟩
            rw [Nat.pow_succ]
            omega
        | _ => trivial
      · -- the last bit of the field: what the value adds to the class is within its range
        rename_i hlast
        refine near_resolveField _ _ _ ?_
        rintro tables length least rfl
        obtain ⟨hpos, hgot, hvalue, hle⟩ := h
        refine ⟨hpos, ?_⟩
        have hwidth : width = got + 1 := by omega
        rw [hwidth, Nat.pow_succ] at hle
        omega
  | symbol goal tree depth =>
      simp only [bit]
      split
      · exact near_resolveSymbol _ _ _
      · trivial
      · trivial
  | _ => exact h

/-- So does a byte of output. -/
theorem near_delivered {d : Decoder} (h : d.Near) : d.delivered.Near := by
  obtain ⟨lastBlock, stage⟩ := d
  cases stage with
  | copy tables distance left =>
      simp only [delivered]
      split
      · trivial
      · exact h
  | stored left =>
      simp only [delivered]
      split
      · exact near_endBlock _
      · trivial
  | literal => trivial
  | _ => exact h

/-- What is repeated was put out at most a window ago. -/
theorem near_copy {d : Decoder} (h : d.Near) {distance : Nat} (hd : d.demand = .copy distance) :
    0 < distance ∧ distance ≤ windowSize := by
  obtain ⟨lastBlock, stage⟩ := d
  cases stage with
  | copy tables dist left =>
      cases hd
      exact h
  | field goal width got value => cases goal <;> cases got <;> cases hd
  | _ => cases hd

end Decoder
end NorLoader
