import Mathlib.Data.List.Basic
import NorLoader.Proofs.Flash.EraseFrontier

/-!
# The tiles of a span

Which erases clear the sectors from `first` up to `last`: a block for every aligned run of sixteen
that lies wholly between them, and a sector for each sector that is in no such run.  `tiles` says
this sector by sector, without a word on how a plan goes about it.  The next erase of a plan is the
head of its tiles, and what is left of the plan after it has the tail (`ErasePlan.tiles_of_next`);
so the erases that a plan has issued and those that are to come always make up the same list.
-/

namespace NorLoader

/-- The aligned run of sixteen sectors around a sector lies wholly within some bounds. -/
def WholeBlock (first last sector : Nat) : Prop :=
  first ≤ sector / sectorsPerBlock * sectorsPerBlock ∧
    sector / sectorsPerBlock * sectorsPerBlock + sectorsPerBlock ≤ last

/-- Whether a block may be erased as one is a comparison. -/
instance (first last sector : Nat) : Decidable (WholeBlock first last sector) :=
  inferInstanceAs (Decidable (_ ∧ _))

/-- The erase that begins at a sector, if one does. -/
def tileAt (first last sector : Nat) : Option (Nat × EraseSize) :=
  if WholeBlock first last sector then
    if sector % sectorsPerBlock = 0 then some (sector, .block) else none
  else some (sector, .sector)

/-- The erases that clear the sectors from `first` up to `last`, each with its first sector. -/
def tiles (first last : Nat) : List (Nat × EraseSize) :=
  (List.range' first (last - first)).filterMap (tileAt first last)

/-- The sectors that some erases clear, one erase after the other. -/
def sectorsOf (ts : List (Nat × EraseSize)) : List Nat :=
  ts.flatMap fun t => List.range' t.1 t.2.sectors

/-! ## One tile after the other -/

/-- A span without sectors has no tiles. -/
theorem tiles_nil {first last : Nat} (h : last ≤ first) : tiles first last = [] := by
  rw [tiles, Nat.sub_eq_zero_of_le h]
  rfl

/-- Sectors at which the same tiles begin, whatever the lower bound. -/
theorem filterMap_tileAt_congr {first first' last start len : Nat}
    (h : ∀ k, start ≤ k → (WholeBlock first last k ↔ WholeBlock first' last k)) :
    (List.range' start len).filterMap (tileAt first last)
      = (List.range' start len).filterMap (tileAt first' last) := by
  refine List.filterMap_congr ?_
  intro k hk
  obtain ⟨hfrom, -⟩ := List.mem_range'_1.mp hk
  simp only [tileAt, h k hfrom]

/-- At the border of a block that fits a block is erased. -/
theorem tiles_block {first last : Nat} (haligned : first % sectorsPerBlock = 0)
    (hfits : first + sectorsPerBlock ≤ last) :
    tiles first last = (first, .block) :: tiles (first + sectorsPerBlock) last := by
  have hlen : last - first = 1 + (sectorsPerBlock - 1) + (last - (first + sectorsPerBlock)) := by
    simp only [sectorsPerBlock] at hfits ⊢
    omega
  have hhead : tileAt first last first = some (first, .block) := by
    have hwhole : WholeBlock first last first := by
      simp only [WholeBlock, sectorsPerBlock] at *
      omega
    rw [tileAt, if_pos hwhole, if_pos haligned]
  -- the other sectors of the block have no tile of their own
  have hinner : (List.range' (first + 1) (sectorsPerBlock - 1)).filterMap (tileAt first last)
      = [] := by
    rw [List.filterMap_eq_nil_iff]
    intro k hk
    obtain ⟨hfrom, hto⟩ := List.mem_range'_1.mp hk
    have hwhole : WholeBlock first last k := by
      simp only [WholeBlock, sectorsPerBlock] at *
      omega
    have hnot : k % sectorsPerBlock ≠ 0 := by
      simp only [sectorsPerBlock] at *
      omega
    rw [tileAt, if_pos hwhole, if_neg hnot]
  have hrest : ∀ k, first + sectorsPerBlock ≤ k →
      (WholeBlock first last k ↔ WholeBlock (first + sectorsPerBlock) last k) := by
    intro k hk
    simp only [WholeBlock, sectorsPerBlock] at *
    omega
  rw [tiles, hlen, ← List.range'_append_1, ← List.range'_append_1, List.filterMap_append,
    List.filterMap_append, List.range'_one, List.filterMap_cons, hhead, hinner,
    filterMap_tileAt_congr (by
      intro k hk
      exact hrest k (by simp only [sectorsPerBlock] at *; omega))]
  rfl

/-- Anywhere else a sector is erased. -/
theorem tiles_sector {first last : Nat} (hlt : first < last)
    (hnot : ¬(first % sectorsPerBlock = 0 ∧ first + sectorsPerBlock ≤ last)) :
    tiles first last = (first, .sector) :: tiles (first + 1) last := by
  have hlen : last - first = (last - (first + 1)) + 1 := by omega
  have hhead : tileAt first last first = some (first, .sector) := by
    have hpart : ¬WholeBlock first last first := by
      simp only [WholeBlock, sectorsPerBlock] at *
      omega
    rw [tileAt, if_neg hpart]
  have hrest : ∀ k, first + 1 ≤ k →
      (WholeBlock first last k ↔ WholeBlock (first + 1) last k) := by
    intro k hk
    simp only [WholeBlock, sectorsPerBlock] at *
    omega
  rw [tiles, hlen, List.range'_succ, List.filterMap_cons, hhead, filterMap_tileAt_congr hrest]
  rfl

/-- A fact about tiles follows from the three ways in which they go on. -/
theorem tiles_induction {P : Nat → List (Nat × EraseSize) → Prop} {last : Nat}
    (nil : ∀ first, last ≤ first → P first [])
    (cons : ∀ first (unit : EraseSize), first + unit.sectors ≤ last →
      first % unit.sectors = 0 → P (first + unit.sectors) (tiles (first + unit.sectors) last) →
      P first ((first, unit) :: tiles (first + unit.sectors) last))
    (first : Nat) : P first (tiles first last) := by
  induction hn : last - first using Nat.strongRecOn generalizing first with
  | ind n ih =>
      have hnext (unit : EraseSize) (hle : first + unit.sectors ≤ last) :
          P (first + unit.sectors) (tiles (first + unit.sectors) last) := by
        have hpos := unit.sectors_pos
        exact ih (last - (first + unit.sectors)) (by omega) _ rfl
      by_cases hlt : first < last
      · by_cases hblock : first % sectorsPerBlock = 0 ∧ first + sectorsPerBlock ≤ last
        · rw [tiles_block hblock.1 hblock.2]
          exact cons first .block hblock.2 hblock.1 (hnext .block hblock.2)
        · rw [tiles_sector hlt hblock]
          exact cons first .sector hlt (Nat.mod_one _) (hnext .sector hlt)
      · rw [tiles_nil (Nat.le_of_not_lt hlt)]
        exact nil first (Nat.le_of_not_lt hlt)

/-! ## What tiles are -/

/-- The tiles clear every sector within the bounds, in ascending order and once. -/
theorem sectorsOf_tiles (first last : Nat) :
    sectorsOf (tiles first last) = List.range' first (last - first) := by
  refine tiles_induction (P := fun first ts => sectorsOf ts = List.range' first (last - first))
    ?_ ?_ first
  · intro first hle
    rw [Nat.sub_eq_zero_of_le hle]
    rfl
  · intro first unit hle _ ih
    have hsplit : last - first = unit.sectors + (last - (first + unit.sectors)) := by omega
    rw [hsplit, ← List.range'_append_1]
    exact congrArg (List.range' first unit.sectors ++ ·) ih

/-- A tile is in the list if its sector is in the span and begins one. -/
theorem mem_tiles {first last sector : Nat} {unit : EraseSize} :
    (sector, unit) ∈ tiles first last ↔
      (first ≤ sector ∧ sector < last) ∧ tileAt first last sector = some (sector, unit) := by
  simp only [tiles, List.mem_filterMap, List.mem_range'_1]
  constructor
  · rintro ⟨k, hk, htile⟩
    -- a tile carries the sector that it begins at
    have hsame : k = sector := by
      simp only [tileAt] at htile
      split at htile
      · split at htile <;> cases htile
        rfl
      · cases htile
        rfl
    subst hsame
    exact ⟨by omega, htile⟩
  · rintro ⟨hbounds, htile⟩
    exact ⟨sector, by omega, htile⟩

/-- Every tile begins before the end. -/
theorem lt_of_mem_tiles {first last : Nat} {tile : Nat × EraseSize} (h : tile ∈ tiles first last) :
    tile.1 < last :=
  (mem_tiles.mp h).1.2

/-- A block is erased where, and only where, all of it is within the bounds. -/
theorem block_mem_tiles {first last sector : Nat} : (sector, .block) ∈ tiles first last ↔
    sector % sectorsPerBlock = 0 ∧ WholeBlock first last sector := by
  rw [mem_tiles]
  constructor
  · rintro ⟨-, htile⟩
    by_cases hwhole : WholeBlock first last sector
    · by_cases haligned : sector % sectorsPerBlock = 0
      · exact ⟨haligned, hwhole⟩
      · rw [tileAt, if_pos hwhole, if_neg haligned] at htile
        exact nomatch htile
    · rw [tileAt, if_neg hwhole] at htile
      exact nomatch htile
  · rintro ⟨haligned, hwhole⟩
    refine ⟨?_, by rw [tileAt, if_pos hwhole, if_pos haligned]⟩
    simp only [WholeBlock, sectorsPerBlock] at *
    omega

/-- A sector is erased by itself where it is within the bounds and the block around it is not. -/
theorem sector_mem_tiles {first last sector : Nat} : (sector, .sector) ∈ tiles first last ↔
    (first ≤ sector ∧ sector < last) ∧ ¬WholeBlock first last sector := by
  rw [mem_tiles]
  refine and_congr_right ?_
  intro _
  by_cases hwhole : WholeBlock first last sector
  · rw [tileAt, if_pos hwhole]
    refine iff_of_false ?_ (fun hpart => hpart hwhole)
    split <;> nofun
  · rw [tileAt, if_neg hwhole]
    exact iff_of_true rfl hwhole

/-- Each tile begins where those before it end, on a border of its own size. -/
theorem tiles_split {first last sector : Nat} {unit : EraseSize} {pre post : List (Nat × EraseSize)}
    (h : tiles first last = pre ++ (sector, unit) :: post) :
    sector = first + (pre.map fun t => t.2.sectors).sum ∧ sector % unit.sectors = 0 ∧
      sector + unit.sectors ≤ last := by
  refine tiles_induction (P := fun first ts => ∀ pre, ts = pre ++ (sector, unit) :: post →
    sector = first + (pre.map fun t => t.2.sectors).sum ∧ sector % unit.sectors = 0 ∧
      sector + unit.sectors ≤ last) ?_ ?_ first pre h
  · intro first _ pre hnil
    exact absurd hnil.symm (List.append_ne_nil_of_right_ne_nil _ (List.cons_ne_nil _ _))
  · intro first unit' hle haligned ih pre hcons
    cases pre with
    | nil =>
        obtain ⟨hhead, -⟩ := List.cons.inj hcons
        cases hhead
        exact ⟨rfl, haligned, hle⟩
    | cons t pre =>
        obtain ⟨rfl, htail⟩ := List.cons.inj hcons
        obtain ⟨hsector, hrest⟩ := ih pre htail
        refine ⟨?_, hrest⟩
        rw [hsector, List.map_cons, List.sum_cons, Nat.add_assoc]

/-! ## The tiles of a plan -/

namespace ErasePlan

/-- What is left of a plan to erase. -/
def tiles (p : ErasePlan) : List (Nat × EraseSize) :=
  NorLoader.tiles p.first.toNat p.lastSector

/-- There is nothing to tile for an empty plan. -/
theorem tiles_of_empty {p : ErasePlan} (h : p.isEmpty = true) : p.tiles = [] := by
  refine tiles_nil ?_
  rw [lastSector, (isEmpty_iff p).mp h]
  exact Nat.le_refl _

/-- The next erase of a plan is its first tile, and leaves the others. -/
theorem tiles_of_next {p : ErasePlan} {size : EraseSize} (h : p.nextSize = some size)
    (hend : p.lastSector < 2 ^ 32) :
    p.tiles = (p.first.toNat, size) :: (p.after size).tiles := by
  have hle := (nextSize_some h).1
  have hmod := (nextSize_some h).2
  have hpos := size.sectors_pos
  rw [tiles, tiles, lastSector_after h hend, toNat_first_after h hend]
  cases size with
  | block =>
      refine tiles_block hmod ?_
      simp only [lastSector, EraseSize.sectors] at hle ⊢
      omega
  | sector =>
      refine tiles_sector (by simp only [lastSector]; omega) ?_
      rintro ⟨haligned, hfits⟩
      -- the plan takes a block whenever it can
      have hblock : p.nextSize = some .block := by
        have hcount : p.count.toNat ≥ sectorsPerBlock := by
          simp only [lastSector] at hfits
          omega
        have hne : ¬p.isEmpty = true := by
          rw [isEmpty_iff]
          omega
        rw [nextSize, if_neg hne, if_pos ⟨hcount, haligned⟩]
      cases h.symm.trans hblock

end ErasePlan
end NorLoader
