import NorLoader.Wire.Cobs

/-!
# Byte stuffing and its undoing

The groups of some bytes have no zero among them, are little longer than the bytes and give them
back.  All three are inductions on the bytes from the middle of a group on, with `n` bytes of it
behind: the next byte is a zero and ends the group, or fills it, or neither.
-/

namespace NorLoader.Cobs

/-! ## Groups -/

/-- The code of a group that counts `n` bytes. -/
theorem toNat_code {n : Nat} (hn : n < groupSize) : (UInt8.ofNat (n + 1)).toNat = n + 1 := by
  rw [UInt8.toNat_ofNat']
  exact Nat.mod_eq_of_lt (by simp only [groupSize] at hn; omega)

/-- Only the code of a full group is `0xFF`. -/
theorem code_ne_full {n : Nat} (hn : n < groupSize) : UInt8.ofNat (n + 1) ≠ 0xFF := by
  intro hfull
  have hcode := (toNat_code hn).symm.trans (congrArg UInt8.toNat hfull)
  rw [show (0xFF : UInt8).toNat = groupSize + 1 from rfl] at hcode
  omega

theorem code_ne_delimiter {n : Nat} (hn : n < groupSize) : UInt8.ofNat (n + 1) ≠ delimiter := by
  intro hzero
  have hcode := (toNat_code hn).symm.trans (congrArg UInt8.toNat hzero)
  exact nomatch hcode

theorem groupsFrom_zero (n : Nat) (rest : List UInt8) :
    groupsFrom n (0 :: rest) = (UInt8.ofNat (n + 1), stuff rest) := rfl

theorem groupsFrom_full {n : Nat} {b : UInt8} (hb : b ≠ 0) (hn : n + 1 = groupSize)
    (rest : List UInt8) : groupsFrom n (b :: rest) = (0xFF, b :: stuff rest) := by
  rw [groupsFrom, if_neg hb, if_pos hn]
  rfl

theorem groupsFrom_within {n : Nat} {b : UInt8} (hb : b ≠ 0) (hn : n + 1 ≠ groupSize)
    (rest : List UInt8) : groupsFrom n (b :: rest)
      = ((groupsFrom (n + 1) rest).1, b :: (groupsFrom (n + 1) rest).2) := by
  rw [groupsFrom, if_neg hb, if_neg hn]

/-- What the groups of some bytes are is told by what begins them. -/
theorem groups_induct {P : Nat → List UInt8 → Prop} (nil : ∀ n < groupSize, P n [])
    (zero : ∀ n < groupSize, ∀ rest, P 0 rest → P n (0 :: rest))
    (full : ∀ n b rest, b ≠ 0 → n + 1 = groupSize → P 0 rest → P n (b :: rest))
    (within : ∀ n b rest, b ≠ 0 → n + 1 < groupSize → P (n + 1) rest → P n (b :: rest))
    {n : Nat} (hn : n < groupSize) (bytes : List UInt8) : P n bytes := by
  induction bytes generalizing n with
  | nil => exact nil n hn
  | cons b rest ih =>
      by_cases hb : b = 0
      · rw [hb]
        exact zero n hn rest (ih (by decide))
      · rcases Nat.lt_or_eq_of_le (Nat.succ_le_of_lt hn) with hroom | hfull
        · exact within n b rest hb hroom (ih hroom)
        · exact full n b rest hb hfull (ih (by decide))

/-! ## The delimiter -/

/-- Stuffed bytes have no delimiter in them. -/
theorem delimiter_not_mem_groupsFrom {n : Nat} (hn : n < groupSize) (bytes : List UInt8) :
    delimiter ∉ (groupsFrom n bytes).1 :: (groupsFrom n bytes).2 := by
  refine groups_induct (P := fun n bytes => delimiter ∉ (groupsFrom n bytes).1 ::
    (groupsFrom n bytes).2) ?nil ?zero ?full ?within hn bytes
  case nil =>
      intro n hn
      exact List.not_mem_cons_of_ne_of_not_mem (code_ne_delimiter hn).symm List.not_mem_nil
  case zero =>
      intro n hn rest ih
      rw [groupsFrom_zero]
      exact List.not_mem_cons_of_ne_of_not_mem (code_ne_delimiter hn).symm ih
  case full =>
      intro n b rest hb hfull ih
      rw [groupsFrom_full hb hfull]
      have hcode : delimiter ≠ 0xFF := by decide
      refine List.not_mem_cons_of_ne_of_not_mem hcode ?_
      exact List.not_mem_cons_of_ne_of_not_mem hb.symm ih
  case within =>
      intro n b rest hb hroom ih
      rw [groupsFrom_within hb (Nat.ne_of_lt hroom)]
      simp only [List.mem_cons, not_or] at ih ⊢
      exact ⟨ih.1, hb.symm, ih.2⟩

/-- A frame can only end at its delimiter. -/
theorem delimiter_not_mem_stuff (bytes : List UInt8) : delimiter ∉ stuff bytes :=
  delimiter_not_mem_groupsFrom (n := 0) (by decide) bytes

/-! ## The length -/

/-- A group that becomes full costs a byte more. -/
theorem length_groupsFrom_le {n : Nat} (hn : n < groupSize) (bytes : List UInt8) :
    (groupsFrom n bytes).2.length ≤ bytes.length + (n + bytes.length) / groupSize := by
  refine groups_induct (P := fun n bytes => (groupsFrom n bytes).2.length
    ≤ bytes.length + (n + bytes.length) / groupSize) ?nil ?zero ?full ?within hn bytes
  case nil => exact fun n _ => Nat.zero_le _
  case zero =>
      intro n hn rest ih
      simp only [groupsFrom_zero, stuff, List.length_cons, groupSize] at *
      omega
  case full =>
      intro n b rest hb hfull ih
      simp only [groupsFrom_full hb hfull, stuff, List.length_cons, groupSize] at *
      omega
  case within =>
      intro n b rest hb hroom ih
      simp only [groupsFrom_within hb (Nat.ne_of_lt hroom), List.length_cons, groupSize] at *
      omega

/-- A frame is longer than its bytes by a code for every full group and two bytes. -/
theorem length_frame_le (bytes : List UInt8) :
    (frame bytes).length ≤ bytes.length + bytes.length / groupSize + 2 := by
  have hgroups := length_groupsFrom_le (n := 0) (by decide) bytes
  rw [Nat.zero_add] at hgroups
  simp only [frame, stuff, List.length_append, List.length_cons, List.length_nil]
  omega

/-! ## Undoing it -/

/-- A group gives the bytes that it counts, and a zero unless it is full or the last. -/
theorem unstuff_group {code : UInt8} {p groups bytes : List UInt8}
    (hcode : code.toNat = p.length + 1) (hgroups : unstuff groups = .ok bytes) :
    unstuff (code :: (p ++ groups))
      = .ok (p ++ if code = 0xFF ∨ groups = [] then bytes else 0 :: bytes) := by
  have hcount : code.toNat - 1 = p.length := by rw [hcode, Nat.add_sub_cancel]
  have hshort : ¬(p ++ groups).length < p.length := by
    rw [List.length_append]
    exact Nat.not_lt.mpr (Nat.le_add_right _ _)
  have hlast : (p ++ groups).length = p.length ↔ groups = [] := by
    rw [List.length_append, Nat.add_eq_left, List.length_eq_zero_iff]
  rw [unstuff]
  simp only [hcount, if_neg hshort, List.drop_left, hgroups, List.take_left, hlast,
    Bool.or_eq_true, decide_eq_true_eq]
  split <;> rfl

/-- Taking groups apart gives back what they were made of, with the bytes `p` of a group already
    there. -/
theorem unstuff_groupsFrom {n : Nat} (hn : n < groupSize) (bytes : List UInt8) :
    ∀ p : List UInt8, p.length = n →
      unstuff ((groupsFrom n bytes).1 :: (p ++ (groupsFrom n bytes).2)) = .ok (p ++ bytes) := by
  refine groups_induct (P := fun n bytes => ∀ p : List UInt8, p.length = n →
    unstuff ((groupsFrom n bytes).1 :: (p ++ (groupsFrom n bytes).2)) = .ok (p ++ bytes))
    ?nil ?zero ?full ?within hn bytes
  case nil =>
      rintro _ hn p rfl
      rw [groupsFrom, unstuff_group (toNat_code hn) (by rw [unstuff]), if_pos (Or.inr rfl)]
  case zero =>
      rintro _ hn rest ih p rfl
      have hrest : unstuff (stuff rest) = .ok rest := ih [] rfl
      rw [groupsFrom_zero, unstuff_group (toNat_code hn) hrest, if_neg]
      rintro (hfull | hnil)
      · exact code_ne_full hn hfull
      · exact List.cons_ne_nil _ _ hnil
  case full =>
      rintro _ b rest hb hfull ih p rfl
      have hrest : unstuff (stuff rest) = .ok rest := ih [] rfl
      have hcode : (0xFF : UInt8).toNat = (p ++ [b]).length + 1 := by
        rw [List.length_append, List.length_singleton, hfull]
        rfl
      have hgroup := unstuff_group hcode hrest
      rw [if_pos (Or.inl rfl), List.append_assoc, List.append_assoc] at hgroup
      rw [groupsFrom_full hb hfull]
      exact hgroup
  case within =>
      rintro _ b rest hb hroom ih p rfl
      have hgroup := ih (p ++ [b]) (by rw [List.length_append, List.length_singleton])
      rw [List.append_assoc, List.append_assoc] at hgroup
      rw [groupsFrom_within hb (Nat.ne_of_lt hroom)]
      exact hgroup

/-- What is stuffed is read back. -/
theorem unstuff_stuff (bytes : List UInt8) : unstuff (stuff bytes) = .ok bytes :=
  unstuff_groupsFrom (by decide) bytes [] rfl

/-- A frame is read up to its delimiter, or without it up to the end of the data. -/
theorem unframe_stuff (bytes : List UInt8) {rest : List UInt8}
    (hrest : (rest.takeWhile fun b => b != delimiter) = []) :
    unframe (stuff bytes ++ rest) = .ok bytes := by
  have hstuffed : ∀ b ∈ stuff bytes, (b != delimiter) = true := by
    intro b hb
    rw [bne_iff_ne]
    rintro rfl
    exact delimiter_not_mem_stuff bytes hb
  rw [unframe, List.takeWhile_append_of_pos hstuffed, hrest, List.append_nil, unstuff_stuff]
  exact nofun

/-- A frame is read back, whatever comes behind it. -/
theorem unframe_frame (bytes rest : List UInt8) : unframe (frame bytes ++ rest) = .ok bytes := by
  rw [frame, List.append_assoc]
  exact unframe_stuff bytes rfl

end NorLoader.Cobs
