import NorLoader.Proofs.Image.Faultless

/-!
# Deliveries of whole windows

What comes out of an unpacker is delivered a full window at a time, and at most the last delivery
is shorter (`Windowed`).  So the deliveries, and with them the programs, follow from the bytes
that were delivered.
-/

namespace NorLoader

/-- A whole window of output. -/
def Delivery.Full (v : Delivery) : Prop := v.storage = .plain ∧ v.bytes.length = windowSize

/-- Whole windows are delivered. -/
theorem dvd_delivered {w : List Delivery} (h : ∀ v ∈ w, v.Full) : windowSize ∣ delivered w := by
  induction w with
  | nil => exact Nat.dvd_zero _
  | cons v w ih =>
      obtain ⟨hv, hw⟩ := List.forall_mem_cons.mp h
      show windowSize ∣ v.bytes.length + delivered w
      rw [hv.2]
      exact Nat.dvd_add (Nat.dvd_refl _) (ih hw)

/-- One delivery sends its bytes. -/
theorem sent_singleton (storage : Storage) (bytes : List UInt8) :
    sent [⟨storage, bytes⟩] = bytes := List.append_nil bytes

/-- Full windows, and at most one more delivery that may be shorter. -/
inductive Windowed : List Delivery → Prop where
  | nil : Windowed []
  | last {bytes : List UInt8} : bytes ≠ [] → bytes.length ≤ windowSize → Windowed [⟨.plain, bytes⟩]
  | cons {v : Delivery} {w : List Delivery} : v.Full → Windowed w → Windowed (v :: w)

namespace Windowed

variable {w w' : List Delivery}

/-- Whole windows may come before. -/
theorem append {tail : List Delivery} (hw : ∀ v ∈ w, v.Full) (htail : Windowed tail) :
    Windowed (w ++ tail) := by
  induction w with
  | nil => exact htail
  | cons v w ih =>
      obtain ⟨hv, hw⟩ := List.forall_mem_cons.mp hw
      exact .cons hv (ih hw)

/-- They may come alone. -/
theorem of_full (hw : ∀ v ∈ w, v.Full) : Windowed w := by
  have hwindowed := append hw .nil
  rw [List.append_nil] at hwindowed
  exact hwindowed

/-- All of it is output. -/
theorem plain (h : Windowed w) : ∀ v ∈ w, v.storage = .plain := by
  induction h with
  | nil => exact nofun
  | last =>
      intro v hv
      rw [List.mem_singleton.mp hv]
  | cons hv _ ih => exact List.forall_mem_cons.mpr ⟨hv.1, ih⟩

/-- Without a byte there is no delivery. -/
theorem nil_of_sent (h : Windowed w) (hsent : sent w = []) : w = [] := by
  cases h with
  | nil => rfl
  | last hne _ => exact absurd (List.append_eq_nil_iff.mp hsent).1 hne
  | cons hv _ =>
      have hlength := congrArg List.length (List.append_eq_nil_iff.mp hsent).1
      rw [hv.2] at hlength
      exact nomatch hlength

/-- No more than a window was delivered in one go. -/
theorem eq_of_sent_le (h : Windowed w) (hne : sent w ≠ []) (hle : (sent w).length ≤ windowSize) :
    w = [⟨.plain, sent w⟩] := by
  cases h with
  | nil => exact absurd rfl hne
  | last _ _ => rw [sent_singleton]
  | cons hv hw =>
      -- the first delivery is a whole window, so there is no other
      rename_i v w
      have hfirst : sent (v :: w) = v.bytes ++ sent w := rfl
      rw [hfirst, List.length_append, hv.2] at hle
      have hrest : sent w = [] := List.length_eq_zero_iff.mp (by omega)
      rw [hfirst, hrest, List.append_nil, hw.nil_of_sent hrest, ← hv.1]

/-- The bytes that were delivered tell how they were delivered. -/
theorem eq_of_sent (h : Windowed w) (h' : Windowed w') (hsent : sent w = sent w') : w = w' := by
  induction h generalizing w' with
  | nil => exact (h'.nil_of_sent hsent.symm).symm
  | last hne hle =>
      rw [sent_singleton] at hsent
      subst hsent
      exact (h'.eq_of_sent_le hne hle).symm
  | cons hv hw ih =>
      rename_i v w
      have hwhole : Windowed (v :: w) := .cons hv hw
      cases h' with
      | nil => exact hwhole.nil_of_sent hsent
      | last hne hle =>
          rw [sent_singleton] at hsent
          subst hsent
          exact hwhole.eq_of_sent_le hne hle
      | cons hv' hw' =>
          rename_i v' w'
          have hsplit : v.bytes ++ sent w = v'.bytes ++ sent w' := hsent
          obtain ⟨hbytes, hrest⟩ := List.append_inj hsplit (hv.2.trans hv'.2.symm)
          have hstorage : v.storage = v'.storage := hv.1.trans hv'.1.symm
          have hsame : v = v' := by
            cases v
            cases v'
            exact congrArg₂ Delivery.mk hstorage hbytes
          rw [hsame, ih hw' hrest]

end Windowed

/-! ## The programs -/

/-- The programs that put an image on the flash a window at a time. -/
def windowPrograms (addr : Nat) (image : List UInt8) : List DeviceCall :=
  (List.range ((image.length + (windowSize - 1)) / windowSize)).map fun i =>
    .program (UInt32.ofNat (addr + windowSize * i)) ((image.drop (windowSize * i)).take windowSize)

/-- The programs of an image begin with its first window. -/
theorem windowPrograms_append {first : List UInt8} (hfirst : first.length = windowSize)
    (addr : Nat) (image : List UInt8) :
    windowPrograms addr (first ++ image)
      = .program (UInt32.ofNat addr) first :: windowPrograms (addr + windowSize) image := by
  have hcount : ((first ++ image).length + (windowSize - 1)) / windowSize
      = (image.length + (windowSize - 1)) / windowSize + 1 := by
    rw [List.length_append, hfirst]
    simp only [windowSize]
    omega
  rw [windowPrograms, hcount, List.range_succ_eq_map, List.map_cons, List.map_map]
  refine List.cons_eq_cons.mpr ⟨?_, List.map_congr_left ?_⟩
  · rw [Nat.mul_zero, Nat.add_zero, List.drop_zero, List.take_left' hfirst]
  · intro i _
    have haddr : addr + windowSize * (i + 1) = addr + windowSize + windowSize * i := by
      rw [Nat.mul_succ]
      omega
    have hdrop : (first ++ image).drop (windowSize * (i + 1)) = image.drop (windowSize * i) := by
      rw [Nat.mul_succ, Nat.add_comm, ← List.drop_drop, List.drop_left' hfirst]
    show DeviceCall.program (UInt32.ofNat (addr + windowSize * (i + 1)))
      (((first ++ image).drop (windowSize * (i + 1))).take windowSize) = _
    rw [haddr, hdrop]

/-- Windows that lie below the top of the address space are programmed where they belong. -/
theorem placements_windowed {w : List Delivery} (h : Windowed w) (addr : Nat)
    (hle : addr + (sent w).length ≤ 2 ^ 32) :
    placements addr w = windowPrograms addr (sent w) := by
  induction h generalizing addr with
  | nil => rfl
  | cons hv _ ih =>
      rename_i v w _
      obtain ⟨storage, bytes⟩ := v
      obtain ⟨hstorage, hlength⟩ := hv
      simp only at hstorage hlength
      subst hstorage
      have hsplit : (sent (⟨.plain, bytes⟩ :: w)).length = bytes.length + (sent w).length :=
        List.length_append
      rw [hsplit, hlength] at hle
      have haddr : clampWord addr = UInt32.ofNat addr :=
        if_pos (show addr < 2 ^ 32 by simp only [windowSize] at hle; omega)
      show DeviceCall.program (clampWord addr) bytes :: placements (addr + bytes.length) w
        = windowPrograms addr (bytes ++ sent w)
      rw [haddr, hlength, ih _ (by omega), windowPrograms_append hlength]
  | last hne hle' =>
      rename_i bytes
      have hpos := List.length_pos_iff.mpr hne
      have hone : (bytes.length + (windowSize - 1)) / windowSize = 1 := by
        simp only [windowSize] at hle' ⊢
        omega
      rw [sent_singleton] at hle
      have haddr : clampWord addr = UInt32.ofNat addr := if_pos (show addr < 2 ^ 32 by omega)
      rw [sent_singleton, windowPrograms, hone]
      show [DeviceCall.program (clampWord addr) bytes]
        = [DeviceCall.program (UInt32.ofNat (addr + windowSize * 0)) _]
      rw [Nat.mul_zero, Nat.add_zero, List.drop_zero, List.take_of_length_le hle', haddr]

/-! ## The windows on a device -/

/-- Every window of an image of some size keeps to a device; past the last address a window is sent
    there. -/
def WindowsWithin (capacity addr size : Nat) : Prop :=
  ∀ i, windowSize * i < size →
    (clampWord (addr + windowSize * i)).toNat + min windowSize (size - windowSize * i) ≤ capacity

/-- On a device that ends below the last address the windows lie on the device if the image does. -/
theorem windowsWithin_iff {capacity : Nat} (hcapacity : capacity < 2 ^ 32) (addr size : Nat) :
    WindowsWithin capacity addr size ↔ size = 0 ∨ addr + size ≤ capacity := by
  constructor
  · intro h
    by_cases hzero : size = 0
    · exact Or.inl hzero
    · -- the last window is the one that may leave the device
      have hlast := h ((size - 1) / windowSize) (by simp only [windowSize]; omega)
      rw [toNat_clampWord] at hlast
      simp only [windowSize] at hlast
      omega
  · rintro (rfl | hinside) i hi
    · exact absurd hi (Nat.not_lt_zero _)
    · rw [toNat_clampWord]
      omega

/-- The first window of an image and those that follow it. -/
theorem windowsWithin_cons {capacity addr size : Nat} :
    WindowsWithin capacity addr (windowSize + size) ↔
      (clampWord addr).toNat + windowSize ≤ capacity ∧
        WindowsWithin capacity (addr + windowSize) size := by
  have hshift : ∀ i, addr + windowSize * (i + 1) = addr + windowSize + windowSize * i := by
    intro i
    rw [Nat.mul_succ]
    omega
  have hrest : ∀ i, windowSize + size - windowSize * (i + 1) = size - windowSize * i := by
    intro i
    rw [Nat.mul_succ]
    omega
  constructor
  · refine fun h => ⟨?_, fun i hi => ?_⟩
    · have hfirst := h 0 (by simp only [windowSize]; omega)
      simpa using hfirst
    · have hnext := h (i + 1) (by rw [Nat.mul_succ]; omega)
      rwa [hshift, hrest] at hnext
  · rintro ⟨hfirst, hnext⟩ i hi
    cases i with
    | zero => simpa using hfirst
    | succ i =>
        rw [hshift, hrest]
        exact hnext i (by rw [Nat.mul_succ] at hi; omega)

/-- The programs of full windows, and of one that may be shorter, keep to a device as the windows
    of an image of their size do. -/
theorem Windowed.within_iff {w : List Delivery} (h : Windowed w) (capacity addr : Nat) :
    (∀ call ∈ placements addr w, call.Within capacity) ↔
      WindowsWithin capacity addr (sent w).length := by
  induction h generalizing addr with
  | nil => exact ⟨fun _ i hi => absurd hi (Nat.not_lt_zero _), fun _ => nofun⟩
  | last hne hle =>
      rename_i bytes
      have hpos := List.length_pos_iff.mpr hne
      have hone : (∀ call ∈ placements addr [⟨.plain, bytes⟩], call.Within capacity) ↔
          (clampWord addr).toNat + bytes.length ≤ capacity := List.forall_mem_singleton
      rw [hone, sent_singleton]
      constructor
      · intro hin i hi
        obtain rfl : i = 0 := by
          simp only [windowSize] at hi hle
          omega
        rw [Nat.mul_zero, Nat.sub_zero, Nat.min_eq_right hle]
        exact hin
      · intro hin
        have hfirst := hin 0 hpos
        rwa [Nat.mul_zero, Nat.sub_zero, Nat.min_eq_right hle] at hfirst
  | cons hv hw ih =>
      rename_i v w
      obtain ⟨storage, bytes⟩ := v
      obtain ⟨hstorage, hlength⟩ := hv
      simp only at hstorage hlength
      subst hstorage
      have hsplit : (sent (⟨.plain, bytes⟩ :: w)).length = windowSize + (sent w).length := by
        rw [← hlength]
        exact List.length_append
      have hfirst : (∀ call ∈ placements addr (⟨.plain, bytes⟩ :: w), call.Within capacity) ↔
          (clampWord addr).toNat + bytes.length ≤ capacity ∧
            ∀ call ∈ placements (addr + bytes.length) w, call.Within capacity :=
        List.forall_mem_cons
      rw [hfirst, hlength, ih, hsplit, windowsWithin_cons]

end NorLoader
