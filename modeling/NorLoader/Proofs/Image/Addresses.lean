import NorLoader.Proofs.Image.EraseTiling

/-!
# The addresses of erases and programs

An opening does not ask whether its span ends at the last address or goes past it, and addresses are
words that stop at the last one.  So a sector or a byte for which there is an address is erased or
programmed there, and what lies beyond is sent to the last address (`addresses_saturate`).  Only
there can two programs of a job begin at the same address.  As long as a span does not go past the
last address nothing is cut short, and every address is the one that the calls before it tell
(`ExactlyAddressed`).
-/

namespace NorLoader

/-- Every erase and every program is where the ones before it end.  `send` is the address that is
    used for a place. -/
structure Addressed (send : Nat → Nat) (offset : Nat) (calls : List DeviceCall) : Prop where
  erases : ∀ pre addr (unit : EraseSize) post, erasesOf calls = pre ++ (addr, unit) :: post →
    let sector := offset / sectorSize + (pre.map fun e => e.2.sectors).sum
    addr.toNat = send (sector * sectorSize) ∧ sector % unit.sectors = 0
  programs : ∀ pre addr bytes post, programsOf calls = pre ++ (addr, bytes) :: post →
    addr.toNat = send (offset + (pre.flatMap Prod.snd).length)

/-- Every place has its own address. -/
structure ExactlyAddressed (offset : Nat) (calls : List DeviceCall) : Prop
    extends Addressed id offset calls where
  aligned : ∀ e ∈ erasesOf calls, e.1.toNat % e.2.bytes = 0
  distinct : ((programsOf calls).map Prod.fst).Nodup

/-! ## Programs -/

/-- Each program begins where the bytes before it end, and before all are delivered. -/
theorem placements_split {addr : Nat} {w : List Delivery} (hne : ∀ v ∈ w, v.bytes ≠ [])
    {pre post : List (UInt32 × List UInt8)} {p : UInt32 × List UInt8}
    (h : programsOf (placements addr w) = pre ++ p :: post) :
    p.1 = clampWord (addr + (pre.flatMap Prod.snd).length) ∧
      (pre.flatMap Prod.snd).length < delivered w := by
  induction w generalizing addr pre with
  | nil => exact absurd h.symm (List.append_ne_nil_of_right_ne_nil _ (List.cons_ne_nil _ _))
  | cons v w ih =>
      obtain ⟨hv, hw⟩ := List.forall_mem_cons.mp hne
      have hpos := List.length_pos_iff.mpr hv
      have hsum : delivered (v :: w) = v.bytes.length + delivered w := rfl
      rw [programsOf_placements_cons] at h
      cases pre with
      | nil =>
          obtain ⟨rfl, -⟩ := List.cons.inj h
          exact ⟨rfl, Nat.lt_of_lt_of_le hpos (by omega)⟩
      | cons q pre =>
          obtain ⟨rfl, htail⟩ := List.cons.inj h
          obtain ⟨hp, hlt⟩ := ih hw htail
          rw [List.flatMap_cons, List.length_append]
          exact ⟨by rw [hp, Nat.add_assoc], by rw [hsum]; exact Nat.add_lt_add_left hlt _⟩

/-- A later program is for a later place. -/
theorem pairwise_placements {addr : Nat} {w : List Delivery} (hne : ∀ v ∈ w, v.bytes ≠ []) :
    (programsOf (placements addr w)).Pairwise fun p q =>
      ∃ n n', p.1 = clampWord n ∧ q.1 = clampWord n' ∧ n < n' ∧ n' < addr + delivered w := by
  induction w generalizing addr with
  | nil => exact List.Pairwise.nil
  | cons v w ih =>
      obtain ⟨hv, hw⟩ := List.forall_mem_cons.mp hne
      have hpos := List.length_pos_iff.mpr hv
      have hsum : delivered (v :: w) = v.bytes.length + delivered w := rfl
      rw [programsOf_placements_cons]
      refine List.Pairwise.cons ?_ ?_
      · intro q hq
        obtain ⟨pre, post, hsplit⟩ := List.append_of_mem hq
        obtain ⟨hplace, hlt⟩ := placements_split hw hsplit
        exact ⟨addr, _, rfl, hplace, by omega, by omega⟩
      · refine (ih hw).imp ?_
        rintro p q ⟨n, n', hp, hq, hlt, hto⟩
        exact ⟨n, n', hp, hq, hlt, by omega⟩

/-- Two places have the same address only if both are at the last one or beyond. -/
theorem eq_topWord_of_clampWord {n n' : Nat} (hlt : n < n') (h : clampWord n = clampWord n') :
    2 ^ 32 ≤ n' ∧ clampWord n = topWord := by
  have hsame := congrArg UInt32.toNat h
  rw [toNat_clampWord, toNat_clampWord] at hsame
  refine ⟨by omega, UInt32.toNat_inj.mp ?_⟩
  rw [toNat_clampWord]
  show _ = 0xFFFFFFFF
  omega

/-! ## Jobs -/

namespace Job.Chart

variable {offset size : UInt32} {calls : List DeviceCall} {w : List Delivery} {j : Job}

/-- Each erase begins where the ones before it end, aligned to its unit and inside the span. -/
theorem erases_split (h : j.Chart offset size calls w) {pre post : List (UInt32 × EraseSize)}
    {addr : UInt32} {unit : EraseSize} (hsplit : erasesOf calls = pre ++ (addr, unit) :: post) :
    let sector := offset.toNat / sectorSize + (pre.map fun e => e.2.sectors).sum
    addr = clampWord (sector * sectorSize) ∧ sector % unit.sectors = 0 ∧
      sector + unit.sectors ≤ endSector offset.toNat size.toNat := by
  -- the erases so far are the first tiles of the span
  have htiles := h.erases
  rw [hsplit, List.append_assoc, List.cons_append, spanErases] at htiles
  obtain ⟨pre', rest, hspan, hpre, hrest⟩ := List.append_eq_map_iff.mp htiles
  obtain ⟨tile, post', rfl, hcommand, -⟩ := List.map_eq_cons_iff.mp hrest
  obtain ⟨haddr, hunit⟩ := Prod.mk.inj hcommand
  obtain ⟨hsector, haligned, hend⟩ := tiles_split hspan
  have hsum : (pre.map fun e => e.2.sectors) = pre'.map fun t => t.2.sectors := by
    rw [← hpre, List.map_map]
    rfl
  rw [hsum, ← hsector, ← hunit]
  exact ⟨haddr.symm, haligned, hend⟩

/-- Each program begins inside the span. -/
theorem programs_split (h : j.Chart offset size calls w) {pre post : List (UInt32 × List UInt8)}
    {p : UInt32 × List UInt8} (hsplit : programsOf calls = pre ++ p :: post) :
    p.1 = clampWord (offset.toNat + (pre.flatMap Prod.snd).length) ∧
      (pre.flatMap Prod.snd).length < size.toNat := by
  obtain ⟨hplace, hlt⟩ := placements_split h.nonempty (h.programs.symm.trans hsplit)
  exact ⟨hplace, Nat.lt_of_lt_of_le hlt (Nat.le.intro h.remaining)⟩

/-- Addresses are those of the plan and the cursor, cut off at the last address. -/
theorem addressed (h : j.Chart offset size calls w) :
    Addressed (fun n => min n (2 ^ 32 - 1)) offset.toNat calls where
  erases := by
    intro pre addr unit post hsplit
    obtain ⟨haddr, haligned, -⟩ := h.erases_split hsplit
    rw [haddr]
    exact ⟨toNat_clampWord _, haligned⟩
  programs := by
    intro pre addr bytes post hsplit
    obtain ⟨haddr, -⟩ := h.programs_split hsplit
    exact (congrArg UInt32.toNat haddr).trans (toNat_clampWord _)

/-- Only the last address is programmed twice. -/
theorem distinct_below_top (h : j.Chart offset size calls w) :
    (programsOf calls).Pairwise fun p q => p.1 = q.1 → p.1 = topWord := by
  rw [h.programs]
  refine (pairwise_placements h.nonempty).imp ?_
  rintro p q ⟨n, n', hp, hq, hlt, -⟩ hsame
  rw [hp, hq] at hsame
  rw [hp]
  exact (eq_topWord_of_clampWord hlt hsame).2

/-- A span that does not go past the last address has no sector without an address. -/
theorem erases_exact (h : j.Chart offset size calls w)
    (haddressable : offset.toNat + size.toNat ≤ 2 ^ 32) {pre post : List (UInt32 × EraseSize)}
    {addr : UInt32} {unit : EraseSize} (hsplit : erasesOf calls = pre ++ (addr, unit) :: post) :
    let sector := offset.toNat / sectorSize + (pre.map fun e => e.2.sectors).sum
    addr.toNat = sector * sectorSize ∧ sector % unit.sectors = 0 := by
  intro sector
  obtain ⟨haddr, haligned, hend⟩ := h.erases_split hsplit
  have hpos := unit.sectors_pos
  refine ⟨?_, haligned⟩
  rw [haddr]
  have hless : (sector, unit).1 < endSector offset.toNat size.toNat := by
    show sector < _
    omega
  exact toNat_eraseCommand haddressable (sector, unit) hless

/-- In a span that ends where addresses do, nothing is cut off. -/
theorem exactlyAddressed (h : j.Chart offset size calls w)
    (haddressable : offset.toNat + size.toNat ≤ 2 ^ 32) :
    ExactlyAddressed offset.toNat calls where
  erases _ _ _ _ hsplit := h.erases_exact haddressable hsplit
  programs := by
    intro pre addr bytes post hsplit
    obtain ⟨haddr, hlt⟩ := h.programs_split hsplit
    refine (congrArg UInt32.toNat haddr).trans ((toNat_clampWord _).trans ?_)
    exact Nat.min_eq_left (by omega)
  aligned := by
    rintro ⟨addr, unit⟩ he
    obtain ⟨pre, post, hsplit⟩ := List.append_of_mem he
    obtain ⟨haddr, haligned⟩ := h.erases_exact haddressable hsplit
    show addr.toNat % unit.bytes = 0
    rw [haddr, EraseSize.bytes_eq, Nat.mul_mod_mul_right, haligned, Nat.zero_mul]
  distinct := by
    rw [List.nodup_iff_pairwise_ne, List.pairwise_map, h.programs]
    refine (pairwise_placements h.nonempty).imp ?_
    rintro p q ⟨n, n', hp, hq, hlt, hto⟩ hsame
    have hspan := h.remaining
    rw [hp, hq] at hsame
    have := (eq_topWord_of_clampWord hlt hsame).1
    omega

end Job.Chart

namespace Loader

variable {δ : Type} [FlashDevice δ]

/-- On every device and for every span that it is opened for, a job erases and programs where the
    calls before it end, or at the last address where that is not an address any more.  Two programs
    begin at the same address only if it is the last one.  If the span does not go past the last
    address then every address is exact, aligned and used once. -/
theorem addresses_saturate (l : Loader δ) (packed : Option UInt32) (size offset : UInt32)
    (cs : List LoaderCall) (hopen : (l.openJob packed size offset).1 = .ok ())
    (hcs : ∀ c ∈ cs, c.span? = none) :
    let opened := (l.openJob packed size offset).2
    let l' := opened.recorded.calls cs
    l'.map Recorder.device = opened.calls cs ∧
      Addressed (fun n => min n (2 ^ 32 - 1)) offset.toNat l'.device.calls ∧
      ((programsOf l'.device.calls).Pairwise fun p q => p.1 = q.1 → p.1 = topWord) ∧
      (offset.toNat + size.toNat ≤ 2 ^ 32 → ExactlyAddressed offset.toNat l'.device.calls) := by
  intro opened l'
  have hjob : opened.recorded.job = .fresh size offset := by
    show opened.job = _
    rw [show opened = _ from openJob_ok hopen]
  obtain ⟨w, calls, hcalls, hchart⟩ := charted_calls Recorder.callLog hjob hcs
  -- a new record is empty
  have hrecord : l'.device.calls = calls := hcalls
  rw [hrecord]
  exact ⟨map_recorded opened cs, hchart.addressed, hchart.distinct_below_top,
    hchart.exactlyAddressed⟩

/-- A span across the border of two blocks, given in three writes. -/
theorem addresses_saturate_across_blocks :
    let d : Simulator (32 * 4096) := { eraseTime := 3 }
    let cs : List LoaderCall :=
      [.write .plain [1], .eraseAhead, .write .encrypted [2, 3], .write .plain [4]]
    let l' := (Loader.openJob { device := d } none 4 0xFFFE).2.recorded.calls cs
    ExactlyAddressed 0xFFFE l'.device.calls ∧
      erasesOf l'.device.calls = [(0xF000, .sector), (0x10000, .sector)] ∧
      (programsOf l'.device.calls).map Prod.fst = [0xFFFE, 0xFFFF, 0x10001] := by
  intro d cs l'
  obtain ⟨-, -, -, hexact⟩ := addresses_saturate { device := d } none 4 0xFFFE cs rfl (by decide)
  exact ⟨hexact (by decide), by decide +kernel, by decide +kernel⟩

/-- A span of two bytes of which only the first has an address: the sector of the second is erased at
    the last address, which is not aligned, and the second byte is programmed over the first. -/
theorem addresses_beyond_last :
    let d : Simulator 8192 := {}
    let opened := Loader.openJob { device := d } none 2 0xFFFFFFFF
    let l' := opened.2.recorded.calls [.write .plain [1], .write .plain [2], .eraseAhead]
    opened.1 = .ok () ∧
      erasesOf l'.device.calls = [(0xFFFFF000, .sector), (0xFFFFFFFF, .sector)] ∧
      programsOf l'.device.calls = [(0xFFFFFFFF, [1]), (0xFFFFFFFF, [2])] ∧
      ¬ExactlyAddressed 0xFFFFFFFF l'.device.calls := by
  intro d opened l'
  have herases : erasesOf l'.device.calls
      = [(0xFFFFF000, .sector), (0xFFFFFFFF, .sector)] := by decide +kernel
  have hprograms : programsOf l'.device.calls
      = [(0xFFFFFFFF, [1]), (0xFFFFFFFF, [2])] := by decide +kernel
  refine ⟨rfl, herases, hprograms, ?_⟩
  intro hexact
  have hdistinct := hexact.distinct
  rw [hprograms] at hdistinct
  exact absurd hdistinct (by decide)

end Loader
end NorLoader
