import NorLoader.Proofs.Image.Contents

/-!
# Jobs on a device without faults

When no fault is switched on, it depends on the place and on the way of storing alone whether a
delivery is carried out, and nothing that a job does changes that (`conduct_upkeep`).  So the log
shows one program for each delivery, one behind the other up to the last address (`placements`),
and a job keeps an error exactly if one of them leaves the device (`Aimed.error_write`).  If the
span lies on the device, none does, and the span holds what was delivered (`Faultless`).
-/

namespace NorLoader

namespace DeviceCall

/-- Whether a call programs cells. -/
def isProgram : DeviceCall → Bool
  | program .. => true
  | encryptAndProgram .. => true
  | _ => false

/-- A program keeps to a device of some capacity. -/
def Within (capacity : Nat) : DeviceCall → Prop
  | program addr data => addr.toNat + data.length ≤ capacity
  | encryptAndProgram addr data => addr.toNat + data.length ≤ capacity
  | _ => True

end DeviceCall

/-- The program of a delivery that belongs at an address; past the last address it is sent there. -/
def Delivery.call (v : Delivery) (addr : Nat) : DeviceCall :=
  match v.storage with
  | .plain => .program (clampWord addr) v.bytes
  | .encrypted => .encryptAndProgram (clampWord addr) v.bytes

/-- The programs of some deliveries, from an address on. -/
def placements (addr : Nat) : List Delivery → List DeviceCall
  | [] => []
  | v :: w => v.call addr :: placements (addr + v.bytes.length) w

/-- The places of some deliveries go on with those of the next. -/
theorem placements_append (addr : Nat) (w w' : List Delivery) :
    placements addr (w ++ w') = placements addr w ++ placements (addr + delivered w) w' := by
  induction w generalizing addr with
  | nil => rfl
  | cons u w ih =>
      show u.call addr :: placements (addr + u.bytes.length) (w ++ w') = _
      rw [ih, Nat.add_assoc]
      rfl

/-- The programs tell the deliveries. -/
theorem placements_injective {addr : Nat} {w w' : List Delivery}
    (h : placements addr w = placements addr w') : w = w' := by
  induction w generalizing addr w' with
  | nil =>
      cases w' with
      | nil => rfl
      | cons v' w' => exact nomatch h
  | cons v w ih =>
      cases w' with
      | nil => exact nomatch h
      | cons v' w' =>
          obtain ⟨hcall, hrest⟩ := List.cons.inj h
          have hv : v = v' := by
            obtain ⟨storage, bytes⟩ := v
            obtain ⟨storage', bytes'⟩ := v'
            cases storage <;> cases storage' <;> cases hcall <;> rfl
          subst hv
          rw [ih hrest]

/-- Of the calls of a delivery one programs, at its place. -/
theorem filter_programCalls (v : Delivery) {addr : UInt32} {n : Nat} (h : addr = clampWord n) :
    (Simulator.programCalls v.storage addr v.bytes).filter DeviceCall.isProgram = [v.call n] := by
  obtain ⟨storage, bytes⟩ := v
  subst h
  cases storage <;> rfl

namespace Job

section Conduct

variable {capacity : Nat}

/-- Without a fault for one program only, a job does not change how the programs of its device
    end. -/
theorem conduct_upkeep {t : Simulator.Conduct} (h : t.faults.nextProgram = false) :
    Upkeep (δ := Simulator capacity) (fun _ _ s => s.conduct = t) := by
  refine .onSimulator (fun _ _ hs => hs) (fun hs _ => (ErasePlan.conduct_issue ..).trans hs) ?_
    fun _ hs => hs
  intro _ j s v hs _ _ _
  rw [(deliver_conduct j v s).2, hs, Simulator.Conduct.next_of_lasting h]

/-- The error that a write leaves on a device without faults. -/
theorem error_write_eq (j : Job) (storage : Storage) (data : List UInt8) {s : Simulator capacity}
    (h : s.faults = {}) : (j.write storage data s).1.error
      = if j.accepted data = [] ∨ (storage = .encrypted → s.encrypts = true) ∧
          j.cursor.toNat + (j.accepted data).length ≤ capacity
        then j.error else (j.note .programFailed).error := by
  by_cases ha : j.accepted data = []
  · rw [write_of_accepted_nil j storage data s ha, if_pos (Or.inl ha)]
  · -- the erases before the delivery leave cursor, error and conduct alone
    have hcover : (j.plan.coverThrough (j.lastSectorOf (j.accepted data).length) s).2.conduct
        = s.conduct := (conduct_upkeep (congrArg FaultSwitches.nextProgram h)).coverThrough
          (w := []) (j := j) rfl _
    rw [write_of_accepted_ne j storage data s ha]
    refine (congrArg Job.error (deliver_conduct _ _ _).1).trans ?_
    rw [hcover]
    by_cases hs : s.conduct.succeeds capacity storage j.cursor (j.accepted data).length = true
    · rw [if_pos hs, if_pos (Or.inr ((Simulator.succeeds_iff h ..).mp hs))]
      rfl
    · rw [if_neg hs, if_neg]
      · show (note { j with plan := _ } .programFailed).error = _
        simp only [note]
        split <;> rfl
      · rintro (habs | habs)
        · exact ha habs
        · exact hs ((Simulator.succeeds_iff h ..).mpr habs)

/-- All that a job accepts inside a device without faults is programmed. -/
theorem isProgrammed_write (j : Job) {data : List UInt8} {s : Simulator capacity}
    (hfaults : s.faults = {}) (hall : j.accepted data = data)
    (hinside : j.cursor.toNat + data.length ≤ capacity) {a : Nat} (ha : a < capacity)
    (hfrom : j.cursor.toNat ≤ a) (hto : a < j.cursor.toNat + data.length) :
    ((j.write .plain data s).2.cells[a]).isProgrammed = true := by
  have hne : j.accepted data ≠ [] := by
    rw [hall]
    exact List.length_pos_iff.mp (by omega)
  have hcover : (j.plan.coverThrough (j.lastSectorOf data.length) s).2.conduct = s.conduct :=
    (conduct_upkeep (congrArg FaultSwitches.nextProgram hfaults)).coverThrough (w := []) (j := j)
      rfl _
  have hsucceeds : s.conduct.succeeds capacity .plain j.cursor data.length = true :=
    (Simulator.succeeds_iff hfaults ..).mpr ⟨nofun, hinside⟩
  have hcells : (j.write .plain data s).2.cells
      = (j.plan.coverThrough (j.lastSectorOf data.length) s).2.cells.program j.cursor.toNat data := by
    rw [write_of_accepted_ne j .plain data s hne, hall, cells_deliver, hcover]
    exact if_pos hsucceeds
  simp only [hcells]
  exact Cells.isProgrammed_program _ _ _ ha ⟨hfrom, hto⟩

end Conduct

/-- A job with what it delivered in the log. -/
structure Logged {capacity : Nat} (offset size : UInt32) (calls : Nat) (w : List Delivery)
    (j : Job) (s : Simulator capacity) : Prop extends Spans offset size (delivered w) j where
  calls_le : calls ≤ s.calls.size
  programs : (s.callsSince calls).filter DeviceCall.isProgram = placements offset.toNat w

namespace Logged

variable {capacity : Nat} {offset size : UInt32} {calls : Nat} {w : List Delivery} {j : Job}
  {s : Simulator capacity}

/-- A job that was just opened has programmed nothing. -/
theorem fresh (hle : calls ≤ s.calls.size)
    (hcalls : (s.callsSince calls).filter DeviceCall.isProgram = []) :
    (fresh size offset).Logged offset size calls [] s where
  toSpans := spans_fresh offset size
  calls_le := hle
  programs := hcalls

/-- The cursor is behind the deliveries, unless addresses end before. -/
theorem cursor_eq (h : j.Logged offset size calls w s) :
    j.cursor = clampWord (offset.toNat + delivered w) := by
  refine UInt32.toNat_inj.mp ?_
  rw [toNat_clampWord]
  exact h.cursor

/-- The log of a job goes on with it. -/
theorem upkeep (offset size : UInt32) (calls : Nat) :
    Upkeep (δ := Simulator capacity) (Logged offset size calls) := by
  refine .onSimulator (fun _ _ h => { h with }) ?issue ?deliver
    fun e h => { h with toSpans := h.toSpans.note e }
  case issue =>
    intro w j s unit h hunit
    refine ⟨h.toSpans.after hunit, ?_, ?_⟩
    · exact Simulator.le_size_of_append h.calls_le (j.plan.calls_issue unit s)
    · rw [Simulator.callsSince_append h.calls_le (j.plan.calls_issue unit s), List.filter_append,
        h.programs]
      exact List.append_nil _
  case deliver =>
    intro w j s v h _ hlen _
    refine ⟨?_, ?_, ?_⟩
    · rw [delivered_concat]
      exact h.toSpans.deliver v s hlen
    · exact Simulator.le_size_of_append h.calls_le (calls_deliver j v s)
    · rw [Simulator.callsSince_append h.calls_le (calls_deliver j v s), List.filter_append,
        h.programs, filter_programCalls v h.cursor_eq, placements_append]
      rfl

end Logged

/-- An open job on a device without faults, with what it delivered in the log. -/
structure Aimed {capacity : Nat} (offset size : UInt32) (calls : Nat) (w : List Delivery)
    (j : Job) (s : Simulator capacity) : Prop extends Logged offset size calls w j s where
  active : j.active = true
  faults : s.faults = {}

namespace Aimed

variable {capacity : Nat} {offset size : UInt32} {calls : Nat} {w : List Delivery} {j : Job}
  {s : Simulator capacity}

/-- Where a job aims it goes on to aim. -/
theorem upkeep (offset size : UInt32) (calls : Nat) :
    Upkeep (δ := Simulator capacity) (Aimed offset size calls) := by
  refine .onSimulator (fun _ _ h => { h with }) ?issue ?deliver ?note
  case issue =>
    intro w j s unit h hunit
    refine ⟨(Logged.upkeep offset size calls).issue h.toLogged hunit, h.active, ?_⟩
    exact (congrArg Simulator.Conduct.faults (j.plan.conduct_issue unit s)).trans h.faults
  case deliver =>
    intro w j s v h hne hlen hcovers
    have hconduct := (conduct_upkeep (t := s.conduct)
      (congrArg FaultSwitches.nextProgram h.faults)).deliver (w := w) rfl hne hlen hcovers
    refine ⟨(Logged.upkeep offset size calls).deliver h.toLogged hne hlen hcovers, ?_, ?_⟩
    · exact (j.kept_deliver v s).2.trans h.active
    · exact (congrArg Simulator.Conduct.faults hconduct).trans h.faults
  case note =>
    intro w j s e h
    exact { h with
      toLogged := (Logged.upkeep offset size calls).note e h.toLogged
      active := (active_note _ e).trans h.active }

/-- Writing plain bytes adds an error only if they leave the device. -/
theorem error_write (h : j.Aimed offset size calls w s) (data : List UInt8) :
    (j.write .plain data s).1.error = none ↔ j.error = none ∧
      ∀ call ∈ placements (offset.toNat + delivered w) (j.deliveries .plain data),
        call.Within capacity := by
  rw [error_write_eq j .plain data h.faults]
  by_cases ha : j.accepted data = []
  · have hnone : j.deliveries .plain data = [] := if_pos ha
    rw [if_pos (Or.inl ha), hnone]
    exact ⟨fun herror => ⟨herror, nofun⟩, And.left⟩
  · have hone : j.deliveries .plain data = [⟨.plain, j.accepted data⟩] := if_neg ha
    have hwithin : (∀ call ∈ placements (offset.toNat + delivered w) (j.deliveries .plain data),
        call.Within capacity) ↔ j.cursor.toNat + (j.accepted data).length ≤ capacity := by
      rw [hone, h.cursor_eq]
      exact List.forall_mem_singleton
    rw [hwithin]
    by_cases hin : j.cursor.toNat + (j.accepted data).length ≤ capacity
    · rw [if_pos (Or.inr ⟨nofun, hin⟩)]
      exact ⟨fun herror => ⟨herror, hin⟩, And.left⟩
    · rw [if_neg (by rintro (habs | ⟨-, habs⟩); exacts [ha habs, hin habs])]
      exact ⟨fun herror => absurd herror (error_note_ne_none j _), fun h => absurd h.2 hin⟩

end Aimed

/-- Where a span lies on a device that it is erased on. -/
structure Inside (capacity : Nat) (offset size : UInt32) : Prop where
  sectors : sectorSize ∣ capacity
  addressable : capacity ≤ 2 ^ 32
  inside : offset.toNat + size.toNat ≤ capacity

/-- A span inside a device of whole sectors fits. -/
theorem Inside.fits {capacity : Nat} {offset size : UInt32} (h : Inside capacity offset size) :
    Fits capacity offset.toNat size.toNat :=
  Or.inr ⟨h.sectors, h.inside, Nat.le_trans h.inside h.addressable⟩

/-- What is delivered within a span on the device does not leave it. -/
theorem within_placements {capacity addr : Nat} {w : List Delivery}
    (h : addr + delivered w ≤ capacity) : ∀ call ∈ placements addr w, call.Within capacity := by
  induction w generalizing addr with
  | nil => exact nofun
  | cons v w ih =>
      have hsum : delivered (v :: w) = v.bytes.length + delivered w := rfl
      refine List.forall_mem_cons.mpr ⟨?_, ih (by omega)⟩
      have haddr : (clampWord addr).toNat + v.bytes.length ≤ capacity := by
        rw [toNat_clampWord]
        omega
      obtain ⟨storage, bytes⟩ := v
      cases storage <;> exact haddr

/-- An open job on a device without faults that holds what was delivered. -/
def Faultless {capacity : Nat} (offset size : UInt32) (calls : Nat) (w : List Delivery) (j : Job)
    (s : Simulator capacity) : Prop :=
  j.Aimed offset size calls w s ∧ j.Contents offset size w s

namespace Faultless

variable {capacity : Nat} {offset size : UInt32} {calls : Nat} {w : List Delivery} {j : Job}
  {s : Simulator capacity}

/-- Without faults nothing spoils a job. -/
theorem upkeep (calls : Nat) (hin : Inside capacity offset size) :
    Upkeep (δ := Simulator capacity) (Faultless offset size calls) :=
  (Aimed.upkeep offset size calls).and (Contents.upkeep offset size hin.fits)

/-- Writing plain bytes adds no error. -/
theorem error_write (h : j.Faultless offset size calls w s) (hin : Inside capacity offset size)
    (herror : j.error = none) (data : List UInt8) : (j.write .plain data s).1.error = none := by
  refine (h.1.error_write data).mpr ⟨herror, within_placements ?_⟩
  have hle := hin.inside
  have hr := h.1.remaining
  have hsent := length_sent (j.deliveries .plain data)
  have hlen := j.length_accepted_le data
  rw [sent_deliveries] at hsent
  omega

end Faultless

/-- On a device without faults a job that was just opened aims at its span. -/
theorem Aimed.fresh {capacity : Nat} {offset size : UInt32} {calls : Nat}
    {s : Simulator capacity} (hfaults : s.faults = {}) (hle : calls ≤ s.calls.size)
    (hcalls : (s.callsSince calls).filter DeviceCall.isProgram = []) :
    (fresh size offset).Aimed offset size calls [] s where
  toLogged := Logged.fresh hle hcalls
  active := rfl
  faults := hfaults

end Job
end NorLoader
