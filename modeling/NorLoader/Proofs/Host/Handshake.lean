import NorLoader.Proofs.Host.DeviceUse

/-!
# The handshake with the device

An erase needs the device to be idle and write enable to be set, a program needs it to be idle, and
the encryption latch has to be on for an encrypted program and off for any other.  Every primitive
is called in a piece of the log that has all it needs: an erase with the write enable before it, an
encrypted program between the two settings of the latch.  So the order survives programs that fail
and jobs that are given up.
-/

namespace NorLoader

/-- What a call needs right before and right after it: an erase write enable, and an encrypted
    program the latch that is set and reset. -/
def DeviceCall.Needs (before : List DeviceCall) : DeviceCall → List DeviceCall → Prop
  | erase .., _ => before.getLast? = some .enableWrite
  | encryptAndProgram .., after =>
      before.getLast? = some (.setEncryptionLatch true) ∧
        after.head? = some (.setEncryptionLatch false)
  | _, _ => True

namespace DeviceCall

/-- What a call needs is right beside it, so a longer log has it too. -/
theorem lasting_needs : Lasting Needs := by
  intro before call after more more' h
  cases call with
  | erase addr size =>
      show (more ++ before).getLast? = _
      rw [List.getLast?_append, show before.getLast? = _ from h]
      rfl
  | encryptAndProgram addr data =>
      obtain ⟨hon, hoff⟩ := h
      constructor
      · rw [List.getLast?_append, hon]
        rfl
      · rw [List.head?_append, hoff]
        rfl
  | _ => trivial

/-- An erase behind a write enable is in its place. -/
theorem wellPlaced_erase (addr : UInt32) (size : EraseSize) :
    WellPlaced Needs [.enableWrite, .erase addr size] := by
  intro before call after heq
  rcases before with _ | ⟨first, _ | ⟨second, rest⟩⟩
  · obtain ⟨rfl, -⟩ := List.cons.inj heq
    trivial
  · obtain ⟨rfl, htail⟩ := List.cons.inj heq
    obtain ⟨rfl, -⟩ := List.cons.inj htail
    rfl
  · simp at heq

/-- So are the calls of a program, in whatever way. -/
theorem wellPlaced_programCalls (storage : Storage) (addr : UInt32) (data : List UInt8) :
    WellPlaced Needs (Simulator.programCalls storage addr data) := by
  cases storage with
  | plain =>
      refine WellPlaced.of_forall ?_
      intro call hcall before after
      rw [List.mem_singleton.mp hcall]
      trivial
  | encrypted =>
      intro before call after heq
      -- only the middle one of the three calls needs something
      rcases before with _ | ⟨first, _ | ⟨second, _ | ⟨third, rest⟩⟩⟩
      · obtain ⟨rfl, -⟩ := List.cons.inj heq
        trivial
      · obtain ⟨rfl, htail⟩ := List.cons.inj heq
        obtain ⟨rfl, rfl⟩ := List.cons.inj htail
        exact ⟨rfl, rfl⟩
      · obtain ⟨rfl, -⟩ := List.cons.inj (List.cons.inj (List.cons.inj heq).2).2
        trivial
      · simp [Simulator.programCalls] at heq

end DeviceCall

/-- Whether a misuse is one of the handshake: the device was not waited for, not enabled, or its
    latch did not fit. -/
def Misuse.ofHandshake : Misuse → Bool
  | whileBusy => true
  | notEnabled => true
  | wrongLatch .. => true
  | _ => false

namespace Simulator

variable {capacity : Nat}

/-- A device that was used with the handshake so far. -/
structure Heeded (s : Simulator capacity) : Prop where
  unlatched : s.latched = false
  inOrder : WellPlaced DeviceCall.Needs s.calls.toList
  misuses : ∀ m ∈ s.misuses, m.ofHandshake = false

/-- What is wrong with an erase after write enable is only its place. -/
theorem ofHandshake_eraseMisuses {addr : UInt32} {size : EraseSize} {s : Simulator capacity}
    {m : Misuse} (h : m ∈ s.enableWrite.eraseMisuses addr size) : m.ofHandshake = false := by
  rw [enableWrite_eq] at h
  simp only [eraseMisuses, Nat.lt_irrefl, if_true, if_false, List.nil_append,
    List.mem_append] at h
  rcases h with haligned | hplace
  · split at haligned
    · exact nomatch haligned
    · rw [List.mem_singleton.mp haligned]
      rfl
  · split at hplace
    · obtain ⟨a, -, rfl⟩ := List.mem_map.mp hplace
      rfl
    · rw [List.mem_singleton.mp hplace]
      rfl

/-- Nothing is wrong with a delivery to an idle device before it gets to the cells. -/
theorem deliveryMisuses_awaitIdle {s : Simulator capacity} (h : s.latched = false)
    (storage : Storage) (addr : UInt32) :
    (FlashDevice.awaitIdle s).deliveryMisuses storage addr = [] := by
  rw [awaitIdle_eq]
  cases storage with
  | plain => simp [deliveryMisuses, programMisuses, h]
  | encrypted => simp [deliveryMisuses, programMisuses]

/-- A program leaves the latch alone. -/
theorem latched_programWith (encrypted : Bool) (addr : UInt32) (data : List UInt8)
    (s : Simulator capacity) : (s.programWith encrypted addr data).2.latched = s.latched := by
  by_cases hin : addr.toNat + data.length ≤ capacity
  · simp only [programWith, if_pos hin]
    split <;> rfl
  · simp only [programWith, if_neg hin]
    rfl

/-- The latch is off after a program, whatever that returned. -/
theorem latched_programVia {s : Simulator capacity} (h : s.latched = false) (storage : Storage)
    (addr : UInt32) (data : List UInt8) :
    (Job.programVia storage addr data s).2.latched = false := by
  cases storage with
  | plain => exact (latched_programWith false addr data _).trans h
  | encrypted => rfl

namespace Heeded

variable {s : Simulator capacity}

/-- A poll heeds the handshake. -/
theorem poll (h : s.Heeded) : (Simulator.poll s).2.Heeded := by
  rw [poll_snd]
  exact ⟨h.unlatched, h.inOrder, h.misuses⟩

/-- So does the release of the protection. -/
theorem unlock (h : s.Heeded) : (Simulator.unlock s).2.Heeded := by
  have hrecord : (s.record .unlock).Heeded := by
    refine ⟨h.unlatched, ?_, h.misuses⟩
    show WellPlaced DeviceCall.Needs (s.calls.push .unlock).toList
    rw [Array.toList_push]
    refine h.inOrder.append DeviceCall.lasting_needs (WellPlaced.of_forall ?_)
    intro call hcall before after
    rw [List.mem_singleton.mp hcall]
    trivial
  simp only [Simulator.unlock]
  split
  · exact hrecord
  · exact ⟨hrecord.unlatched, hrecord.inOrder, hrecord.misuses⟩

/-- Faults may be switched at any time. -/
theorem switch (h : s.Heeded) (faults : FaultSwitches) : { s with faults := faults }.Heeded :=
  ⟨h.unlatched, h.inOrder, h.misuses⟩

/-- An erase of a plan heeds it. -/
theorem issue (h : s.Heeded) (p : ErasePlan) (size : EraseSize) : (p.issue size s).2.Heeded where
  unlatched := by
    show (s.enableWrite.erase p.nextAddress size).latched = false
    rw [enableWrite_eq]
    simp only [Simulator.erase]
    split <;> exact h.unlatched
  inOrder := by
    rw [ErasePlan.calls_issue, Array.toList_appendList]
    exact h.inOrder.append DeviceCall.lasting_needs (DeviceCall.wellPlaced_erase _ _)
  misuses := by
    intro m hm
    have hsplit : (p.issue size s).2.misuses
        = s.misuses ++ s.enableWrite.eraseMisuses p.nextAddress size := by
      show (s.enableWrite.erase p.nextAddress size).misuses = _
      rw [misuses_erase]
      simp only [enableWrite_eq]
    rw [hsplit, ← Array.mem_toList_iff, Array.toList_appendList, List.mem_append] at hm
    rcases hm with hold | hnew
    · exact h.misuses m (Array.mem_toList_iff.mp hold)
    · exact ofHandshake_eraseMisuses hnew

/-- So does a delivery. -/
theorem deliver (h : s.Heeded) (j : Job) (v : Delivery) : (j.deliver v s).2.Heeded where
  unlatched := by
    rw [Job.device_deliver]
    refine latched_programVia ?_ _ _ _
    rw [awaitIdle_eq]
    exact h.unlatched
  inOrder := by
    rw [Job.calls_deliver, Array.toList_appendList]
    exact h.inOrder.append DeviceCall.lasting_needs (DeviceCall.wellPlaced_programCalls _ _ _)
  misuses := by
    intro m hm
    have hplace := deliveryMisuses_awaitIdle h.unlatched v.storage j.cursor
    -- all that can be wrong is that a cell was not erased
    have hcases : m ∈ s.misuses ∨ ∃ a, m = .notErased a := by
      rcases Job.deliver_cases j v s with ⟨-, -, -, hseen⟩ | ⟨-, -, hseen⟩
      · rw [hplace, List.nil_append] at hseen
        rw [hseen, ← Array.mem_toList_iff, Array.toList_appendList, List.mem_append] at hm
        rcases hm with hold | hnew
        · exact Or.inl (Array.mem_toList_iff.mp hold)
        · obtain ⟨a, -, rfl⟩ := List.mem_map.mp hnew
          exact Or.inr ⟨a, rfl⟩
      · rw [hplace] at hseen
        rw [hseen, Array.appendList_nil] at hm
        exact Or.inl hm
    rcases hcases with hold | ⟨a, rfl⟩
    · exact h.misuses m hold
    · rfl

/-- The handshake is kept up by everything that a controller does to its device. -/
theorem upkeep : DeviceUpkeep (@Heeded capacity) where
  poll h := h.poll
  issue h _ := h.issue _ _
  deliver h _ _ _ := h.deliver _ _
  note _ h := h
  unlock h := h.unlock

end Heeded
end Simulator

namespace Controller

variable {capacity : Nat}

/-- So does every event. -/
theorem heeded_after {c : Controller (Simulator capacity)} (h : c.loader.device.Heeded)
    (e : Event) : (c.after e).loader.device.Heeded := by
  cases e with
  | request q => exact Simulator.Heeded.upkeep.execute h q
  | idle => exact Simulator.Heeded.upkeep.idle h
  | switch faults => exact h.switch faults

/-- However a run goes on a new device, the handshake is kept: with commands of any kind in any
    order, faults of programs and of the unlock switched in between, and jobs opened while an erase
    is still running. -/
theorem run_keeps_handshake (d : Simulator capacity) (hcalls : d.calls = #[])
    (hmisuses : d.misuses = #[]) (hlatch : d.latched = false) (es : List Event) :
    let s := ((powerOn d).run es).loader.device
    let log := s.calls.toList
    (Misuse.whileBusy ∉ s.misuses ∧ Misuse.notEnabled ∉ s.misuses ∧
        ∀ addr on, Misuse.wrongLatch addr on ∉ s.misuses) ∧
      (∀ before addr size after, log = before ++ .erase addr size :: after →
        before.getLast? = some .enableWrite) ∧
      (∀ before addr data after, log = before ++ .encryptAndProgram addr data :: after →
        before.getLast? = some (.setEncryptionLatch true) ∧
          after.head? = some (.setEncryptionLatch false)) ∧
      s.latched = false := by
  intro s log
  have hstart : d.Heeded := by
    refine ⟨hlatch, ?_, ?_⟩
    · rw [hcalls]
      exact WellPlaced.nil
    · intro m hm
      rw [hmisuses] at hm
      exact absurd hm (Array.not_mem_empty m)
  have hrun : s.Heeded := run_induct (I := fun c => c.loader.device.Heeded)
    (fun _ e h => heeded_after h e) hstart es
  refine ⟨⟨?_, ?_, ?_⟩, ?_, ?_, hrun.unlatched⟩
  · intro hm
    exact nomatch hrun.misuses _ hm
  · intro hm
    exact nomatch hrun.misuses _ hm
  · intro addr on hm
    exact nomatch hrun.misuses _ hm
  · intro before addr size after heq
    exact hrun.inOrder _ _ _ heq
  · intro before addr data after heq
    exact hrun.inOrder _ _ _ heq

/-- A job is opened while the erase of the one before is running, and an encrypted program fails. -/
theorem run_keeps_handshake_while_erasing :
    let d : Simulator 8192 := { eraseTime := 9, programTime := 3, encrypts := true }
    let block : Request := .data ⟨.encrypted, 0, Crc32.checksum [1, 2], [1, 2]⟩
    let es : List Event := [.request (.start 4 0), .idle, .request (.start 2 4096),
      .switch { everyProgram := true }, .request block, .request .finish]
    let s := ((powerOn d).run es).loader.device
    s.calls.toList = [.unlock, .enableWrite, .erase 0 .sector, .unlock, .enableWrite,
        .erase 4096 .sector, .setEncryptionLatch true, .encryptAndProgram 4096 [1, 2],
        .setEncryptionLatch false] ∧
      Misuse.whileBusy ∉ s.misuses ∧ s.latched = false := by
  intro d block es s
  obtain ⟨⟨hwaited, -, -⟩, -, -, hlatch⟩ := run_keeps_handshake d rfl rfl rfl es
  exact ⟨by decide +kernel, hwaited, hlatch⟩

end Controller
end NorLoader
