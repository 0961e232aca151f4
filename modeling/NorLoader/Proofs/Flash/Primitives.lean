import Mathlib.Algebra.Order.Ring.Nat
import NorLoader.Image.Job
import NorLoader.Flash.Simulator

/-!
# What the primitives of the simulated flash change

A wait only counts polls and runs the busy time down, so it is an update of two fields
(`awaitIdle_eq`).  What is left of a primitive then is one update of the record each, and a log
that grows at its end (`callsSince_record`, `misusesSince_note`).
-/

namespace NorLoader

namespace Simulator

variable {capacity : Nat}

/-! ## Waiting -/

/-- A poll counts itself and brings the device closer to being idle. -/
theorem poll_snd (s : Simulator capacity) :
    (poll s).2 = { s with polls := s.polls + 1, busy := s.busy - 1 } := by
  show (if s.busy = 0 then ((true, { s with polls := s.polls + 1 }) : Bool × Simulator capacity)
    else (false, { s with polls := s.polls + 1, busy := s.busy - 1 })).2 = _
  by_cases hb : s.busy = 0
  · rw [if_pos hb, hb]
  · rw [if_neg hb]

/-- A wait ends with the device idle, after one poll more than it was busy for. -/
theorem pollUntilIdle_poll (n : Nat) (s : Simulator capacity) (h : s.busy ≤ n) :
    pollUntilIdle poll n s = { s with polls := s.polls + s.busy + 1, busy := 0 } := by
  induction n generalizing s with
  | zero =>
      show (poll s).2 = _
      have hb : s.busy = 0 := by omega
      rw [poll_snd, hb]
  | succ n ih =>
      show (if (poll s).1 then (poll s).2 else pollUntilIdle poll n (poll s).2) = _
      by_cases hb : s.busy = 0
      · have hready : (poll s).1 = true := by simp [poll, hb]
        rw [if_pos hready, poll_snd, hb]
      · have hbusy : ¬(poll s).1 = true := by simp [poll, hb]
        rw [if_neg hbusy, poll_snd, ih _ (show s.busy - 1 ≤ n by omega)]
        -- only the number of polls is left to compare
        congr 1
        show s.polls + 1 + (s.busy - 1) + 1 = s.polls + s.busy + 1
        omega

/-- A wait polls until the device is idle, and that is all. -/
theorem awaitIdle_eq (s : Simulator capacity) :
    FlashDevice.awaitIdle s = { s with polls := s.polls + s.busy + 1, busy := 0 } :=
  pollUntilIdle_poll s.busy s (Nat.le_refl _)

theorem cells_awaitIdle (s : Simulator capacity) : (FlashDevice.awaitIdle s).cells = s.cells := by
  rw [awaitIdle_eq]

theorem calls_awaitIdle (s : Simulator capacity) : (FlashDevice.awaitIdle s).calls = s.calls := by
  rw [awaitIdle_eq]

theorem misuses_awaitIdle (s : Simulator capacity) :
    (FlashDevice.awaitIdle s).misuses = s.misuses := by
  rw [awaitIdle_eq]

/-- Setting the latch is a wait and a call. -/
theorem enableWrite_eq (s : Simulator capacity) :
    s.enableWrite = { s with
      polls := s.polls + s.busy + 1
      busy := 0
      calls := s.calls.push .enableWrite
      writeEnabled := true } := by
  show { (pollUntilIdle poll s.busy s).record .enableWrite with writeEnabled := true } = _
  rw [pollUntilIdle_poll s.busy s (Nat.le_refl _)]
  rfl

/-! ## The logs -/

/-- The calls after the first `n` of them. -/
def callsSince (s : Simulator capacity) (n : Nat) : List DeviceCall := s.calls.toList.drop n

/-- The misuses after the first `n` of them. -/
def misusesSince (s : Simulator capacity) (n : Nat) : List Misuse := s.misuses.toList.drop n

/-- A log only grows. -/
theorem le_size_of_append {α : Type} {log log' : Array α} {added : List α} {n : Nat}
    (hn : n ≤ log.size) (h : log' = log ++ added) : n ≤ log'.size := by
  have hsize : log'.size = log.size + added.length := by
    rw [h, ← Array.length_toList, Array.toList_appendList, List.length_append,
      Array.length_toList]
  omega

theorem callsSince_size (s : Simulator capacity) : s.callsSince s.calls.size = [] := by
  simp [callsSince]

theorem misusesSince_size (s : Simulator capacity) : s.misusesSince s.misuses.size = [] := by
  simp [misusesSince]

/-- Calls are added at the end of the log. -/
theorem callsSince_append {s s' : Simulator capacity} {n : Nat} {cs : List DeviceCall}
    (hn : n ≤ s.calls.size) (h : s'.calls = s.calls ++ cs) :
    s'.callsSince n = s.callsSince n ++ cs := by
  rw [callsSince, h, Array.toList_appendList,
    List.drop_append_of_le_length (by simpa using hn)]
  rfl

/-- What a log shows after its former end is what was added. -/
theorem callsSince_of_append {s s' : Simulator capacity} {cs : List DeviceCall}
    (h : s'.calls = s.calls ++ cs) : s'.callsSince s.calls.size = cs := by
  rw [callsSince_append (Nat.le_refl _) h, callsSince_size, List.nil_append]

/-- Misuses are added at the end of those that were seen. -/
theorem misusesSince_append {s s' : Simulator capacity} {n : Nat} {ms : List Misuse}
    (hn : n ≤ s.misuses.size) (h : s'.misuses = s.misuses ++ ms) :
    s'.misusesSince n = s.misusesSince n ++ ms := by
  rw [misusesSince, h, Array.toList_appendList,
    List.drop_append_of_le_length (by simpa using hn)]
  rfl

/-! ## Unlocking -/

/-- Without the fault the protection bits are cleared. -/
theorem unlock_ok {s : Simulator capacity} (h : s.faults.unlock = false) :
    FlashDevice.unlock s
      = (.ok (), { s.record .unlock with status := unprotected s.status }) := by
  simp only [FlashDevice.unlock, Simulator.unlock, record, h, Bool.false_eq_true, if_false]

/-- With the fault they stay. -/
theorem unlock_error {s : Simulator capacity} (h : s.faults.unlock = true) :
    FlashDevice.unlock s = (.error .stillLocked, s.record .unlock) := by
  simp only [FlashDevice.unlock, Simulator.unlock, record, h, if_true]

/-! ## Erasing -/

/-- An erase that stays within the device erases its unit, any other erases nothing. -/
theorem getElem_cells_erase (addr : UInt32) (size : EraseSize) (s : Simulator capacity)
    (a : Nat) (ha : a < capacity) :
    (s.erase addr size).cells[a]
      = if addr.toNat + size.bytes ≤ capacity ∧ addr.toNat ≤ a ∧ a < addr.toNat + size.bytes
        then .erased else s.cells[a] := by
  by_cases h : addr.toNat + size.bytes ≤ capacity
  · simp only [erase, h, if_true, true_and]
    exact Cells.getElem_erase _ _ _ _ ha
  · simp only [erase, h, if_false, false_and]
    rfl

/-- An erase is one call. -/
theorem calls_erase (addr : UInt32) (size : EraseSize) (s : Simulator capacity) :
    (s.erase addr size).calls = s.calls.push (.erase addr size) := by
  simp only [erase]
  split <;> rfl

/-- An erase may be misused, and that is noted. -/
theorem misuses_erase (addr : UInt32) (size : EraseSize) (s : Simulator capacity) :
    (s.erase addr size).misuses
      = s.misuses ++ s.eraseMisuses addr size := by
  simp only [erase]
  split <;> rfl

/-! ## Programming -/

/-- The calls of one delivery to the cells. -/
def programCalls (storage : Storage) (addr : UInt32) (data : List UInt8) : List DeviceCall :=
  match storage with
  | .plain => [.program addr data]
  | .encrypted =>
      [.setEncryptionLatch true, .encryptAndProgram addr data, .setEncryptionLatch false]

/-- What is wrong with a delivery before it gets to the cells. -/
def deliveryMisuses (s : Simulator capacity) (storage : Storage) (addr : UInt32) : List Misuse :=
  match storage with
  | .plain => s.programMisuses false addr
  | .encrypted => if s.encrypts then { s with latched := true }.programMisuses true addr else []

/-- The bytes that the cells get in a delivery. -/
def storedBytes (storage : Storage) (data : List UInt8) : List UInt8 :=
  ciphered (storage = .encrypted) data

/-- The cipher keeps the length. -/
theorem length_ciphered (encrypted : Bool) (data : List UInt8) :
    (ciphered encrypted data).length = data.length := by
  cases encrypted with
  | false => rfl
  | true => exact List.length_map _

/-- What is stored has the length of the data. -/
theorem length_storedBytes (storage : Storage) (data : List UInt8) :
    (storedBytes storage data).length = data.length :=
  length_ciphered _ data

/-- No misuse that is seen before the cells concerns what they hold. -/
theorem mem_programMisuses {s : Simulator capacity} {encrypted : Bool} {addr : UInt32}
    {m : Misuse} (h : m ∈ s.programMisuses encrypted addr) (a : Nat) :
    m ≠ .notErased a ∧ m ≠ .erasedData a := by
  simp only [programMisuses] at h
  rcases List.mem_append.mp h with h | h
  · split at h
    · rw [List.mem_singleton.mp h]
      exact ⟨nofun, nofun⟩
    · exact nomatch h
  · split at h
    · exact nomatch h
    · rw [List.mem_singleton.mp h]
      exact ⟨nofun, nofun⟩

/-- What is noted of a delivery before it gets to the cells is about none of them. -/
theorem mem_deliveryMisuses {s : Simulator capacity} {storage : Storage} {addr : UInt32}
    {m : Misuse} (h : m ∈ s.deliveryMisuses storage addr) (a : Nat) :
    m ≠ .notErased a ∧ m ≠ .erasedData a := by
  cases storage with
  | plain => exact mem_programMisuses h a
  | encrypted =>
      simp only [deliveryMisuses] at h
      split at h
      · exact mem_programMisuses h a
      · exact nomatch h

/-- What a program leaves behind that got as far as the cells. -/
theorem programWith_ok {encrypted : Bool} {addr : UInt32} {data : List UInt8}
    {s s' : Simulator capacity} (h : s.programWith encrypted addr data = (.ok (), s')) :
    addr.toNat + data.length ≤ capacity ∧
      s'.cells = s.cells.program addr.toNat (ciphered encrypted data) ∧
      s'.calls = s.calls ∧
      s'.misuses = s.misuses ++ (s.programMisuses encrypted addr
        ++ (s.cells.unerased addr.toNat data.length).map Misuse.notErased) := by
  by_cases hin : addr.toNat + data.length ≤ capacity
  · cases hf : s.faults.everyProgram || s.faults.nextProgram with
    | true =>
        simp only [programWith, note, if_pos hin, hf, if_true] at h
        cases h
    | false =>
        simp only [programWith, note, if_pos hin, hf, Bool.false_eq_true, if_false] at h
        cases h
        refine ⟨hin, rfl, rfl, ?_⟩
        -- the cells look at the ciphered bytes, of which there are as many
        rw [← length_ciphered encrypted data]
        show s.misuses ++ s.programMisuses encrypted addr
          ++ (s.cells.unerased addr.toNat (ciphered encrypted data).length).map _ = _
        apply Array.ext'
        simp
  · simp only [programWith, if_neg hin] at h
    cases h

/-- A program that reports a fault leaves the cells alone. -/
theorem programWith_error {encrypted : Bool} {addr : UInt32} {data : List UInt8}
    {fault : DeviceFault} {s s' : Simulator capacity}
    (h : s.programWith encrypted addr data = (.error fault, s')) :
    s'.cells = s.cells ∧ s'.calls = s.calls ∧
      s'.misuses = s.misuses ++ s.programMisuses encrypted addr := by
  by_cases hin : addr.toNat + data.length ≤ capacity
  · cases hf : s.faults.everyProgram || s.faults.nextProgram with
    | true =>
        simp only [programWith, note, if_pos hin, hf, if_true] at h
        cases h
        exact ⟨rfl, rfl, rfl⟩
    | false =>
        simp only [programWith, note, if_pos hin, hf, Bool.false_eq_true, if_false] at h
        cases h
  · simp only [programWith, if_neg hin] at h
    cases h
    exact ⟨rfl, rfl, rfl⟩

/-- The device in which an encrypted program is carried out: the latch is on. -/
def encrypting (s : Simulator capacity) (addr : UInt32) (data : List UInt8) :
    Simulator capacity :=
  { (s.record (.setEncryptionLatch true)) with latched := true }.record
    (.encryptAndProgram addr data)

/-- An encrypted delivery has the latch on and off around its program. -/
theorem programVia_encrypted (addr : UInt32) (data : List UInt8) (s : Simulator capacity) :
    Job.programVia .encrypted addr data s
      = let carried := if s.encrypts then (s.encrypting addr data).programWith true addr data
          else (.error .unavailable, s.encrypting addr data)
        (carried.1, carried.2.setEncryptionLatch false) := rfl

/-- A delivery that succeeds is within the device and programs its bytes. -/
theorem programVia_ok {storage : Storage} {addr : UInt32} {data : List UInt8}
    {s s' : Simulator capacity} (h : Job.programVia storage addr data s = (.ok (), s')) :
    addr.toNat + data.length ≤ capacity ∧
      s'.cells = s.cells.program addr.toNat (storedBytes storage data) ∧
      s'.calls = s.calls ++ programCalls storage addr data ∧
      s'.misuses = s.misuses ++ (s.deliveryMisuses storage addr
        ++ (s.cells.unerased addr.toNat data.length).map Misuse.notErased) := by
  cases storage with
  | plain =>
      obtain ⟨hin, hcells, hcalls, hmisuses⟩ := programWith_ok
        (show (s.record (.program addr data)).programWith false addr data = _ from h)
      exact ⟨hin, hcells, by rw [hcalls]; rfl, hmisuses⟩
  | encrypted =>
      rw [programVia_encrypted] at h
      cases he : s.encrypts with
      | false =>
          simp only [he, Bool.false_eq_true, if_false] at h
          cases h
      | true =>
          -- the latch is set before the program and reset after it
          simp only [he, if_true] at h
          obtain ⟨hresult, rfl⟩ := Prod.mk.inj h
          obtain ⟨hin, hcells, hcalls, hmisuses⟩ := programWith_ok (Prod.ext hresult rfl)
          refine ⟨hin, hcells, ?_, ?_⟩
          · show (((s.encrypting addr data).programWith true addr data).2.calls.push _) = _
            rw [hcalls]
            rfl
          · show ((s.encrypting addr data).programWith true addr data).2.misuses = _
            rw [hmisuses]
            simp only [deliveryMisuses, he, if_true]
            rfl

/-- A delivery that fails leaves the cells alone. -/
theorem programVia_error {storage : Storage} {addr : UInt32} {data : List UInt8}
    {fault : DeviceFault} {s s' : Simulator capacity}
    (h : Job.programVia storage addr data s = (.error fault, s')) :
    s'.cells = s.cells ∧
      s'.calls = s.calls ++ programCalls storage addr data ∧
      s'.misuses = s.misuses ++ s.deliveryMisuses storage addr := by
  cases storage with
  | plain =>
      obtain ⟨hcells, hcalls, hmisuses⟩ := programWith_error
        (show (s.record (.program addr data)).programWith false addr data = _ from h)
      exact ⟨hcells, by rw [hcalls]; rfl, hmisuses⟩
  | encrypted =>
      rw [programVia_encrypted] at h
      cases he : s.encrypts with
      | false =>
          simp only [he, Bool.false_eq_true, if_false] at h
          obtain ⟨-, rfl⟩ := Prod.mk.inj h
          refine ⟨rfl, rfl, ?_⟩
          simp only [deliveryMisuses, he, Bool.false_eq_true, if_false]
          exact (Array.appendList_nil).symm
      | true =>
          simp only [he, if_true] at h
          obtain ⟨hresult, rfl⟩ := Prod.mk.inj h
          obtain ⟨hcells, hcalls, hmisuses⟩ := programWith_error (Prod.ext hresult rfl)
          refine ⟨hcells, ?_, ?_⟩
          · show (((s.encrypting addr data).programWith true addr data).2.calls.push _) = _
            rw [hcalls]
            rfl
          · show ((s.encrypting addr data).programWith true addr data).2.misuses = _
            rw [hmisuses]
            simp only [deliveryMisuses, he, if_true]
            rfl

/-! ### How programs end -/

/-- What decides how the programs of a device end, besides their place. -/
structure Conduct where
  faults : FaultSwitches
  encrypts : Bool
  deriving DecidableEq, Repr

namespace Conduct

/-- Whether a delivery gets as far as the cells: encrypted ones need an encryption unit, and all
    have to be within the device. -/
def reaches (t : Conduct) (capacity : Nat) (storage : Storage) (addr : UInt32) (len : Nat) : Bool :=
  (storage = .plain || t.encrypts) && addr.toNat + len ≤ capacity

/-- Whether a delivery is carried out. -/
def succeeds (t : Conduct) (capacity : Nat) (storage : Storage) (addr : UInt32) (len : Nat) :
    Bool :=
  t.reaches capacity storage addr len && !(t.faults.everyProgram || t.faults.nextProgram)

/-- What a delivery leaves: the fault of one program is used up by one that gets to the cells. -/
def next (t : Conduct) (capacity : Nat) (storage : Storage) (addr : UInt32) (len : Nat) : Conduct :=
  if t.reaches capacity storage addr len then
    { t with faults := { t.faults with nextProgram := false } }
  else t

/-- Lasting faults do not change with a program. -/
theorem next_of_lasting {t : Conduct} (h : t.faults.nextProgram = false) (capacity : Nat)
    (storage : Storage) (addr : UInt32) (len : Nat) : t.next capacity storage addr len = t := by
  obtain ⟨⟨next, every, unlock⟩, encrypts⟩ := t
  obtain rfl : next = false := h
  simp [next]

end Conduct

/-- What decides how programs end. -/
def conduct (s : Simulator capacity) : Conduct := ⟨s.faults, s.encrypts⟩

/-- Without faults a program is carried out if the device can do it and has the cells. -/
theorem succeeds_iff {s : Simulator capacity} (h : s.faults = {}) (storage : Storage)
    (addr : UInt32) (len : Nat) : s.conduct.succeeds capacity storage addr len = true ↔
      (storage = .encrypted → s.encrypts = true) ∧ addr.toNat + len ≤ capacity := by
  cases storage <;> simp [Conduct.succeeds, Conduct.reaches, conduct, h]

/-- A wait leaves the conduct alone. -/
theorem conduct_awaitIdle (s : Simulator capacity) :
    (FlashDevice.awaitIdle s).conduct = s.conduct := by
  rw [awaitIdle_eq]
  rfl

/-- So does an erase. -/
theorem conduct_erase (addr : UInt32) (size : EraseSize) (s : Simulator capacity) :
    (s.erase addr size).conduct = s.conduct := by
  simp only [erase]
  split <;> rfl

/-- The conduct decides how a program ends, and what is next. -/
theorem programWith_conduct (encrypted : Bool) (addr : UInt32) (data : List UInt8)
    (s : Simulator capacity) (h : encrypted = true → s.encrypts = true) :
    let storage := if encrypted then Storage.encrypted else .plain
    ((s.programWith encrypted addr data).1 = .ok () ↔
        s.conduct.succeeds capacity storage addr data.length = true) ∧
      (s.programWith encrypted addr data).2.conduct
        = s.conduct.next capacity storage addr data.length := by
  intro storage
  -- past the encryption unit, only the place counts
  have hreaches : s.conduct.reaches capacity storage addr data.length
      = decide (addr.toNat + data.length ≤ capacity) := by
    cases encrypted with
    | false => simp [Conduct.reaches, storage]
    | true => simp [Conduct.reaches, conduct, h rfl]
  simp only [Conduct.succeeds, Conduct.next, hreaches]
  by_cases hin : addr.toNat + data.length ≤ capacity
  · cases hf : s.faults.everyProgram || s.faults.nextProgram <;>
      simp [programWith, note, hin, hf, conduct, putBytes]
  · simp [programWith, note, hin, conduct]

/-- How a delivery ends, and what it leaves for the next ones. -/
theorem programVia_conduct (storage : Storage) (addr : UInt32) (data : List UInt8)
    (s : Simulator capacity) :
    ((Job.programVia storage addr data s).1 = .ok () ↔
        s.conduct.succeeds capacity storage addr data.length = true) ∧
      (Job.programVia storage addr data s).2.conduct
        = s.conduct.next capacity storage addr data.length := by
  cases storage with
  | plain => exact programWith_conduct false addr data (s.record (.program addr data)) nofun
  | encrypted =>
      rw [programVia_encrypted]
      cases he : s.encrypts with
      | false => simp [Conduct.succeeds, Conduct.next, Conduct.reaches, conduct, he, encrypting,
          record, setEncryptionLatch]
      | true => exact programWith_conduct true addr data (s.encrypting addr data) fun _ => he

end Simulator
end NorLoader
