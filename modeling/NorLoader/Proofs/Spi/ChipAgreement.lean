import Mathlib.Data.Nat.Bitwise
import NorLoader.Proofs.Flash.EraseFrontier
import NorLoader.Spi.MemoryChip

/-!
# The chip and the simulator

All that is tested with the simulator is to hold on the board, where a driver talks to a chip.  The
calls that a loader makes of a driver have the same effect on both (`agree_after_calls`): the driver
waits before it writes, so the chip takes every write command that it is sent (`transmit_write`),
and it cuts at the page boundaries, so no page wraps (`programPage_eq`).
-/

namespace NorLoader

/-! ## Arrays of bytes -/

section Arrays

variable {capacity : Nat}

/-- Clears bits from an address on.  What would leave the array is left out. -/
def clearBits (array : Vector UInt8 capacity) (start : Nat) :
    List UInt8 → Vector UInt8 capacity
  | [] => array
  | b :: rest =>
      if h : start < capacity then
        clearBits (array.set start (array[start] &&& b)) (start + 1) rest
      else array

/-- What the simulated device holds. -/
def Simulator.memory (s : Simulator capacity) : Vector UInt8 capacity := s.cells.map Cell.value

theorem clearBits_of_le (array : Vector UInt8 capacity) {start : Nat} (h : capacity ≤ start)
    (data : List UInt8) : clearBits array start data = array := by
  cases data with
  | nil => rfl
  | cons b rest => rw [clearBits, dif_neg (Nat.not_lt.mpr h)]

/-- Data may be programmed in pieces. -/
theorem clearBits_append (array : Vector UInt8 capacity) (start : Nat) (data more : List UInt8) :
    clearBits array start (data ++ more)
      = clearBits (clearBits array start data) (start + data.length) more := by
  induction data generalizing array start with
  | nil => rfl
  | cons b rest ih =>
      by_cases h : start < capacity
      · simp only [List.cons_append, clearBits, h, dite_true, ih, List.length_cons]
        rw [show start + 1 + rest.length = start + (rest.length + 1) by omega]
      · simp only [List.cons_append, clearBits, h, dite_false]
        rw [clearBits_of_le _ (by omega)]

/-- Within a page nothing wraps. -/
theorem MemoryChip.programPage_eq_clearBits (array : Vector UInt8 capacity) (base offset : Nat)
    (data : List UInt8) (hpage : offset + data.length ≤ pageSize) :
    programPage base array offset data = clearBits array (base + offset) data := by
  induction data generalizing array offset with
  | nil => rfl
  | cons b rest ih =>
      rw [List.length_cons] at hpage
      have hoffset : offset % pageSize = offset := Nat.mod_eq_of_lt (by omega)
      simp only [programPage, clearBits, hoffset]
      split
      · exact ih _ _ (by omega)
      · rw [ih _ _ (by omega)]
        exact clearBits_of_le _ (by omega) _

/-- What a program makes of the cells, their values say too. -/
theorem Simulator.map_value_program (cells : Cells capacity) (start : Nat) (data : List UInt8) :
    (cells.program start data).map Cell.value = clearBits (cells.map Cell.value) start data := by
  induction data generalizing cells start with
  | nil => rfl
  | cons b rest ih =>
      by_cases h : start < capacity
      · simp only [Cells.program, clearBits, h, dite_true, ih]
        rw [Vector.map_set, Cell.program, Cell.value, Vector.getElem_map]
      · simp only [Cells.program, clearBits, h, dite_false]

theorem Simulator.map_value_erase (cells : Cells capacity) (start len : Nat) :
    (cells.erase start len).map Cell.value
      = MemoryChip.eraseUnit (cells.map Cell.value) start len := by
  refine Vector.ext fun a ha => ?_
  simp only [Vector.getElem_map, Cells.getElem_erase, MemoryChip.eraseUnit, Vector.getElem_ofFn]
  split
  · rfl
  · exact (Vector.getElem_map _ ha).symm

/-- An erase inside the chip sets its range to ones, and any other does nothing. -/
theorem Simulator.memory_erase (s : Simulator capacity) (addr : UInt32) (size : EraseSize) :
    (s.enableWrite.erase addr size).memory
      = if addr.toNat + size.bytes ≤ capacity
        then MemoryChip.eraseUnit s.memory addr.toNat size.bytes else s.memory := by
  simp only [erase, enableWrite_eq, memory]
  split
  · exact map_value_erase _ _ _
  · rfl

/-- A program that no fault stops is carried out within the device, and refused elsewhere. -/
theorem Simulator.program_of_faultless {s : Simulator capacity} (h : s.faults = {})
    (addr : UInt32) (data : List UInt8) :
    (s.program addr data).2.faults = {} ∧
      if addr.toNat + data.length ≤ capacity
      then (s.program addr data).1 = .ok () ∧
        (s.program addr data).2.memory = clearBits s.memory addr.toNat data
      else (s.program addr data).1 = .error .outside ∧
        (s.program addr data).2.memory = s.memory := by
  by_cases hin : addr.toNat + data.length ≤ capacity
  · have hprogram := map_value_program s.cells addr.toNat data
    simp [program, programWith, record, note, h, hin, putBytes, ciphered, memory, hprogram]
  · simp [program, programWith, record, note, h, hin, memory]

end Arrays

/-! ## The status -/

namespace MemoryChip

variable {capacity : Nat}

/-- The chip with nothing under way and write enable set, as a write command finds it. -/
def ready (c : MemoryChip capacity) : MemoryChip capacity :=
  { c with busy := 0, writeEnabled := true }

/-- The busy bit is not mixed up with what else the status holds. -/
theorem busyBit_status (status : UInt8) (enabled idle : Bool) :
    ((status &&& 0xFC) ||| (if enabled then 0x02 else 0) ||| (if idle then 0 else 0x01)).toUInt32
      &&& busyBit = if idle then 0 else 1 := by
  obtain ⟨status⟩ := status
  revert status enabled idle
  decide +kernel

/-- Nor are the bits that protect. -/
theorem protectionBits_status (status : UInt8) (enabled idle : Bool) :
    ((status &&& 0xFC) ||| (if enabled then 0x02 else 0) ||| (if idle then 0 else 0x01)).toUInt32
      &&& NorChip.protectionBits = status.toUInt32 &&& NorChip.protectionBits := by
  obtain ⟨status⟩ := status
  revert status enabled idle
  decide +kernel

/-- The busy bit of the status tells whether the chip is busy. -/
theorem statusByte_busy (c : MemoryChip capacity) :
    c.statusByte.toUInt32 &&& busyBit = 0 ↔ c.busy = 0 := by
  have hbit := busyBit_status c.status1 c.writeEnabled (decide (c.busy = 0))
  simp only [decide_eq_true_eq] at hbit
  rw [statusByte, hbit]
  by_cases hbusy : c.busy = 0 <;> simp [hbusy]

/-- What is written to unlock protects nothing. -/
theorem not_isProtected_of_unprotected (status : UInt32) (c : MemoryChip capacity)
    (h1 : c.status1 = (unprotected status).toUInt8)
    (h2 : c.status2 = (unprotected status >>> 8).toUInt8) : c.isProtected = false := by
  have hcases : unprotected status = 0 ∨ unprotected status = quadEnableBit := by
    have hbit := Nat.and_two_pow status.toNat 9
    rcases Bool.eq_false_or_eq_true (status.toNat.testBit 9) with h | h <;> rw [h] at hbit
    · exact Or.inr (UInt32.toNat_inj.mp ((UInt32.toNat_and ..).trans hbit))
    · exact Or.inl (UInt32.toNat_inj.mp ((UInt32.toNat_and ..).trans hbit))
  rw [isProtected, h1, h2]
  rcases hcases with h | h <;> rw [h] <;> decide

end MemoryChip

/-! ## Transactions -/

namespace NorChip

variable {capacity : Nat}

theorem poll_eq (d : NorChip (MemoryChip capacity)) :
    d.poll = (decide (d.bus.busy = 0), ⟨d.capacity, { d.bus with busy := d.bus.busy - 1 }⟩) := by
  refine Prod.ext ?_ rfl
  exact decide_eq_decide.mpr d.bus.statusByte_busy

/-- A wait uses up what is left of the busy time and changes nothing else. -/
theorem await_eq (d : NorChip (MemoryChip capacity)) :
    d.await = ⟨d.capacity, { d.bus with busy := 0 }⟩ := by
  have loop : ∀ (n : Nat) (d : NorChip (MemoryChip capacity)), d.bus.busy ≤ n →
      pollUntilIdle poll n d = ⟨d.capacity, { d.bus with busy := 0 }⟩ := by
    intro n
    induction n with
    | zero =>
        intro d hn
        have hbusy : d.bus.busy = 0 := Nat.le_zero.mp hn
        show d.poll.2 = _
        rw [poll_eq, hbusy]
    | succ n ih =>
        intro d hn
        show (if d.poll.1 then d.poll.2 else pollUntilIdle poll n d.poll.2) = _
        rw [poll_eq]
        by_cases hbusy : d.bus.busy = 0
        · simp only [hbusy, decide_true, if_true]
        · rw [decide_eq_false hbusy, if_neg Bool.false_ne_true, ih _ (by simp only; omega)]
  exact loop _ d (Nat.le_refl _)

/-- A driver that waits and sets write enable finds the chip ready. -/
theorem enableWrite_eq (d : NorChip (MemoryChip capacity)) :
    d.enableWrite = ⟨d.capacity, d.bus.ready⟩ := by
  rw [enableWrite, await_eq]
  rfl

/-- A write command that is sent right after write enable is taken. -/
theorem transmit_write (d : NorChip (MemoryChip capacity)) {bytes : List UInt8}
    {c : MemoryChip capacity} (hlength : 1 < bytes.length)
    (hwrite : d.bus.ready.write? bytes = some c) :
    d.enableWrite.transmit bytes = ⟨d.capacity, c.afterWrite⟩ := by
  have hne : ∀ op, bytes ≠ [op] := by
    rintro op rfl
    exact Nat.lt_irrefl 1 hlength
  rw [enableWrite_eq]
  show (⟨d.capacity, (MemoryChip.exchange bytes 0 d.bus.ready).2⟩ : NorChip _) = _
  simp only [MemoryChip.exchange, hne, if_false, MemoryChip.take]
  simp only [MemoryChip.ready] at hwrite ⊢
  simp [hwrite]

/-! ## What the driver gets done -/

/-- The three bytes of an address hold all of it if there are no more bits. -/
theorem address_bytes (addr : UInt32) (h : addr.toNat < 2 ^ 24) :
    MemoryChip.address (addr >>> 16).toUInt8 (addr >>> 8).toUInt8 addr.toUInt8 = addr.toNat := by
  have h16 : ((addr >>> 16).toUInt8).toNat = addr.toNat / 65536 % 256 := by
    simp [Nat.shiftRight_eq_div_pow]
  have h8 : ((addr >>> 8).toUInt8).toNat = addr.toNat / 256 % 256 := by
    simp [Nat.shiftRight_eq_div_pow]
  have h0 : (addr.toUInt8).toNat = addr.toNat % 256 := by
    simp
  rw [MemoryChip.address, h16, h8, h0]
  omega

/-- Bytes that stay inside a page of an unprotected chip are programmed where they belong. -/
theorem programPage_eq (d : NorChip (MemoryChip capacity)) (addr : UInt32) (page : List UInt8)
    (hfree : d.bus.isProtected = false)
    (hpage : addr.toNat % pageSize + page.length ≤ pageSize) (haddr : addr.toNat < 2 ^ 24) :
    (d.programPage (addr, page)).capacity = d.capacity ∧
      (d.programPage (addr, page)).bus.array = clearBits d.bus.array addr.toNat page ∧
      (d.programPage (addr, page)).bus.isProtected = false := by
  have hwrite : d.bus.ready.write? (addressed programOp addr ++ page)
      = some (d.bus.ready.program addr.toNat page) := by
    simp only [addressed, List.cons_append, List.nil_append, MemoryChip.write?, if_true,
      address_bytes addr haddr]
  have hready : d.bus.ready.isProtected = false := hfree
  have hlength : 1 < (addressed programOp addr ++ page).length := by simp [addressed]
  rw [programPage, transmit_write d hlength hwrite, await_eq]
  have hprogram : d.bus.ready.program addr.toNat page = { d.bus.ready with
      array := MemoryChip.programPage (addr.toNat / pageSize * pageSize) d.bus.array
        (addr.toNat % pageSize) page } := by
    rw [MemoryChip.program, if_neg (by simp [hready])]
    rfl
  rw [hprogram]
  refine ⟨rfl, ?_, hfree⟩
  show MemoryChip.programPage _ d.bus.array _ _ = _
  rw [MemoryChip.programPage_eq_clearBits _ _ _ _ hpage, Nat.div_add_mod']

/-- All bytes of a program are programmed where they belong. -/
theorem pages_eq (addr : UInt32) (data : List UInt8) (d : NorChip (MemoryChip capacity))
    (hfree : d.bus.isProtected = false) (hend : addr.toNat + data.length ≤ 2 ^ 24) :
    ((pages addr data).foldl programPage d).capacity = d.capacity ∧
      ((pages addr data).foldl programPage d).bus.array
        = clearBits d.bus.array addr.toNat data ∧
      ((pages addr data).foldl programPage d).bus.isProtected = false := by
  induction addr, data using pages.induct generalizing d with
  | case1 addr =>
      rw [pages]
      exact ⟨rfl, rfl, hfree⟩
  | case2 addr b rest room page ih =>
      have hroom : addr.toNat % pageSize < pageSize := Nat.mod_lt _ (by decide)
      have hcut : page.length + ((b :: rest).drop room).length = (b :: rest).length := by
        rw [← List.length_append, List.take_append_drop]
      have hpage : page.length ≤ room := List.length_take_le ..
      have hnext : (addr + UInt32.ofNat page.length).toNat = addr.toNat + page.length := by
        rw [UInt32.toNat_add, UInt32.toNat_ofNat_of_lt' (by show _ < 4294967296; omega)]
        exact Nat.mod_eq_of_lt (by omega)
      obtain ⟨hcapacity, harray, hfree'⟩ := programPage_eq d addr page hfree
        (by omega) (by simp only [List.length_cons] at hend; omega)
      obtain ⟨hcapacity', harray', hfree''⟩ := ih (d.programPage (addr, page)) hfree'
        (by rw [hnext]; omega)
      rw [pages]
      refine ⟨hcapacity'.trans hcapacity, ?_, hfree''⟩
      have hall := clearBits_append d.bus.array addr.toNat page ((b :: rest).drop room)
      rw [List.take_append_drop] at hall
      rw [hall, ← harray, ← hnext]
      exact harray'

/-- A program of a range of the chip. -/
theorem program_of_holds {d : NorChip (MemoryChip capacity)} {addr : UInt32} {data : List UInt8}
    (hcapacity : d.capacity ≤ 2 ^ 24) (hfree : d.bus.isProtected = false)
    (h : addr.toNat + data.length ≤ d.capacity) :
    (d.program addr data).1 = .ok () ∧ (d.program addr data).2.capacity = d.capacity ∧
      (d.program addr data).2.bus.array = clearBits d.bus.array addr.toNat data ∧
      (d.program addr data).2.bus.isProtected = false := by
  have hholds : d.holds addr data.length = true := decide_eq_true h
  simp only [program, hholds, if_true]
  exact ⟨trivial, pages_eq addr data d hfree (Nat.le_trans h hcapacity)⟩

/-- A program that is not inside the chip is refused. -/
theorem program_of_not_holds {d : NorChip (MemoryChip capacity)} {addr : UInt32}
    {data : List UInt8} (h : ¬addr.toNat + data.length ≤ d.capacity) :
    d.program addr data = (.error .outside, d) := by
  have hholds : d.holds addr data.length = false := decide_eq_false h
  simp only [program, hholds, Bool.false_eq_true, if_false]

/-- An erase of a whole aligned unit of the chip. -/
theorem erase_of_holds {d : NorChip (MemoryChip capacity)} {addr : UInt32} {size : EraseSize}
    (hcapacity : d.capacity ≤ 2 ^ 24) (hfree : d.bus.isProtected = false)
    (haligned : size.bytes ∣ addr.toNat) (h : addr.toNat + size.bytes ≤ d.capacity) :
    (erase addr size d.enableWrite).capacity = d.capacity ∧
      (erase addr size d.enableWrite).bus.array
        = MemoryChip.eraseUnit d.bus.array addr.toNat size.bytes ∧
      (erase addr size d.enableWrite).bus.isProtected = false := by
  have hsize : 0 < size.bytes := size.bytes_pos
  have hready : d.bus.ready.isProtected = false := hfree
  have herased : d.bus.ready.erase addr.toNat size = { d.bus.ready with
      array := MemoryChip.eraseUnit d.bus.array addr.toNat size.bytes } := by
    rw [MemoryChip.erase, if_neg (by simp [hready]), Nat.div_mul_cancel haligned]
    rfl
  have hwrite : d.bus.ready.write? (addressed size.opcode addr)
      = some (d.bus.ready.erase addr.toNat size) := by
    have haddr := address_bytes addr (by omega)
    cases size <;> simp only [addressed, MemoryChip.write?, haddr] <;> rfl
  have hholds : d.enableWrite.holds addr size.bytes = true := decide_eq_true (by
    rw [enableWrite_eq]
    exact h)
  rw [erase, if_pos hholds, transmit_write d (by simp [addressed]) hwrite, herased]
  exact ⟨rfl, rfl, hfree⟩

/-- An erase that is not inside the chip waits and does nothing else. -/
theorem erase_of_not_holds {d : NorChip (MemoryChip capacity)} {addr : UInt32} {size : EraseSize}
    (h : ¬addr.toNat + size.bytes ≤ d.capacity) :
    erase addr size d.enableWrite = ⟨d.capacity, d.bus.ready⟩ := by
  rw [enableWrite_eq]
  have hholds : holds (⟨d.capacity, d.bus.ready⟩ : NorChip (MemoryChip capacity)) addr size.bytes
      = false := decide_eq_false h
  rw [erase, hholds, if_neg Bool.false_ne_true]

/-- Both registers are read, the first one at a moment at which the chip may be busy. -/
theorem statusWord_eq (d : NorChip (MemoryChip capacity)) :
    d.statusWord = (d.bus.statusByte.toUInt32 ||| (d.bus.status2.toUInt32 <<< 8),
      ⟨d.capacity, { d.bus with busy := d.bus.busy - 1 }⟩) := rfl

theorem or_and_distrib (a b mask : UInt32) :
    (a ||| b) &&& mask = (a &&& mask) ||| (b &&& mask) := by
  apply UInt32.toNat_inj.mp
  simp only [UInt32.toNat_and, UInt32.toNat_or, Nat.and_or_distrib_right]

/-- The status tells whether something is protected, busy or not. -/
theorem statusWord_protection (d : NorChip (MemoryChip capacity)) :
    d.statusWord.1 &&& protectionBits ≠ 0 ↔ d.bus.isProtected = true := by
  have hbits := MemoryChip.protectionBits_status d.bus.status1 d.bus.writeEnabled
    (decide (d.bus.busy = 0))
  simp only [decide_eq_true_eq] at hbits
  have hword : d.statusWord.1 &&& protectionBits
      = (d.bus.status1.toUInt32 ||| (d.bus.status2.toUInt32 <<< 8)) &&& protectionBits := by
    rw [statusWord_eq, MemoryChip.statusByte, or_and_distrib, hbits, ← or_and_distrib]
  rw [hword, MemoryChip.isProtected, decide_eq_true_iff]

/-- The array is as it was, and nothing is protected. -/
structure Untouched (d d' : NorChip (MemoryChip capacity)) : Prop where
  capacity_eq : d'.capacity = d.capacity
  array_eq : d'.bus.array = d.bus.array
  free : d'.bus.isProtected = false

/-- Unlocking leaves the array alone, and what it writes to the status protects nothing. -/
theorem unlock_eq (d : NorChip (MemoryChip capacity)) (hfree : d.bus.isProtected = false) :
    d.unlock.1 = .ok () ∧ Untouched d d.unlock.2 := by
  let looked := d.statusWord.2
  let wanted := unprotected d.statusWord.1
  let written := if wanted = d.statusWord.1 then looked
    else (looked.enableWrite.transmit [writeStatusOp, wanted.toUInt8, (wanted >>> 8).toUInt8]).await
  have hunlock : d.unlock = (if written.statusWord.1 &&& protectionBits ≠ 0
      then .error .stillLocked else .ok (), written.statusWord.2) := rfl
  have hwritten : Untouched d written := by
    by_cases hsame : wanted = d.statusWord.1
    · simp only [written, if_pos hsame]
      exact ⟨rfl, rfl, hfree⟩
    · simp only [written, if_neg hsame]
      rw [transmit_write looked (c := { looked.bus.ready with
        status1 := wanted.toUInt8, status2 := (wanted >>> 8).toUInt8 }) (by simp) rfl, await_eq]
      exact ⟨rfl, rfl, MemoryChip.not_isProtected_of_unprotected _ _ rfl rfl⟩
  have hafter := (statusWord_protection written).not.mpr (by simp [hwritten.free])
  rw [hunlock, if_neg hafter]
  exact ⟨rfl, hwritten.capacity_eq, hwritten.array_eq, hwritten.free⟩

end NorChip

/-! ## Any number of calls -/

/-- What a loader asks of a driver.  Write enable always comes right before an erase. -/
inductive DriverCall where
  | unlock
  | poll
  | await
  | erase (addr : UInt32) (size : EraseSize)
  | program (addr : UInt32) (data : List UInt8)
  deriving DecidableEq, Repr

namespace DriverCall

/-- An erase is of a whole unit, or of one that does not lie in the device. -/
def InOrder (capacity : Nat) : DriverCall → Prop
  | erase addr size => size.bytes ∣ addr.toNat ∨ capacity < addr.toNat + size.bytes
  | _ => True

/-- Whether a call is in order is a matter of its address. -/
instance (capacity : Nat) : DecidablePred (InOrder capacity)
  | erase addr size =>
      inferInstanceAs (Decidable (size.bytes ∣ addr.toNat ∨ capacity < addr.toNat + size.bytes))
  | unlock | poll | await | program _ _ => isTrue trivial

variable {δ : Type} [FlashDevice δ]

/-- What a call reports, if it is one that reports something, and the device after it. -/
def perform (d : δ) : DriverCall → Option (Except DeviceFault Unit) × δ
  | unlock => let (result, d) := FlashDevice.unlock d; (some result, d)
  | poll => (none, (FlashDevice.poll d).2)
  | await => (none, FlashDevice.awaitIdle d)
  | erase addr size => (none, FlashDevice.erase addr size (FlashDevice.enableWrite d))
  | program addr data => let (result, d) := FlashDevice.program addr data d; (some result, d)

/-- What the calls of a sequence report, and the device after them. -/
def performAll (d : δ) : List DriverCall → List (Option (Except DeviceFault Unit)) × δ
  | [] => ([], d)
  | call :: calls =>
      let first := perform d call
      let rest := performAll first.2 calls
      (first.1 :: rest.1, rest.2)

end DriverCall

section Agreement

variable {capacity : Nat}

/-- A driver and a simulated device that hold the same.  Nothing is protected, and no faults are
    switched on. -/
structure Agrees (d : NorChip (MemoryChip capacity)) (s : Simulator capacity) : Prop where
  capacity_eq : d.capacity = capacity
  memory : d.bus.array = s.memory
  free : d.bus.isProtected = false
  faults : s.faults = {}

theorem Agrees.unlock {d : NorChip (MemoryChip capacity)} {s : Simulator capacity}
    (h : Agrees d s) : (FlashDevice.unlock d).1 = (FlashDevice.unlock s).1 ∧
      Agrees (FlashDevice.unlock d).2 (FlashDevice.unlock s).2 := by
  obtain ⟨hresult, hsame⟩ := d.unlock_eq h.free
  rw [Simulator.unlock_ok (by rw [h.faults])]
  exact ⟨hresult, hsame.capacity_eq.trans h.capacity_eq, hsame.array_eq.trans h.memory, hsame.free,
    h.faults⟩

theorem Agrees.poll {d : NorChip (MemoryChip capacity)} {s : Simulator capacity}
    (h : Agrees d s) : Agrees (FlashDevice.poll d).2 (FlashDevice.poll s).2 := by
  show Agrees d.poll.2 s.poll.2
  rw [NorChip.poll_eq, Simulator.poll_snd]
  exact ⟨h.capacity_eq, h.memory, h.free, h.faults⟩

theorem Agrees.await {d : NorChip (MemoryChip capacity)} {s : Simulator capacity}
    (h : Agrees d s) : Agrees (FlashDevice.awaitIdle d) (FlashDevice.awaitIdle s) := by
  show Agrees d.await _
  rw [NorChip.await_eq, Simulator.awaitIdle_eq]
  exact ⟨h.capacity_eq, h.memory, h.free, h.faults⟩

/-- An erase in order agrees, also where it is not inside the chip. -/
theorem Agrees.erase (hcapacity : capacity ≤ 2 ^ 24) {d : NorChip (MemoryChip capacity)}
    {s : Simulator capacity} (h : Agrees d s) {addr : UInt32} {size : EraseSize}
    (horder : size.bytes ∣ addr.toNat ∨ capacity < addr.toNat + size.bytes) :
    Agrees (FlashDevice.erase addr size (FlashDevice.enableWrite d))
      (FlashDevice.erase addr size (FlashDevice.enableWrite s)) := by
  have hfaults : (s.enableWrite.erase addr size).faults = {} := by
    have hconduct := Simulator.conduct_erase addr size s.enableWrite
    rw [Simulator.enableWrite_eq] at hconduct ⊢
    exact (congrArg Simulator.Conduct.faults hconduct).trans h.faults
  have hmemory := s.memory_erase addr size
  show Agrees (NorChip.erase addr size d.enableWrite) (s.enableWrite.erase addr size)
  by_cases hin : addr.toNat + size.bytes ≤ capacity
  · have haligned : size.bytes ∣ addr.toNat := by
      rcases horder with h | h
      · exact h
      · omega
    obtain ⟨hcap, harray, hfree⟩ := NorChip.erase_of_holds (d := d)
      (by rw [h.capacity_eq]; exact hcapacity) h.free haligned (by rw [h.capacity_eq]; exact hin)
    rw [if_pos hin] at hmemory
    refine ⟨hcap.trans h.capacity_eq, ?_, hfree, hfaults⟩
    rw [harray, hmemory, h.memory]
  · rw [NorChip.erase_of_not_holds (by rw [h.capacity_eq]; exact hin)]
    rw [if_neg hin] at hmemory
    exact ⟨h.capacity_eq, h.memory.trans hmemory.symm, h.free, hfaults⟩

/-- A program agrees, with its outcome. -/
theorem Agrees.program (hcapacity : capacity ≤ 2 ^ 24) {d : NorChip (MemoryChip capacity)}
    {s : Simulator capacity} (h : Agrees d s) (addr : UInt32) (data : List UInt8) :
    (FlashDevice.program addr data d).1 = (FlashDevice.program addr data s).1 ∧
      Agrees (FlashDevice.program addr data d).2 (FlashDevice.program addr data s).2 := by
  obtain ⟨hfaults, hprogram⟩ := Simulator.program_of_faultless h.faults addr data
  show (d.program addr data).1 = (s.program addr data).1 ∧
    Agrees (d.program addr data).2 (s.program addr data).2
  by_cases hin : addr.toNat + data.length ≤ capacity
  · rw [if_pos hin] at hprogram
    obtain ⟨hresult, hcap, harray, hfree⟩ := NorChip.program_of_holds (d := d)
      (by rw [h.capacity_eq]; exact hcapacity) h.free (by rw [h.capacity_eq]; exact hin)
    refine ⟨hresult.trans hprogram.1.symm, hcap.trans h.capacity_eq, ?_, hfree, hfaults⟩
    rw [harray, hprogram.2, h.memory]
  · rw [if_neg hin] at hprogram
    rw [NorChip.program_of_not_holds (by rw [h.capacity_eq]; exact hin)]
    exact ⟨hprogram.1.symm, h.capacity_eq, h.memory.trans hprogram.2.symm, h.free, hfaults⟩

/-- One call. -/
theorem Agrees.perform (hcapacity : capacity ≤ 2 ^ 24) {d : NorChip (MemoryChip capacity)}
    {s : Simulator capacity} (h : Agrees d s) {call : DriverCall} (hcall : call.InOrder capacity) :
    (call.perform d).1 = (call.perform s).1 ∧ Agrees (call.perform d).2 (call.perform s).2 := by
  cases call with
  | unlock => exact ⟨congrArg some h.unlock.1, h.unlock.2⟩
  | poll => exact ⟨rfl, h.poll⟩
  | await => exact ⟨rfl, h.await⟩
  | erase addr size => exact ⟨rfl, h.erase hcapacity hcall⟩
  | program addr data =>
      obtain ⟨hresult, hafter⟩ := h.program hcapacity addr data
      exact ⟨congrArg some hresult, hafter⟩

/-- Any calls in order agree, with their outcomes. -/
theorem Agrees.performAll (hcapacity : capacity ≤ 2 ^ 24) {d : NorChip (MemoryChip capacity)}
    {s : Simulator capacity} (h : Agrees d s) {calls : List DriverCall}
    (hcalls : ∀ call ∈ calls, call.InOrder capacity) :
    (DriverCall.performAll d calls).1 = (DriverCall.performAll s calls).1 ∧
      Agrees (DriverCall.performAll d calls).2 (DriverCall.performAll s calls).2 := by
  induction calls generalizing d s with
  | nil => exact ⟨rfl, h⟩
  | cons call calls ih =>
      obtain ⟨hcall, hrest⟩ := List.forall_mem_cons.mp hcalls
      obtain ⟨hfirst, hafter⟩ := h.perform hcapacity hcall
      obtain ⟨hlater, hend⟩ := ih hafter hrest
      exact ⟨List.cons_eq_cons.mpr ⟨hfirst, hlater⟩, hend⟩

/-- The driver on its chip and the simulated device hold the same after any calls that a loader
    makes, and have reported the same. -/
theorem agree_after_calls (hcapacity : capacity ≤ 2 ^ 24) (chip : MemoryChip capacity)
    (s : Simulator capacity) (hfree : chip.isProtected = false) (hfaults : s.faults = {})
    (hmemory : chip.array = s.memory) (calls : List DriverCall)
    (hcalls : ∀ call ∈ calls, call.InOrder capacity) :
    let onChip := DriverCall.performAll (⟨capacity, chip⟩ : NorChip (MemoryChip capacity)) calls
    let simulated := DriverCall.performAll s calls
    onChip.1 = simulated.1 ∧ onChip.2.bus.array = simulated.2.memory := by
  have hstart : Agrees ⟨capacity, chip⟩ s := ⟨rfl, hmemory, hfree, hfaults⟩
  obtain ⟨hresults, hend⟩ := hstart.performAll hcapacity hcalls
  exact ⟨hresults, hend.memory⟩

/-- Two erases, a program across pages and a sector border, and two calls that reach past the end,
    with a chip that is busy at first and stays so for longer and longer. -/
theorem agree_after_calls_across_pages :
    let chip : MemoryChip 65536 :=
      { array := Vector.replicate 65536 0x5A, status2 := 0x02, busy := 3, delays := id }
    let s : Simulator 65536 := { eraseTime := 2, programTime := 1 }
    let calls : List DriverCall := [.unlock, .poll, .erase 0 .sector, .erase 4096 .sector, .poll,
      .await, .program 4090 (List.replicate 300 0x21), .erase 65536 .block, .program 65530 [1, 2],
      .program 65530 [1, 2, 3, 4, 5, 6, 7]]
    chip.isProtected = false ∧ chip.array = s.memory ∧
      (∀ call ∈ calls, call.InOrder 65536) ∧
      (DriverCall.performAll (⟨65536, chip⟩ : NorChip (MemoryChip 65536)) calls).1
        = [some (.ok ()), none, none, none, none, none, some (.ok ()), none, some (.ok ()),
          some (.error .outside)] ∧
      (DriverCall.performAll (⟨65536, chip⟩ : NorChip (MemoryChip 65536)) calls).2.bus.array
        = (DriverCall.performAll s calls).2.memory := by
  intro chip s calls
  have hfree : chip.isProtected = false := by decide
  have hmemory : chip.array = s.memory := by
    simp [chip, s, Simulator.memory, Cells.stale, Cell.value, Cell.staleByte]
  have hcalls : ∀ call ∈ calls, call.InOrder 65536 := by decide
  have hagree := agree_after_calls (by omega) chip s hfree rfl hmemory calls hcalls
  exact ⟨hfree, hmemory, hcalls, hagree.1.trans (by decide +kernel), hagree.2⟩

end Agreement
end NorLoader
