import NorLoader.Proofs.Host.DeviceUse
import NorLoader.Proofs.Image.DeviceMap
import NorLoader.Proofs.Spi.ChipAgreement

/-!
# The order of write commands

A chip drops a write command that comes while it is busy or without write enable, and nothing on the
bus tells of it.  Here a tap on the bus keeps every transaction (`Tapped`), which changes nothing for
the driver (`Tapped.bare_map`).  However often the chip says that it is busy, each write command is
then found behind a status read that showed the chip idle and a write enable, with nothing in
between, although it is the job that enables an erase and the driver that enables everything else.
-/

namespace NorLoader

/-! ## Transactions -/

/-- What went over a bus in one transaction: the bytes out, and those of the bytes in that were
    asked for. -/
structure Transaction where
  bytes : List UInt8
  answer : List UInt8
  deriving DecidableEq, Repr

namespace Transaction

/-- Whether a transaction is a command that writes to the chip: a program, an erase of either size
    or a write of the status. -/
def isWrite (t : Transaction) : Bool :=
  match t.bytes with
  | [] => false
  | op :: _ => op = NorChip.programOp || op = EraseSize.sector.opcode ||
      op = EraseSize.block.opcode || op = NorChip.writeStatusOp

/-- Whether a transaction is a read of the status that shows the chip idle. -/
def showsIdle (t : Transaction) : Bool :=
  t.bytes = [NorChip.readStatusOp] && (t.answer[1]?.getD 0).toUInt32 &&& busyBit = 0

/-- What a write command needs right before it: a look at the idle chip, and write enable. -/
def Needs (before : List Transaction) (t : Transaction) (_ : List Transaction) : Prop :=
  t.isWrite = true → ∃ earlier status enable, before = earlier ++ [status, enable] ∧
    status.showsIdle = true ∧ enable.bytes = [NorChip.enableWriteOp]

/-- What a write needs before it is right before it. -/
theorem lasting_needs : Lasting Needs := by
  intro before t after more more' h hwrite
  obtain ⟨earlier, status, enable, rfl, hidle, henable⟩ := h hwrite
  exact ⟨more ++ earlier, status, enable, (List.append_assoc _ _ _).symm, hidle, henable⟩

theorem isWrite_of_showsIdle {t : Transaction} (h : t.showsIdle = true) : t.isWrite = false := by
  simp only [showsIdle, Bool.and_eq_true, decide_eq_true_eq] at h
  rw [isWrite, h.1]
  rfl

theorem isWrite_of_enables {t : Transaction} (h : t.bytes = [NorChip.enableWriteOp]) :
    t.isWrite = false := by
  rw [isWrite, h]
  rfl

/-- Nothing has to come before what is no write command. -/
theorem wellPlaced_of_reads {log : List Transaction} (h : ∀ t ∈ log, t.isWrite = false) :
    WellPlaced Needs log := by
  refine WellPlaced.of_forall ?_
  intro t ht before after hwrite
  rw [h t ht] at hwrite
  exact nomatch hwrite

/-- A write command with all that it needs. -/
theorem wellPlaced_enabled {status enable : Transaction} (hidle : status.showsIdle = true)
    (henable : enable.bytes = [NorChip.enableWriteOp]) (t : Transaction) :
    WellPlaced Needs [status, enable, t] := by
  intro before t' after heq hwrite
  rcases before with _ | ⟨first, _ | ⟨second, _ | ⟨third, rest⟩⟩⟩
  · obtain ⟨rfl, -⟩ := List.cons.inj heq
    rw [isWrite_of_showsIdle hidle] at hwrite
    exact nomatch hwrite
  · obtain ⟨-, htail⟩ := List.cons.inj heq
    obtain ⟨rfl, -⟩ := List.cons.inj htail
    rw [isWrite_of_enables henable] at hwrite
    exact nomatch hwrite
  · obtain ⟨rfl, htail⟩ := List.cons.inj heq
    obtain ⟨rfl, -⟩ := List.cons.inj htail
    exact ⟨[], status, enable, rfl, hidle, henable⟩
  · simp at heq

end Transaction

/-! ## Taps -/

/-- Buses to a chip that is not busy for ever: a status read that finds it busy uses up some of the
    patience. -/
class LawfulSpiBus (β : Type) [SpiBus β] : Prop where
  busyPatience_lt : ∀ bus : β,
    ((SpiBus.exchange [NorChip.readStatusOp] 2 bus).1[1]?.getD 0).toUInt32 &&& busyBit ≠ 0 →
      SpiBus.busyPatience (SpiBus.exchange [NorChip.readStatusOp] 2 bus).2
        < SpiBus.busyPatience bus

/-- A chip in memory is busy for as many status reads as it says. -/
instance {capacity : Nat} : LawfulSpiBus (MemoryChip capacity) where
  busyPatience_lt c h := by
    show c.busy - 1 < c.busy
    have hbusy : c.busy ≠ 0 := by
      intro hidle
      exact h (c.statusByte_busy.mpr hidle)
    omega

/-- A bus with a tap that keeps every transaction. -/
structure Tapped (β : Type) where
  bus : β
  log : List Transaction := []

variable {β : Type} [SpiBus β]

/-- The tap keeps what is sent and what comes back. -/
instance : SpiBus (Tapped β) where
  exchange bytes wanted t :=
    let (answer, bus) := SpiBus.exchange bytes wanted t.bus
    (answer, ⟨bus, t.log ++ [⟨bytes, answer⟩]⟩)
  busyPatience t := SpiBus.busyPatience t.bus

/-- It does not change how long to wait. -/
instance [LawfulSpiBus β] : LawfulSpiBus (Tapped β) where
  busyPatience_lt t h := LawfulSpiBus.busyPatience_lt t.bus h

/-- With a lawful bus no wait of the driver is cut short. -/
instance [LawfulSpiBus β] : LawfulFlashDevice (NorChip β) where
  patience_poll_lt c h := LawfulSpiBus.busyPatience_lt c.bus (of_decide_eq_false h)

namespace NorChip

/-- The chip without the tap. -/
def bare (c : NorChip (Tapped β)) : NorChip β := ⟨c.capacity, c.bus.bus⟩

/-! ### A tap changes nothing -/

/-- A wait is the same without the tap. -/
theorem bare_await (c : NorChip (Tapped β)) : c.bare.await = c.await.bare := by
  have loop : ∀ (n : Nat) (c : NorChip (Tapped β)),
      pollUntilIdle poll n c.bare = (pollUntilIdle poll n c).bare := by
    intro n
    induction n with
    | zero =>
        intro c
        rfl
    | succ n ih =>
        intro c
        show (if c.poll.1 then c.poll.2.bare else pollUntilIdle poll n c.poll.2.bare)
          = (if c.poll.1 then c.poll.2 else pollUntilIdle poll n c.poll.2).bare
        split
        · rfl
        · exact ih c.poll.2
  exact loop _ c

theorem bare_enableWrite (c : NorChip (Tapped β)) : c.bare.enableWrite = c.enableWrite.bare := by
  rw [enableWrite, bare_await]
  rfl

theorem bare_programPage (c : NorChip (Tapped β)) (page : UInt32 × List UInt8) :
    c.bare.programPage page = (c.programPage page).bare := by
  rw [programPage, bare_enableWrite, programPage, ← bare_await]
  rfl

theorem bare_pages (pages : List (UInt32 × List UInt8)) (c : NorChip (Tapped β)) :
    pages.foldl programPage c.bare = (pages.foldl programPage c).bare := by
  induction pages generalizing c with
  | nil => rfl
  | cons page rest ih => rw [List.foldl_cons, List.foldl_cons, bare_programPage, ih]

theorem bare_unlock (c : NorChip (Tapped β)) :
    c.bare.unlock = (c.unlock.1, c.unlock.2.bare) := by
  have hwrite (d : NorChip (Tapped β)) (bytes : List UInt8) :
      (d.bare.enableWrite.transmit bytes).await = (d.enableWrite.transmit bytes).await.bare := by
    rw [bare_enableWrite, ← bare_await]
    rfl
  have hstatus (d : NorChip (Tapped β)) :
      d.bare.statusWord = (d.statusWord.1, d.statusWord.2.bare) := rfl
  simp only [unlock, hstatus]
  split
  · rw [hstatus]
  · rw [hwrite, hstatus]

/-- So is every use of the driver. -/
theorem bare_map : DeviceMap (@bare β) where
  poll _ := rfl
  patience _ := rfl
  enableWrite := bare_enableWrite
  erase addr size c :=
    (apply_ite bare (c.holds addr size.bytes = true) (c.transmit _) c).symm
  program addr data c := by
    have hholds : c.bare.holds addr data.length = c.holds addr data.length := rfl
    show program addr data c.bare = ((program addr data c).1, (program addr data c).2.bare)
    simp only [program, hholds, bare_pages]
    split <;> rfl
  encryptAndProgram _ _ _ := rfl
  setEncryptionLatch _ _ := rfl
  unlock := bare_unlock

/-! ### What the driver sends -/

variable {c : NorChip (Tapped β)}

theorem log_transmit (c : NorChip (Tapped β)) (bytes : List UInt8) :
    ∃ answer, (c.transmit bytes).bus.log = c.bus.log ++ [⟨bytes, answer⟩] := ⟨_, rfl⟩

/-- A poll is a read of the status, and finds the chip idle if that shows it. -/
theorem log_poll (c : NorChip (Tapped β)) :
    ∃ status, c.poll.2.bus.log = c.bus.log ++ [status] ∧ status.isWrite = false ∧
      c.poll.1 = status.showsIdle := ⟨⟨[readStatusOp], _⟩, rfl, rfl, rfl⟩

/-- A chip whose write commands all had what they need. -/
def InOrder (c : NorChip (Tapped β)) : Prop := WellPlaced Transaction.Needs c.bus.log

namespace InOrder

omit [SpiBus β] in
/-- Whatever is no write command can be sent at any time. -/
theorem reads (h : c.InOrder) {c' : NorChip (Tapped β)} {log : List Transaction}
    (hlog : c'.bus.log = c.bus.log ++ log) (hreads : ∀ t ∈ log, t.isWrite = false) :
    c'.InOrder := by
  rw [InOrder, hlog]
  exact h.append Transaction.lasting_needs (Transaction.wellPlaced_of_reads hreads)

theorem register (h : c.InOrder) {op : UInt8} (hop : op = readStatusOp ∨ op = readStatus2Op) :
    (c.register op).2.InOrder := by
  refine h.reads rfl ?_
  intro t ht
  rw [List.mem_singleton.mp ht]
  rcases hop with rfl | rfl <;> rfl

theorem statusWord (h : c.InOrder) : c.statusWord.2.InOrder :=
  (h.register (Or.inl rfl)).register (Or.inr rfl)

end InOrder

section Lawful

variable [LawfulSpiBus β]

/-- A wait is a number of status reads, and the last of them showed the chip idle. -/
theorem log_await (c : NorChip (Tapped β)) :
    ∃ reads status, c.await.bus.log = c.bus.log ++ reads ++ [status] ∧
      (∀ t ∈ reads, t.isWrite = false) ∧ status.showsIdle = true := by
  have loop : ∀ (n : Nat) (c : NorChip (Tapped β)), SpiBus.busyPatience c.bus ≤ n →
      ∃ reads status, (pollUntilIdle poll n c).bus.log = c.bus.log ++ reads ++ [status] ∧
        (∀ t ∈ reads, t.isWrite = false) ∧ status.showsIdle = true := by
    intro n
    induction n with
    | zero =>
        intro c hn
        obtain ⟨status, hlog, -, hpoll⟩ := c.log_poll
        -- a chip that is busy would have patience left
        have hidle : c.poll.1 = true := by
          cases hbusy : c.poll.1 with
          | true => rfl
          | false =>
              have hless := LawfulFlashDevice.patience_poll_lt c hbusy
              exact absurd (Nat.lt_of_lt_of_le hless hn) (Nat.not_lt_zero _)
        refine ⟨[], status, ?_, nofun, hpoll.symm.trans hidle⟩
        rw [List.append_nil]
        exact hlog
    | succ n ih =>
        intro c hn
        obtain ⟨first, hfirst, hread, hpoll⟩ := c.log_poll
        cases hidle : c.poll.1 with
        | true =>
            refine ⟨[], first, ?_, nofun, hpoll.symm.trans hidle⟩
            simp only [pollUntilIdle, hidle, if_true, List.append_nil]
            exact hfirst
        | false =>
            have hless := LawfulFlashDevice.patience_poll_lt c hidle
            obtain ⟨reads, status, hlog, hreads, hlast⟩ :=
              ih c.poll.2 (Nat.lt_succ_iff.mp (Nat.lt_of_lt_of_le hless hn))
            refine ⟨first :: reads, status, ?_, List.forall_mem_cons.mpr ⟨hread, hreads⟩, hlast⟩
            simp only [pollUntilIdle, hidle, Bool.false_eq_true, if_false]
            rw [hlog, hfirst, List.append_assoc c.bus.log]
            rfl
  exact loop _ c (Nat.le_refl _)

namespace InOrder

/-- A wait reads the status only. -/
theorem await (h : c.InOrder) : c.await.InOrder := by
  obtain ⟨reads, status, hlog, hreads, hidle⟩ := c.log_await
  refine h.reads (hlog.trans (List.append_assoc _ _ _)) ?_
  intro t ht
  rcases List.mem_append.mp ht with hread | hlast
  · exact hreads t hread
  · rw [List.mem_singleton.mp hlast]
    exact Transaction.isWrite_of_showsIdle hidle

theorem enableWrite (h : c.InOrder) : c.enableWrite.InOrder := by
  refine h.await.reads rfl ?_
  intro t ht
  rw [List.mem_singleton.mp ht]
  rfl

/-- A command that is sent right after write enable is in order, whatever it is. -/
theorem transmit_enabled (h : c.InOrder) (bytes : List UInt8) :
    (c.enableWrite.transmit bytes).InOrder := by
  obtain ⟨reads, status, hlog, hreads, hidle⟩ := c.log_await
  obtain ⟨answer, henable⟩ := c.await.log_transmit [enableWriteOp]
  obtain ⟨answer', hsent⟩ := c.enableWrite.log_transmit bytes
  have hbefore : WellPlaced Transaction.Needs (c.bus.log ++ reads) :=
    h.append Transaction.lasting_needs (Transaction.wellPlaced_of_reads hreads)
  have hall : (c.enableWrite.transmit bytes).bus.log
      = (c.bus.log ++ reads) ++ [status, ⟨[enableWriteOp], answer⟩, ⟨bytes, answer'⟩] := by
    rw [hsent, show c.enableWrite.bus.log = _ from henable, hlog]
    simp only [List.append_assoc, List.cons_append, List.nil_append]
  rw [InOrder, hall]
  exact hbefore.append Transaction.lasting_needs (Transaction.wellPlaced_enabled hidle rfl _)

/-- An erase of a plan is in order. -/
theorem issue (h : c.InOrder) (addr : UInt32) (size : EraseSize) :
    (NorChip.erase addr size c.enableWrite).InOrder := by
  simp only [NorChip.erase]
  split
  · exact h.transmit_enabled _
  · exact h.enableWrite

/-- So is a program, page by page. -/
theorem program (h : c.InOrder) (addr : UInt32) (data : List UInt8) :
    (c.program addr data).2.InOrder := by
  have pages : ∀ (pages : List (UInt32 × List UInt8)) (c : NorChip (Tapped β)), c.InOrder →
      (pages.foldl programPage c).InOrder := by
    intro pages
    induction pages with
    | nil =>
        intro c h
        exact h
    | cons page rest ih =>
        intro c h
        exact ih _ (h.transmit_enabled _).await
  simp only [NorChip.program]
  split
  · exact pages _ c h
  · exact h

/-- So is the release of the protection. -/
theorem unlock (h : c.InOrder) : c.unlock.2.InOrder := by
  have hread := h.statusWord
  simp only [NorChip.unlock]
  split
  · exact hread.statusWord
  · exact (hread.transmit_enabled _).await.statusWord

/-- Everything that a controller does keeps the write commands in order. -/
theorem upkeep : DeviceUpkeep (@InOrder β) where
  poll h := h.register (Or.inl rfl)
  issue h _ := h.issue _ _
  deliver := by
    intro w j c v h _ _ _
    rw [Job.device_deliver]
    have hidle : (FlashDevice.awaitIdle c).InOrder := h.await
    cases v.storage with
    | plain => exact hidle.program _ _
    -- the chip has no encryption unit, so nothing is sent
    | encrypted => exact hidle
  note _ h := h
  unlock h := h.unlock

end InOrder
end Lawful
end NorChip

/-! ## Runs on a chip -/

namespace Controller

/-- On any bus to a chip that is not busy for ever, whatever requests come and whenever there are
    none, every write command comes right after write enable, and that right after a status read
    that showed the chip idle: so there is one since the write command before.  The tap has no part
    in it, for without it the answers and the chip are the same. -/
theorem write_commands_wait_and_enable [LawfulSpiBus β] (capacity : Nat) (bus : β)
    (found : List (Option Request)) :
    let chip : NorChip (Tapped β) := ⟨capacity, ⟨bus, []⟩⟩
    let out := (powerOn chip).attendAll found
    (powerOn (⟨capacity, bus⟩ : NorChip β)).attendAll found
        = (out.1, out.2.map NorChip.bare) ∧
      ∀ before t after, out.2.loader.device.bus.log = before ++ t :: after → t.isWrite = true →
        ∃ earlier status enable, before = earlier ++ [status, enable] ∧
          status.showsIdle = true ∧ enable.bytes = [NorChip.enableWriteOp] := by
  intro chip out
  constructor
  · exact NorChip.bare_map.attendAll (powerOn chip) found
  · intro before t after hlog hwrite
    have hstart : chip.InOrder := WellPlaced.nil
    have hrun : out.2.loader.device.InOrder := NorChip.InOrder.upkeep.attendAll hstart found
    exact hrun before t after hlog hwrite

/-- A protected chip is written on while it still erases for a job that was given up. -/
theorem write_commands_wait_and_enable_while_erasing :
    let bus : MemoryChip 8192 :=
      { array := Vector.replicate 8192 0, status1 := 0x1C, delays := fun n => n + 2 }
    let block : Request := .data ⟨.plain, 0, Crc32.checksum [1, 2], [1, 2]⟩
    let chip : NorChip (Tapped (MemoryChip 8192)) := ⟨8192, ⟨bus, []⟩⟩
    let out := (powerOn chip).attendAll
      [some (.start 4 4096), none, some (.start 2 255), some block]
    let log := out.2.loader.device.bus.log
    (log.filter Transaction.isWrite).map Transaction.bytes
        = [[0x01, 0, 0], [0x20, 0, 0x10, 0], [0x01, 0, 0], [0x20, 0, 0, 0],
          [0x02, 0, 0, 0xFF, 1], [0x02, 0, 1, 0, 2]] ∧
      ∀ before t after, log = before ++ t :: after → t.isWrite = true →
        ∃ earlier status enable, before = earlier ++ [status, enable] ∧
          status.showsIdle = true ∧ enable.bytes = [NorChip.enableWriteOp] := by
  intro bus block chip out log
  obtain ⟨-, horder⟩ := write_commands_wait_and_enable 8192 bus
    [some (.start 4 4096), none, some (.start 2 255), some block]
  exact ⟨by decide +kernel, horder⟩

end Controller
end NorLoader
