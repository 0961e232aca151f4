import NorLoader.Host.MainLoop
import NorLoader.Proofs.Host.DeviceUse
import NorLoader.Proofs.Image.DeviceMap

/-!
# A bench

On a bench a flash device, a serial line and a light are side by side, and a log says in which order
they were used.  None of them has to do with the others, so the flash device of a bench does what it
does by itself (`Bench.flash_map`), and what is done with one leaves only its own marks in the log:
`Bench.Worked` for the flash device, `Bench.Sent` for the line.
-/

namespace NorLoader

/-- What happens on a bench. -/
inductive BenchEvent where
  /-- A primitive of the flash device was called. -/
  | called
  /-- Bytes were offered to the line, and it took these. -/
  | offered (taken : List UInt8)
  | lit (on : Bool)
  deriving DecidableEq, Repr

/-- A flash and a serial line, and what happened to either, in order. -/
structure Bench (φ σ : Type) where
  flash : φ
  line : σ
  events : List BenchEvent := []

namespace Bench

variable {φ σ : Type}

/-- Something was asked of the flash. -/
def called (b : Bench φ σ) (flash : φ) : Bench φ σ :=
  { b with flash := flash, events := b.events ++ [.called] }

/-- Some bytes were offered to the line. -/
def offered (b : Bench φ σ) (line : σ) (taken : List UInt8) : Bench φ σ :=
  { b with line := line, events := b.events ++ [.offered taken] }

end Bench

/-! ## What a bench does -/

section Instances

variable {φ σ : Type}

/-- Every primitive of the flash is a call on the bench. -/
instance [FlashDevice φ] : FlashDevice (Bench φ σ) where
  poll b := ((FlashDevice.poll b.flash).1, b.called (FlashDevice.poll b.flash).2)
  patience b := FlashDevice.patience b.flash
  enableWrite b := b.called (FlashDevice.enableWrite b.flash)
  erase addr size b := b.called (FlashDevice.erase addr size b.flash)
  program addr data b :=
    ((FlashDevice.program addr data b.flash).1,
      b.called (FlashDevice.program addr data b.flash).2)
  encryptAndProgram addr data b :=
    ((FlashDevice.encryptAndProgram addr data b.flash).1,
      b.called (FlashDevice.encryptAndProgram addr data b.flash).2)
  setEncryptionLatch on b := b.called (FlashDevice.setEncryptionLatch on b.flash)
  unlock b := ((FlashDevice.unlock b.flash).1, b.called (FlashDevice.unlock b.flash).2)

/-- The line of a bench keeps what was taken of each offer. -/
instance [SerialLine σ] : SerialLine (Bench φ σ) where
  offer bytes b :=
    match SerialLine.offer bytes b.line with
    | (.took count, line) => (.took count, b.offered line (bytes.take count))
    | (outcome, line) => (outcome, b.offered line [])
  offerPatience b := SerialLine.offerPatience b.line

/-- The light of a bench is only kept. -/
instance : StatusLight (Bench φ σ) where
  setLight on b := { b with events := b.events ++ [.lit on] }

end Instances

namespace Bench

variable {φ σ : Type}

/-- The flash does on the bench what it does without it. -/
theorem flash_map [FlashDevice φ] : DeviceMap (flash : Bench φ σ → φ) where
  poll _ := rfl
  patience _ := rfl
  enableWrite _ := rfl
  erase _ _ _ := rfl
  program _ _ _ := rfl
  encryptAndProgram _ _ _ := rfl
  setEncryptionLatch _ _ := rfl
  unlock _ := rfl

/-! ## Work on the flash device -/

/-- Between two moments only the flash device was used. -/
def Worked (b b' : Bench φ σ) : Prop :=
  b'.line = b.line ∧ ∃ calls, b'.events = b.events ++ List.replicate calls .called

namespace Worked

/-- Nothing may be done. -/
theorem refl (b : Bench φ σ) : Worked b b := ⟨rfl, 0, (List.append_nil _).symm⟩

/-- Work may go on. -/
theorem trans {b b' b'' : Bench φ σ} (h : Worked b b') (h' : Worked b' b'') : Worked b b'' := by
  obtain ⟨hline, calls, hevents⟩ := h
  obtain ⟨hline', calls', hevents'⟩ := h'
  refine ⟨hline'.trans hline, calls + calls', ?_⟩
  rw [hevents', hevents, List.append_assoc, List.replicate_append_replicate]

/-- A call is work. -/
theorem call {b b' : Bench φ σ} (h : Worked b b') (flash : φ) : Worked b (b'.called flash) :=
  h.trans ⟨rfl, 1, rfl⟩

variable [FlashDevice φ]

/-- So is a wait. -/
theorem awaitIdle {b b' : Bench φ σ} (h : Worked b b') : Worked b (FlashDevice.awaitIdle b') := by
  have loop : ∀ (n : Nat) (b' : Bench φ σ), Worked b b' →
      Worked b (pollUntilIdle FlashDevice.poll n b') := by
    intro n
    induction n with
    | zero => intro b' h; exact h.call _
    | succ n ih =>
        intro b' h
        simp only [pollUntilIdle]
        split
        · exact h.call _
        · exact ih _ (h.call _)
  exact loop _ b' h

/-- So is a program, in whatever way. -/
theorem programVia {b b' : Bench φ σ} (h : Worked b b') (storage : Storage) (addr : UInt32)
    (data : List UInt8) : Worked b (Job.programVia storage addr data b').2 := by
  cases storage with
  | plain => exact h.call _
  | encrypted => exact ((h.call _).call _).call _

/-- A controller has nothing but the flash device to work with. -/
theorem upkeep (b : Bench φ σ) : DeviceUpkeep fun b' => Worked b b' where
  poll h := h.call _
  issue h _ := (h.call _).call _
  deliver := by
    intro w j b' v h _ _ _
    have hprogram := h.awaitIdle.programVia v.storage j.cursor v.bytes
    simp only [Job.deliver]
    split <;> rename_i heq <;> rw [heq] at hprogram <;> exact hprogram
  note _ h := h
  unlock h := h.call _

end Worked

/-! ## Sending -/

/-- Between two moments only the line was used, and it took these bytes. -/
def Sent (bytes : List UInt8) (b b' : Bench φ σ) : Prop :=
  b'.flash = b.flash ∧ ∃ taken : List (List UInt8),
    taken.flatten = bytes ∧ b'.events = b.events ++ taken.map .offered

/-- Nothing may be sent. -/
theorem Sent.nothing (b : Bench φ σ) : Sent [] b b := ⟨rfl, [], rfl, (List.append_nil _).symm⟩

/-- What an offer gets rid of is sent before the rest. -/
theorem Sent.offer {bytes taken : List UInt8} {b b' : Bench φ σ} {line : σ}
    (h : Sent bytes (b.offered line taken) b') : Sent (taken ++ bytes) b b' := by
  obtain ⟨hflash, more, hmore, hevents⟩ := h
  refine ⟨hflash, taken :: more, by rw [List.flatten_cons, hmore], ?_⟩
  rw [hevents]
  exact List.append_assoc _ _ _

section Line

variable [SerialLine σ] {bytes : List UInt8} {b : Bench φ σ}

/-- An offer that is taken is kept with what was taken of it. -/
theorem offer_of_took {count : Nat} (h : (SerialLine.offer bytes b.line).1 = .took count) :
    SerialLine.offer bytes b
      = (.took count, b.offered (SerialLine.offer bytes b.line).2 (bytes.take count)) := by
  rcases heq : SerialLine.offer bytes b.line with ⟨outcome, line⟩
  rw [heq] at h
  cases h
  simp only [SerialLine.offer, heq]

/-- An offer to a busy line is kept as one that nothing was taken of. -/
theorem offer_of_busy (h : (SerialLine.offer bytes b.line).1 = .busy) :
    SerialLine.offer bytes b = (.busy, b.offered (SerialLine.offer bytes b.line).2 []) := by
  rcases heq : SerialLine.offer bytes b.line with ⟨outcome, line⟩
  rw [heq] at h
  cases h
  simp only [SerialLine.offer, heq]

end Line

section Sending

variable [SerialLine σ] [LawfulSerialLine σ]
  (hline : ∀ (bytes : List UInt8) (line : σ), (SerialLine.offer bytes line).1 ≠ .failed)

include hline

/-- Every offer gets rid of a byte or uses up patience, so there are never more offers than bytes and
    patience. -/
theorem sendUpTo_sent (n : Nat) (bytes : List UInt8) (b : Bench φ σ)
    (hn : bytes.length + SerialLine.offerPatience b.line ≤ n) :
    Sent bytes b (sendUpTo n bytes b) := by
  induction n generalizing bytes b with
  | zero =>
      obtain rfl : bytes = [] := List.length_eq_zero_iff.mp (by omega)
      exact Sent.nothing b
  | succ n ih =>
      cases bytes with
      | nil => exact Sent.nothing b
      | cons byte rest =>
          have hpatience := LawfulSerialLine.offerPatience_le (byte :: rest) b.line
          cases houtcome : (SerialLine.offer (byte :: rest) b.line).1 with
          | failed => exact absurd houtcome (hline _ _)
          | busy =>
              have hless := LawfulSerialLine.offerPatience_lt _ _ houtcome
              have hrest := ih (byte :: rest)
                (b.offered (SerialLine.offer (byte :: rest) b.line).2 [])
                (by simp only [offered]; omega)
              simp only [sendUpTo, offer_of_busy houtcome]
              exact hrest.offer
          | took count =>
              have hcount := LawfulSerialLine.took_pos _ _ _ (List.cons_ne_nil _ _) houtcome
              have hrest := ih ((byte :: rest).drop count)
                (b.offered (SerialLine.offer (byte :: rest) b.line).2 ((byte :: rest).take count))
                (by simp only [offered, List.length_drop, List.length_cons] at *; omega)
              have hsent := hrest.offer
              rw [List.take_append_drop] at hsent
              simp only [sendUpTo, offer_of_took houtcome]
              exact hsent

/-- All bytes are sent over a line that is not busy for ever and never fails, however few it takes
    at a time. -/
theorem sendAll_sent (bytes : List UInt8) (b : Bench φ σ) : Sent bytes b (sendAll bytes b) :=
  sendUpTo_sent hline _ bytes b (Nat.le_refl _)

end Sending

end Bench

/-! ## Lines with a schedule -/

/-- A line that says of every offer beforehand how many bytes it takes beyond the first, or that it
    is busy; once the schedule is through it takes what it is offered. -/
structure PacedLine where
  schedule : List (Option Nat)

/-- The line takes what its schedule says, and after it all that is offered. -/
instance : SerialLine PacedLine where
  offer bytes line :=
    match line.schedule with
    | [] => (.took bytes.length, line)
    | some more :: rest => (.took (min (more + 1) bytes.length), ⟨rest⟩)
    | none :: rest => (.busy, ⟨rest⟩)
  offerPatience line := line.schedule.length

namespace PacedLine

/-- A line with a schedule never refuses. -/
theorem offer_ne_failed (bytes : List UInt8) (line : PacedLine) :
    (SerialLine.offer bytes line).1 ≠ .failed := by
  rcases line with ⟨_ | ⟨_ | more, rest⟩⟩ <;> nofun

/-- Every offer that finds the line busy takes up a place of the schedule. -/
instance : LawfulSerialLine PacedLine where
  took_pos := by
    intro bytes line n hbytes htook
    have hlength := List.length_pos_iff.mpr hbytes
    rcases line with ⟨_ | ⟨_ | more, rest⟩⟩ <;> cases htook <;> omega
  offerPatience_lt := by
    intro bytes line hbusy
    rcases line with ⟨_ | ⟨_ | more, rest⟩⟩
    · exact nomatch hbusy
    · exact Nat.lt_succ_self _
    · exact nomatch hbusy
  offerPatience_le := by
    intro bytes line
    rcases line with ⟨_ | ⟨_ | more, rest⟩⟩
    · exact Nat.le_refl _
    · exact Nat.le_succ _
    · exact Nat.le_succ _

end PacedLine
end NorLoader
