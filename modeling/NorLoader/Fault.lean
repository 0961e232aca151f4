/-!
# Faults

`DeviceFault` is what a flash primitive reports.  `JobError` is what the host is told: the
outcome of opening or closing a job, or an error kept from the data phase.
-/

namespace NorLoader

/-- Why a flash primitive failed. -/
inductive DeviceFault where
  /-- The chip rejected or did not complete the operation. -/
  | refused
  /-- Protection bits were still set after the status register was written. -/
  | stillLocked
  /-- The address range lies outside the device. -/
  | outside
  | unavailable
  deriving DecidableEq, Repr

/-- Why a job did not succeed. -/
inductive JobError where
  /-- A program primitive reported a fault. -/
  | programFailed
  /-- The protection bits could not be cleared when the job was opened. -/
  | unlockFailed
  | noJob
  | corruptStream
  /-- Fewer bytes were written than the job declared. -/
  | shortData
  /-- More bytes arrived than the job declared. -/
  | excessData
  deriving DecidableEq, Repr

namespace JobError

/-- The byte that stands for an error on the wire. -/
def code : JobError → UInt8
  | programFailed => 0xC4
  | unlockFailed => 0xC5
  | noJob => 0xC6
  | corruptStream => 0xC7
  | shortData => 0xC8
  | excessData => 0xC9

/-- The error of a status byte.  Zero, which means success, and unknown bytes have none. -/
def ofCode? (c : UInt8) : Option JobError :=
  if c = 0xC4 then some programFailed
  else if c = 0xC5 then some unlockFailed
  else if c = 0xC6 then some noJob
  else if c = 0xC7 then some corruptStream
  else if c = 0xC8 then some shortData
  else if c = 0xC9 then some excessData
  else none

/-- Every error has a byte of its own. -/
@[simp] theorem ofCode?_code (e : JobError) : ofCode? e.code = some e := by
  cases e <;> rfl

end JobError

/-- Outcomes can be compared where their parts can. -/
instance decEqExcept {ε α : Type} [DecidableEq ε] [DecidableEq α] : DecidableEq (Except ε α)
  | .ok a, .ok b => decidable_of_iff (a = b) ⟨congrArg _, Except.ok.inj⟩
  | .error a, .error b => decidable_of_iff (a = b) ⟨congrArg _, Except.error.inj⟩
  | .ok _, .error _ => isFalse nofun
  | .error _, .ok _ => isFalse nofun

/-- The status byte of an outcome: zero for success. -/
def statusByte : Except JobError Unit → UInt8
  | .ok () => 0
  | .error e => e.code

end NorLoader
