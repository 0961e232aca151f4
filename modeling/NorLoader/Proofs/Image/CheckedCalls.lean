import NorLoader.Proofs.Flash.CheckedErases
import NorLoader.Proofs.Image.Stopping

/-!
# Calls with checked words

The calls of a loader once more, with every operation on a counter checked: the count of the bytes that
are handed to the device is made a word, it is taken off the bytes that remain, and the output of a read
is added to what is held.  Opening a job makes a plan, and writing uses it up, with the operations of
`Checked.ofSpan` and `Checked.after`.  Where one of them has no result there is none of the call.

Each call is shown to have the result that it has without checks, wherever the end of the plan fits a
word and the window is not overfull.  Both are kept by everything that a call does on the way, so the
checks pass within a call as well, for every erase of a write and every read of a piece.  The count that
a read takes off the announced bytes is not checked: it stops at zero, and is that of the bytes
taken for pieces of less than 4 GiB (`Unpacker.toNat_packedLeft_unpack`).
-/

namespace NorLoader

variable {δ : Type} [FlashDevice δ]

/-- A plan whose end fits a word has such an end for as long as its job lasts. -/
theorem Job.lastSector_upkeep : Upkeep (δ := δ) fun _ j _ => j.plan.lastSector < 2 ^ 32 where
  poll h := h
  issue := by
    intro w j d unit h hunit
    exact (ErasePlan.lastSector_after hunit h).trans_lt h
  deliver := by
    intro w j d v h _ _ _
    rw [(j.kept_deliver v d).1]
    exact h
  note := by
    intro w j d e h
    rw [plan_note]
    exact h

namespace Checked

/-! ## Jobs -/

/-- Opens a job.  The plan is made before the device is unlocked. -/
def start (size offset : UInt32) (d : δ) : Option (Except JobError Unit × Job × δ) := do
  let plan ← ofSpan offset size
  match FlashDevice.unlock d with
  | (.ok (), d) => return (.ok (), { active := true, cursor := offset, remaining := size, plan }, d)
  | (.error _, d) => return (.error .unlockFailed, .idle, d)

/-- Opening a job passes its checks. -/
theorem start_eq (size offset : UInt32) (d : δ) :
    start size offset d = some (Job.start size offset d) := by
  rcases hunlock : FlashDevice.unlock d with ⟨_ | _, unlocked⟩ <;>
    simp only [start, Job.start, ofSpan_eq, hunlock] <;> rfl

/-- The record once some bytes were handed to the device. -/
def past (j : Job) (count : UInt32) : Option Job := do
  let remaining ← sub? j.remaining count
  return { j with cursor := satAdd j.cursor count, remaining }

/-- The count passes if the job expects as many bytes. -/
theorem past_eq {j : Job} {count : UInt32} (h : count.toNat ≤ j.remaining.toNat) :
    past j count = some (j.past count) := by
  have hremaining : sub? j.remaining count = some (j.remaining - count) := by
    rw [sub?_eq_some_iff, UInt32.toNat_sub_of_le _ _ (UInt32.le_iff_toNat_le.mpr h)]
    exact Nat.sub_add_cancel h
  rw [past, hremaining]
  rfl

/-- Has some bytes programmed once the device is idle, and counts them. -/
def deliver (j : Job) (v : Delivery) (count : UInt32) (d : δ) : Option (Job × δ) :=
  match Job.programVia v.storage j.cursor v.bytes (FlashDevice.awaitIdle d) with
  | (.ok (), d) => (past j count).map (·, d)
  | (.error _, d) => (past (j.note .programFailed) count).map (·, d)

/-- A delivery passes if the job expects it. -/
theorem deliver_eq {j : Job} {v : Delivery} (hlen : v.bytes.length ≤ j.remaining.toNat) (d : δ) :
    deliver j v (UInt32.ofNat v.bytes.length) d = some (j.deliver v d) := by
  have hcount : (UInt32.ofNat v.bytes.length).toNat ≤ j.remaining.toNat := by
    rw [Job.toNat_ofNat_of_le_remaining hlen]
    exact hlen
  -- bytes count whether or not they were programmed
  have hnoted : (UInt32.ofNat v.bytes.length).toNat
      ≤ (j.note .programFailed).remaining.toNat := by
    rw [Job.remaining_note]
    exact hcount
  rcases hresult : Job.programVia v.storage j.cursor v.bytes (FlashDevice.awaitIdle d) with
    ⟨_ | _, programmed⟩
  · simp only [deliver, Job.deliver, hresult, past_eq hnoted, Option.map_some]
  · simp only [deliver, Job.deliver, hresult, past_eq hcount, Option.map_some]

/-- Writes the next bytes of the image, as many as the job takes. -/
def write (j : Job) (storage : Storage) (data : List UInt8) (d : δ) : Option (Job × δ) :=
  let bytes := j.accepted data
  if bytes = [] then some (j, d)
  else do
    let count ← word? bytes.length
    let (plan, d) ← coverThrough j.plan (sectorIndex (satAdd j.cursor count)) d
    deliver { j with plan } ⟨storage, bytes⟩ count d

/-- What is written is no more than what remains, and that is a word. -/
theorem write_eq {j : Job} (hend : j.plan.lastSector < 2 ^ 32) (storage : Storage)
    (data : List UInt8) (d : δ) : write j storage data d = some (j.write storage data d) := by
  have hle := j.length_accepted_le data
  have hcount : word? (j.accepted data).length = some (UInt32.ofNat (j.accepted data).length) :=
    word?_eq (hle.trans_lt j.remaining.toNat_lt)
  by_cases hnone : j.accepted data = []
  · simp only [write, if_pos hnone, Job.write_of_accepted_nil j storage data d hnone]
  · simp only [write, if_neg hnone, hcount, coverThrough_eq hend, Option.bind_eq_bind,
      Option.bind_some, Job.write_of_accepted_ne j storage data d hnone]
    exact deliver_eq hle _

/-- Issues the next erase of a job if the device is idle; tells whether it did. -/
def eraseAhead (j : Job) (d : δ) : Option (Bool × Job × δ) := do
  let (issued, plan, d) ← issueIfIdle j.plan d
  return (issued, { j with plan }, d)

/-- Erasing ahead passes. -/
theorem eraseAhead_eq {j : Job} (hend : j.plan.lastSector < 2 ^ 32) (d : δ) :
    eraseAhead j d = some (j.eraseAhead d) := by
  rw [eraseAhead, issueIfIdle_eq hend]
  rfl

/-! ## Reading a piece -/

variable [Platform]

omit [FlashDevice δ] in
/-- Reads once from a piece, and adds what that puts out to what is held.  The sum is to be a size of
    the platform. -/
def readOnce (u : Unpacker) (piece : List UInt8) : Option (ReadStatus × Nat × Unpacker) := do
  let (status, consumed, read) := u.readOnce piece
  let produced := read.held - u.held
  let held ← size? (u.held + produced)
  return (status, consumed, { read with held })

omit [FlashDevice δ] in
/-- A read puts out no more than the window has room for. -/
theorem readOnce_eq {u : Unpacker} (hheld : u.held ≤ windowSize) (piece : List UInt8) :
    readOnce u piece = some (u.readOnce piece) := by
  have hfrom : u.held ≤ (u.readOnce piece).2.2.held := (u.reader.take_read ..).1
  have hroom := (Unpacker.readOnce_goesOn hheld piece).1
  have hsize : size? (u.readOnce piece).2.2.held = some (u.readOnce piece).2.2.held :=
    size?_eq (Nat.lt_of_le_of_lt hroom (by decide))
  simp only [readOnce, Nat.add_sub_cancel' hfrom, hsize, Option.bind_eq_bind, Option.bind_some]
  rfl

/-- Hands the start of the window to the job. -/
def handOver (k : Unpacking δ) : Option (Unpacking δ) := do
  let excess := k.excess || k.unpacker.held > k.job.remaining.toNat
  let (job, device) ← write k.job .plain k.unpacker.output k.device
  return { k with unpacker := { k.unpacker with held := 0 }, job, device, excess }

omit [Platform] in
/-- Handing over passes. -/
theorem handOver_eq {k : Unpacking δ} (hend : k.job.plan.lastSector < 2 ^ 32) :
    handOver k = some k.handOver := by
  simp only [handOver, write_eq hend, Option.bind_eq_bind, Option.bind_some]
  rfl

/-- Lets the job erase ahead, reads once, and hands the output over if the window is full or
    the stream can go no further. -/
def cycle (k : Unpacking δ) : Option (Unpacking δ) := do
  let (_, job, device) ← eraseAhead k.job k.device
  let (status, consumed, unpacker) ← readOnce k.unpacker k.rest
  let unpacker := if consumed > 0 then { unpacker with phase := .reading } else unpacker
  let k := { k with unpacker, job, device, rest := k.rest.drop consumed, status }
  if k.handsOver then handOver k else some k

/-- A cycle passes if no more is held than a window. -/
theorem cycle_eq {k : Unpacking δ} (hend : k.job.plan.lastSector < 2 ^ 32)
    (hheld : k.unpacker.held ≤ windowSize) : cycle k = some k.cycle := by
  have hahead : k.afterRead.job.plan.lastSector < 2 ^ 32 :=
    Job.lastSector_upkeep.eraseAhead (w := []) (d := k.device) hend
  have hread : cycle k
      = if k.afterRead.handsOver then handOver k.afterRead else some k.afterRead := by
    simp only [cycle, eraseAhead_eq hend, readOnce_eq hheld, Option.bind_eq_bind, Option.bind_some]
    rfl
  rw [hread, Unpacking.cycle_eq, handOver_eq hahead]
  exact (apply_ite some _ _ _).symm

/-- Goes through cycles while there is work and the image is incomplete, at most `n` times. -/
def cycleUpTo : Nat → Unpacking δ → Option (Unpacking δ)
  | 0, k => some k
  | n + 1, k =>
      if k.canGoOn && k.job.remaining > 0 then (cycle k).bind (cycleUpTo n) else some k

/-- So do any number of cycles. -/
theorem cycleUpTo_eq (n : Nat) {k : Unpacking δ} (hend : k.job.plan.lastSector < 2 ^ 32)
    (hheld : k.unpacker.held ≤ windowSize) : cycleUpTo n k = some (k.cycleUpTo n) := by
  induction n generalizing k with
  | zero => rfl
  | succ n ih =>
      rw [cycleUpTo, Unpacking.cycleUpTo]
      split
      · obtain ⟨_, -, hnext⟩ := Job.lastSector_upkeep.cycle (w := []) (k := k) hend
        rw [cycle_eq hend hheld, Option.bind_some]
        exact ih hnext (Nat.le_of_lt (Unpacking.held_cycle_lt hheld))
      · rfl

omit [FlashDevice δ] in
/-- Reads on after the image is complete. -/
def readTrailing (k : Unpacking δ) : Option (Unpacking δ) :=
  if k.canGoOn && k.job.remaining = 0 then do
    let (status, consumed, unpacker) ← readOnce k.unpacker k.rest
    let after := { k with unpacker, rest := k.rest.drop consumed, status }
    return if unpacker.held > k.unpacker.held then
        { after with unpacker := { unpacker with held := 0 }, excess := true }
      else after
  else some k

omit [FlashDevice δ] in
/-- Reading on after the image passes. -/
theorem readTrailing_eq {k : Unpacking δ} (hheld : k.unpacker.held ≤ windowSize) :
    readTrailing k = some k.readTrailing := by
  rw [readTrailing, Unpacking.readTrailing]
  split
  · simp only [readOnce_eq hheld, Option.bind_eq_bind, Option.bind_some]
    rfl
  · rfl

/-- Unpacks a piece of the stream into the job. -/
def unpack (u : Unpacker) (j : Job) (piece : List UInt8) (d : δ) : Option (Unpacker × Job × δ) :=
  if u.phase = .complete then some (u, if piece.isEmpty then j else j.note .excessData, d)
  else do
    let reads := j.remaining.toNat / windowSize + 2
    let k ← cycleUpTo reads ⟨u, j, d, piece, .needsInput, false⟩
    let k ← readTrailing k
    return k.settle

/-- A piece passes if there is room in the window. -/
theorem unpack_eq {u : Unpacker} {j : Job} (hend : j.plan.lastSector < 2 ^ 32)
    (hheld : u.held < windowSize) (piece : List UInt8) (d : δ) :
    unpack u j piece d = some (u.unpack j piece d) := by
  by_cases hcomplete : u.phase = .complete
  · rw [unpack, if_pos hcomplete, Unpacker.unpack, if_pos hcomplete]
  · have hroom := (Unpacker.cycles_stop hheld j piece d).1
    have hcycles := cycleUpTo_eq (j.remaining.toNat / windowSize + 2)
      (k := ⟨u, j, d, piece, .needsInput, false⟩) hend (Nat.le_of_lt hheld)
    rw [unpack, if_neg hcomplete, Unpacker.unpack, if_neg hcomplete]
    simp only [hcycles, readTrailing_eq (Nat.le_of_lt hroom), Option.bind_eq_bind, Option.bind_some]
    rfl

/-! ## Loaders -/

/-- A call, with its counts checked. -/
def call (l : Loader δ) : LoaderCall → Option (Loader δ)
  | .start size offset => do
      let (_, job, device) ← start size offset l.device
      return ⟨device, job, l.unpacker.restart 0⟩
  | .startPacked size packedSize offset => do
      let (_, job, device) ← start size offset l.device
      return ⟨device, job, l.unpacker.restart packedSize⟩
  | .write storage data => do
      let (job, device) ← write l.job storage data l.device
      return { l with job, device }
  | .unpack piece => do
      let (unpacker, job, device) ← unpack l.unpacker l.job piece l.device
      return ⟨device, job, unpacker⟩
  | .eraseAhead => do
      let (_, job, device) ← eraseAhead l.job l.device
      return { l with job, device }
  | .finish => some l.finish.2

/-- Some calls, one after the other. -/
def calls (l : Loader δ) (cs : List LoaderCall) : Option (Loader δ) := cs.foldlM call l

/-- Every call passes. -/
theorem call_eq {l : Loader δ} (hend : l.job.plan.lastSector < 2 ^ 32)
    (hheld : l.unpacker.held < windowSize) (c : LoaderCall) : call l c = some (l.call c) := by
  cases c with
  | start => rw [call, start_eq]; rfl
  | startPacked => rw [call, start_eq]; rfl
  | write => rw [call, write_eq hend]; rfl
  | unpack => rw [call, unpack_eq hend hheld]; rfl
  | eraseAhead => rw [call, eraseAhead_eq hend]; rfl
  | finish => rfl

end Checked
end NorLoader
