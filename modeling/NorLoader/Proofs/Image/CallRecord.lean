import NorLoader.Proofs.Flash.Tiles
import NorLoader.Proofs.Image.ClosedJob
import NorLoader.Proofs.Image.DeviceMap

/-!
# What a job does to its device

A device may write down what is done to it (`CallLog`), as the simulated device does; any device can
be made to (`Recorder`), and does the same then as without (`Loader.map_recorded`).  From such a record
it can be told how far a job is: the erases are the first of those that the span calls for and the
plan holds the others, and the programs are one for each delivery, each where the last one ended
(`Job.Chart`).  No call changes that, and it does not depend on what the device answers.
-/

namespace NorLoader

/-! ## Erases and programs -/

/-- The erases among some calls. -/
def erasesOf (calls : List DeviceCall) : List (UInt32 × EraseSize) :=
  calls.filterMap fun
    | .erase addr size => some (addr, size)
    | _ => none

/-- Where a call programs, and which bytes. -/
def DeviceCall.programmed? : DeviceCall → Option (UInt32 × List UInt8)
  | program addr data => some (addr, data)
  | encryptAndProgram addr data => some (addr, data)
  | _ => none

/-- The programs among some calls, through the encryption unit or not. -/
def programsOf (calls : List DeviceCall) : List (UInt32 × List UInt8) :=
  calls.filterMap DeviceCall.programmed?

/-- Erases come in the order of their calls. -/
theorem erasesOf_append (calls calls' : List DeviceCall) :
    erasesOf (calls ++ calls') = erasesOf calls ++ erasesOf calls' :=
  List.filterMap_append

/-- So do programs. -/
theorem programsOf_append (calls calls' : List DeviceCall) :
    programsOf (calls ++ calls') = programsOf calls ++ programsOf calls' :=
  List.filterMap_append

/-- The erase that is sent for a tile.  For a sector beyond the last address it is sent there. -/
def eraseCommand (tile : Nat × EraseSize) : UInt32 × EraseSize :=
  (clampWord (tile.1 * sectorSize), tile.2)

/-- The erases that a span calls for. -/
def spanErases (offset size : UInt32) : List (UInt32 × EraseSize) :=
  (tiles (offset.toNat / sectorSize) (endSector offset.toNat size.toNat)).map eraseCommand

/-- The programs of some deliveries, each where the one before it ended. -/
theorem programsOf_placements_cons (addr : Nat) (v : Delivery) (w : List Delivery) :
    programsOf (placements addr (v :: w))
      = (clampWord addr, v.bytes) :: programsOf (placements (addr + v.bytes.length) w) := by
  obtain ⟨storage, bytes⟩ := v
  cases storage <;> rfl

namespace ErasePlan

/-- The erases that a plan still has to send. -/
def commands (p : ErasePlan) : List (UInt32 × EraseSize) := p.tiles.map eraseCommand

/-- The plan of a span has the erases of the span. -/
theorem commands_ofSpan (offset size : UInt32) :
    (ofSpan offset size).commands = spanErases offset size := by
  have hfirst : (ofSpan offset size).first.toNat = offset.toNat / sectorSize :=
    toNat_sectorIndex offset
  rw [commands, tiles, hfirst, lastSector_ofSpan]
  rfl

/-- An erase takes its command off the plan. -/
theorem commands_of_next {p : ErasePlan} {size : EraseSize} (h : p.nextSize = some size)
    (hend : p.lastSector < 2 ^ 32) :
    p.commands = (p.nextAddress, size) :: (p.after size).commands := by
  rw [commands, tiles_of_next h hend]
  rfl

end ErasePlan

/-! ## Devices with a record -/

section Logs

variable {δ : Type} [FlashDevice δ]

/-- `log` is a record that a device keeps of its calls.  Polls are not written down. -/
structure CallLog (log : δ → List DeviceCall) : Prop where
  poll : ∀ d, log (FlashDevice.poll d).2 = log d
  enableWrite : ∀ d, log (FlashDevice.enableWrite d) = log d ++ [.enableWrite]
  erase : ∀ addr size d, log (FlashDevice.erase addr size d) = log d ++ [.erase addr size]
  program : ∀ addr data d,
    log (FlashDevice.program addr data d).2 = log d ++ [.program addr data]
  encryptAndProgram : ∀ addr data d,
    log (FlashDevice.encryptAndProgram addr data d).2 = log d ++ [.encryptAndProgram addr data]
  setEncryptionLatch : ∀ on d,
    log (FlashDevice.setEncryptionLatch on d) = log d ++ [.setEncryptionLatch on]

namespace CallLog

variable {log : δ → List DeviceCall} (h : CallLog log)

include h

/-- A wait is not logged. -/
theorem awaitIdle (d : δ) : log (FlashDevice.awaitIdle d) = log d := by
  have loop : ∀ (n : Nat) (d : δ), log (pollUntilIdle FlashDevice.poll n d) = log d := by
    intro n
    induction n with
    | zero => intro d; exact h.poll d
    | succ n ih =>
        intro d
        simp only [pollUntilIdle]
        split
        · exact h.poll d
        · rw [ih, h.poll]
  exact loop _ d

/-- An erase is logged behind its write enable. -/
theorem issue (p : ErasePlan) (size : EraseSize) (d : δ) :
    log (p.issue size d).2 = log d ++ [.enableWrite, .erase p.nextAddress size] := by
  show log (FlashDevice.erase p.nextAddress size (FlashDevice.enableWrite d)) = _
  rw [h.erase, h.enableWrite, List.append_assoc]
  rfl

/-- A program is logged with all that it takes. -/
theorem programVia (storage : Storage) (addr : UInt32) (data : List UInt8) (d : δ) :
    log (Job.programVia storage addr data d).2
      = log d ++ Simulator.programCalls storage addr data := by
  cases storage with
  | plain => exact h.program addr data d
  | encrypted =>
      simp only [Job.programVia, h.setEncryptionLatch, h.encryptAndProgram, List.append_assoc]
      rfl

/-- So is a delivery. -/
theorem deliver (j : Job) (v : Delivery) (d : δ) :
    log (j.deliver v d).2 = log d ++ Simulator.programCalls v.storage j.cursor v.bytes := by
  rw [j.device_deliver v d, h.programVia, h.awaitIdle]

end CallLog
end Logs

/-- A program erases nothing. -/
theorem erasesOf_programCalls (storage : Storage) (addr : UInt32) (data : List UInt8) :
    erasesOf (Simulator.programCalls storage addr data) = [] := by
  cases storage <;> rfl

/-- A program is one, in whatever way. -/
theorem programsOf_programCalls (storage : Storage) (addr : UInt32) (data : List UInt8) :
    programsOf (Simulator.programCalls storage addr data) = [(addr, data)] := by
  cases storage <;> rfl

/-- Programming cells is no further call. -/
theorem Simulator.calls_programWith {capacity : Nat} (encrypted : Bool) (addr : UInt32)
    (data : List UInt8) (s : Simulator capacity) :
    (s.programWith encrypted addr data).2.calls = s.calls := by
  simp only [programWith]
  split
  · split <;> rfl
  · rfl

/-- The log of a simulator is a log of the calls. -/
theorem Simulator.callLog {capacity : Nat} :
    CallLog fun s : Simulator capacity => s.calls.toList where
  poll s := by
    show s.poll.2.calls.toList = _
    rw [Simulator.poll_snd]
  enableWrite s := by
    show s.enableWrite.calls.toList = _
    rw [Simulator.enableWrite_eq]
    exact Array.toList_push
  erase addr size s := by
    show (Simulator.erase addr size s).calls.toList = _
    rw [Simulator.calls_erase]
    exact Array.toList_push
  program addr data s := by
    have hcalls := Simulator.calls_programWith false addr data (s.record (.program addr data))
    show (s.program addr data).2.calls.toList = _
    rw [Simulator.program, hcalls]
    exact Array.toList_push
  encryptAndProgram addr data s := by
    show (s.encryptAndProgram addr data).2.calls.toList = _
    simp only [Simulator.encryptAndProgram]
    split
    · rw [Simulator.calls_programWith]
      exact Array.toList_push
    · exact Array.toList_push
  setEncryptionLatch on s := Array.toList_push

/-! ## Recorders -/

/-- A device with a record of what is done to it, and of the answers. -/
structure Recorder (δ : Type) where
  device : δ
  polls : Nat := 0
  entries : List (DeviceCall × Except DeviceFault Unit) := []

namespace Recorder

variable {δ : Type}

/-- Keeps a call and its outcome. -/
def enter (r : Recorder δ) (call : DeviceCall) (result : Except DeviceFault Unit) (device : δ) :
    Recorder δ :=
  { r with device := device, entries := r.entries ++ [(call, result)] }

/-- The calls so far. -/
def calls (r : Recorder δ) : List DeviceCall := r.entries.map Prod.fst

/-- A call is kept behind the others. -/
theorem calls_enter (r : Recorder δ) (call : DeviceCall) (result : Except DeviceFault Unit)
    (device : δ) : (r.enter call result device).calls = r.calls ++ [call] :=
  List.map_append

/-- Whether a program was answered with a fault. -/
def faulted (r : Recorder δ) : Bool :=
  r.entries.any fun e => e.1.isProgram && !e.2.isOk

/-- A recorder does what its device does and keeps each call with its outcome. -/
instance [FlashDevice δ] : FlashDevice (Recorder δ) where
  poll r :=
    ((FlashDevice.poll r.device).1,
      { r with device := (FlashDevice.poll r.device).2, polls := r.polls + 1 })
  patience r := FlashDevice.patience r.device
  enableWrite r := r.enter .enableWrite (.ok ()) (FlashDevice.enableWrite r.device)
  erase addr size r :=
    r.enter (.erase addr size) (.ok ()) (FlashDevice.erase addr size r.device)
  program addr data r :=
    ((FlashDevice.program addr data r.device).1,
      r.enter (.program addr data) (FlashDevice.program addr data r.device).1
        (FlashDevice.program addr data r.device).2)
  encryptAndProgram addr data r :=
    ((FlashDevice.encryptAndProgram addr data r.device).1,
      r.enter (.encryptAndProgram addr data) (FlashDevice.encryptAndProgram addr data r.device).1
        (FlashDevice.encryptAndProgram addr data r.device).2)
  setEncryptionLatch on r :=
    r.enter (.setEncryptionLatch on) (.ok ()) (FlashDevice.setEncryptionLatch on r.device)
  unlock r :=
    ((FlashDevice.unlock r.device).1,
      r.enter .unlock (FlashDevice.unlock r.device).1 (FlashDevice.unlock r.device).2)

variable [FlashDevice δ]

/-- The device does the same without the recorder. -/
theorem device_map : DeviceMap (device : Recorder δ → δ) where
  poll _ := rfl
  patience _ := rfl
  enableWrite _ := rfl
  erase _ _ _ := rfl
  program _ _ _ := rfl
  encryptAndProgram _ _ _ := rfl
  setEncryptionLatch _ _ := rfl
  unlock _ := rfl

/-- What a recorder keeps is a log of the calls. -/
theorem callLog : CallLog (calls : Recorder δ → List DeviceCall) where
  poll _ := rfl
  enableWrite r := r.calls_enter ..
  erase _ _ r := r.calls_enter ..
  program _ _ r := r.calls_enter ..
  encryptAndProgram _ _ r := r.calls_enter ..
  setEncryptionLatch _ r := r.calls_enter ..

end Recorder

/-! ## Loaders -/

namespace Loader

variable {δ φ ρ : Type} [StreamReader ρ]

/-- A loader whose device keeps a record from now on. -/
def recorded (l : Loader δ ρ) : Loader (Recorder δ) ρ :=
  ⟨{ device := l.device }, l.job, l.unpacker⟩

variable [FlashDevice δ] [FlashDevice φ]

/-- Opens a job, for a compressed image if the size of the stream is given. -/
def openJob (l : Loader δ ρ) (packed : Option UInt32) (size offset : UInt32) :
    Except JobError Unit × Loader δ ρ :=
  match packed with
  | none => l.start size offset
  | some packedSize => l.startPacked size packedSize offset

/-- What an opening that succeeds leaves behind. -/
theorem openJob_ok {l : Loader δ ρ} {packed : Option UInt32} {size offset : UInt32}
    (h : (l.openJob packed size offset).1 = .ok ()) :
    (l.openJob packed size offset).2
      = ⟨(FlashDevice.unlock l.device).2, .fresh size offset,
          l.unpacker.restart (packed.getD 0)⟩ := by
  rcases hunlock : FlashDevice.unlock l.device with ⟨_ | _, d⟩ <;> cases packed <;>
    simp only [openJob, start, startPacked, Job.start, hunlock] at h ⊢
  · cases h
  · cases h
  · rfl
  · rfl

/-- A call does the same to a device that is part of another. -/
theorem map_call {π : δ → φ} (h : DeviceMap π) (l : Loader δ ρ) (c : LoaderCall) :
    (l.map π).call c = (l.call c).map π := by
  cases c with
  | start size offset => simp only [call, map, start, h.start]
  | startPacked size packedSize offset => simp only [call, map, startPacked, h.start]
  | write storage data => simp only [call, map, write, h.write]
  | unpack piece => simp only [call, map, unpack, h.unpack l.unpacker]
  | eraseAhead => simp only [call, map, eraseAhead, h.eraseAhead]
  | finish => rfl

/-- So do some calls. -/
theorem map_calls {π : δ → φ} (h : DeviceMap π) (l : Loader δ ρ) (cs : List LoaderCall) :
    (l.map π).calls cs = (l.calls cs).map π := by
  induction cs generalizing l with
  | nil => rfl
  | cons c cs ih =>
      show ((l.map π).call c).calls cs = _
      rw [map_call h]
      exact ih (l.call c)

/-- A record changes nothing of what is done. -/
theorem map_recorded (l : Loader δ ρ) (cs : List LoaderCall) :
    (l.recorded.calls cs).map Recorder.device = l.calls cs :=
  (map_calls Recorder.device_map l.recorded cs).symm

end Loader

/-! ## Jobs -/

namespace Job

/-- How far a job is, as it shows from the calls that its device got. -/
structure Chart (offset size : UInt32) (calls : List DeviceCall) (w : List Delivery) (j : Job) :
    Prop extends Spans offset size (delivered w) j where
  /-- The erases so far and those of the plan are the ones that the span calls for. -/
  erases : erasesOf calls ++ j.plan.commands = spanErases offset size
  programs : programsOf calls = programsOf (placements offset.toNat w)
  nonempty : ∀ v ∈ w, v.bytes ≠ []

/-- A job that was just opened has nothing on its chart. -/
theorem chart_fresh (offset size : UInt32) : (fresh size offset).Chart offset size [] [] where
  toSpans := spans_fresh offset size
  erases := ErasePlan.commands_ofSpan offset size
  programs := rfl
  nonempty := nofun

namespace Chart

variable {offset size : UInt32} {calls : List DeviceCall} {w : List Delivery} {j : Job}

/-- The cursor is behind the deliveries, unless addresses end before. -/
theorem cursor_eq (h : j.Chart offset size calls w) :
    j.cursor = clampWord (offset.toNat + delivered w) := by
  refine UInt32.toNat_inj.mp ?_
  rw [toNat_clampWord]
  exact h.cursor

/-- An error is not on the chart. -/
theorem note (h : j.Chart offset size calls w) (e : JobError) :
    (j.note e).Chart offset size calls w where
  toSpans := h.toSpans.note e
  erases := by rw [plan_note]; exact h.erases
  programs := h.programs
  nonempty := h.nonempty

/-- An erase moves from the plan to the record. -/
theorem issue (h : j.Chart offset size calls w) {unit : EraseSize}
    (hunit : j.plan.nextSize = some unit) :
    Chart offset size (calls ++ [.enableWrite, .erase j.plan.nextAddress unit]) w
      { j with plan := j.plan.after unit } where
  toSpans := h.toSpans.after hunit
  erases := by
    rw [← h.erases, ErasePlan.commands_of_next hunit h.lastSector_lt, erasesOf_append,
      List.append_assoc]
    rfl
  programs := by
    rw [programsOf_append, h.programs]
    exact List.append_nil _
  nonempty := h.nonempty

/-- A delivery puts its programs on the chart. -/
theorem deliver {δ : Type} [FlashDevice δ] (h : j.Chart offset size calls w) {v : Delivery} (d : δ)
    (hne : v.bytes ≠ []) (hlen : v.bytes.length ≤ j.remaining.toNat) :
    (j.deliver v d).1.Chart offset size
      (calls ++ Simulator.programCalls v.storage j.cursor v.bytes) (w ++ [v]) where
  toSpans := by
    rw [delivered_concat]
    exact h.toSpans.deliver v d hlen
  erases := by
    rw [(j.kept_deliver v d).1, erasesOf_append, erasesOf_programCalls, List.append_nil]
    exact h.erases
  programs := by
    rw [programsOf_append, programsOf_programCalls, h.programs, placements_append,
      programsOf_append, programsOf_placements_cons, h.cursor_eq]
    rfl
  nonempty := by
    intro u hu
    rcases List.mem_append.mp hu with hold | hnew
    · exact h.nonempty u hold
    · rw [List.mem_singleton.mp hnew]
      exact hne

/-- Closing a job is not on the chart. -/
theorem finish (h : j.Chart offset size calls w) : j.finish.2.Chart offset size calls w := by
  simp only [Job.finish]
  split
  · exact h
  · split
    · exact h
    · exact { h with }

end Chart

/-- A job whose calls came after some earlier ones. -/
def Charted {δ : Type} (log : δ → List DeviceCall) (earlier : List DeviceCall)
    (offset size : UInt32) (w : List Delivery) (j : Job) (d : δ) : Prop :=
  ∃ calls, log d = earlier ++ calls ∧ j.Chart offset size calls w

variable {δ : Type} [FlashDevice δ]

/-- All that a job does is on its chart. -/
theorem charted_upkeep {log : δ → List DeviceCall} (hlog : CallLog log)
    (earlier : List DeviceCall) (offset size : UInt32) :
    Upkeep (Charted log earlier offset size) where
  poll := by
    rintro w j d ⟨calls, hcalls, hchart⟩
    exact ⟨calls, (hlog.poll d).trans hcalls, hchart⟩
  issue := by
    rintro w j d unit ⟨calls, hcalls, hchart⟩ hunit
    refine ⟨calls ++ [.enableWrite, .erase j.plan.nextAddress unit], ?_, hchart.issue hunit⟩
    rw [hlog.issue, hcalls, List.append_assoc]
  deliver := by
    rintro w j d v ⟨calls, hcalls, hchart⟩ hne hlen -
    refine ⟨calls ++ Simulator.programCalls v.storage j.cursor v.bytes, ?_,
      hchart.deliver d hne hlen⟩
    rw [hlog.deliver, hcalls, List.append_assoc]
  note := by
    rintro w j d e ⟨calls, hcalls, hchart⟩
    exact ⟨calls, hcalls, hchart.note e⟩

end Job

namespace Loader

variable {δ : Type} [FlashDevice δ]

/-- From the opening on, the record of the device tells how far the job is. -/
theorem charted_calls {log : δ → List DeviceCall} (hlog : CallLog log) {l : Loader δ}
    {size offset : UInt32} (hfresh : l.job = .fresh size offset) {cs : List LoaderCall}
    (hcs : ∀ c ∈ cs, c.span? = none) :
    ∃ w calls, log (l.calls cs).device = log l.device ++ calls ∧
      (l.calls cs).job.Chart offset size calls w := by
  have hstart : l.job.Charted log (log l.device) offset size [] l.device := by
    rw [hfresh]
    exact ⟨[], (List.append_nil _).symm, Job.chart_fresh offset size⟩
  obtain ⟨w, hcharted⟩ := calls_upkeep (Job.charted_upkeep hlog _ offset size)
    (fun ⟨calls, hcalls, hchart⟩ => ⟨calls, hcalls, hchart.finish⟩) hstart hcs
  exact ⟨w, hcharted⟩

end Loader
end NorLoader
