import NorLoader.Proofs.Image.CallRecord

/-!
# What is counted as written

The bytes that a job still takes and the place of the next one depend on the data that it was given
and on nothing else: not on what the device answers, nor on how long it takes.  A byte that was handed
to the device counts, and is never handed over again, whether or not it was programmed.  That is
followed here along the record of the device (`Accounted`): the bytes in the record are the first
bytes of the data, and the job keeps an error as soon as the record has a program that failed.
-/

namespace NorLoader

namespace LoaderCall

/-- The data that a call gives to the job as it is. -/
def written : LoaderCall → List UInt8
  | write _ data => data
  | _ => []

/-- A call that writes or erases ahead. -/
def isDirect : LoaderCall → Bool
  | write .. => true
  | eraseAhead => true
  | _ => false

end LoaderCall

/-- Programs that follow each other without a gap from an address on, and none of them empty. -/
def Contiguous : Nat → List (UInt32 × List UInt8) → Prop
  | _, [] => True
  | start, (addr, bytes) :: rest =>
      addr.toNat = start ∧ bytes ≠ [] ∧ Contiguous (start + bytes.length) rest

/-- Deliveries one behind the other make programs one behind the other, as long as there are
    addresses. -/
theorem contiguous_placements {addr : Nat} {w : List Delivery} (hne : ∀ v ∈ w, v.bytes ≠ [])
    (hin : addr + delivered w ≤ 2 ^ 32) : Contiguous addr (programsOf (placements addr w)) := by
  induction w generalizing addr with
  | nil => exact trivial
  | cons v w ih =>
      obtain ⟨hv, hw⟩ := List.forall_mem_cons.mp hne
      have hsum : delivered (v :: w) = v.bytes.length + delivered w := rfl
      have hpos := List.length_pos_iff.mpr hv
      rw [programsOf_placements_cons]
      refine ⟨?_, hv, ih hw (by omega)⟩
      rw [toNat_clampWord]
      omega

/-- The programs carry the bytes of the deliveries. -/
theorem bytes_placements (addr : Nat) (w : List Delivery) :
    (programsOf (placements addr w)).flatMap Prod.snd = sent w := by
  induction w generalizing addr with
  | nil => rfl
  | cons v w ih =>
      rw [programsOf_placements_cons, List.flatMap_cons, ih]
      rfl

/-! ## Errors in the record -/

namespace Recorder

variable {δ : Type}

/-- A failed call is remembered if it is a program. -/
theorem faulted_enter (r : Recorder δ) (call : DeviceCall) (result : Except DeviceFault Unit)
    (device : δ) :
    (r.enter call result device).faulted = (r.faulted || call.isProgram && !result.isOk) := by
  simp [faulted, enter]

variable [FlashDevice δ]

/-- An erase does not fail. -/
theorem faulted_issue (p : ErasePlan) (size : EraseSize) (r : Recorder δ) :
    (p.issue size r).2.faulted = r.faulted := by
  show ((r.enter .enableWrite (.ok ()) _).enter (.erase p.nextAddress size) (.ok ()) _).faulted = _
  simp only [faulted_enter, DeviceCall.isProgram, Bool.false_and, Bool.or_false]

/-- Erasing adds no failed program to the record. -/
theorem faulted_kept (b : Bool) : Job.ErasingKeeps fun r : Recorder δ => r.faulted = b where
  poll h := h
  issue p size h := (faulted_issue p size _).trans h

/-- A program fails if its call does. -/
theorem faulted_programVia (storage : Storage) (addr : UInt32) (data : List UInt8)
    (r : Recorder δ) : (Job.programVia storage addr data r).2.faulted
      = (r.faulted || !(Job.programVia storage addr data r).1.isOk) := by
  cases storage with
  | plain => exact r.faulted_enter ..
  | encrypted =>
      -- the latch is set before the program and reset after it
      let latched : Recorder δ := FlashDevice.setEncryptionLatch true r
      let encrypted := FlashDevice.encryptAndProgram addr data latched
      show (encrypted.2.enter (.setEncryptionLatch false) (.ok ()) _).faulted
        = (r.faulted || !encrypted.1.isOk)
      have hlatched : latched.faulted = r.faulted := by
        show (r.enter (.setEncryptionLatch true) (.ok ()) _).faulted = _
        rw [faulted_enter]
        exact Bool.or_false _
      have hencrypted : encrypted.2.faulted = (latched.faulted || !encrypted.1.isOk) :=
        latched.faulted_enter ..
      rw [faulted_enter, hencrypted, hlatched]
      exact Bool.or_false _

end Recorder

namespace Job

variable {δ : Type} [FlashDevice δ]

/-- The error that a job keeps is that of the programs in the record. -/
def Heard (j : Job) (r : Recorder δ) : Prop :=
  j.error = if r.faulted then some .programFailed else none

/-- A job that fails a delivery keeps an error. -/
theorem Heard.deliver {j : Job} {r : Recorder δ} (h : j.Heard r) (v : Delivery) :
    (j.deliver v r).1.Heard (j.deliver v r).2 := by
  have hidle : (FlashDevice.awaitIdle r).faulted = r.faulted :=
    (Recorder.faulted_kept r.faulted).upkeep.awaitIdle (w := []) (j := j) (fun _ => rfl) rfl
  have hprogram := Recorder.faulted_programVia v.storage j.cursor v.bytes (FlashDevice.awaitIdle r)
  rw [hidle] at hprogram
  rcases hv : programVia v.storage j.cursor v.bytes (FlashDevice.awaitIdle r) with
    ⟨fault | _, r'⟩
  · -- a fault is kept, unless there is one already
    rw [hv] at hprogram
    simp only [Job.deliver, hv, Heard] at h ⊢
    rw [show r'.faulted = true by rw [hprogram]; exact Bool.or_true _, if_pos rfl]
    show (j.note .programFailed).error = _
    cases hfaulted : r.faulted with
    | true => simp only [hfaulted, if_true] at h; simp only [note, h]
    | false => simp only [hfaulted, Bool.false_eq_true, if_false] at h; simp only [note, h]
  · rw [hv] at hprogram
    simp only [Job.deliver, hv, Heard] at h ⊢
    rw [show r'.faulted = r.faulted by rw [hprogram]; exact Bool.or_false _]
    exact h

/-- A write leaves the job aware of every failed program. -/
theorem Heard.write {j : Job} {r : Recorder δ} (h : j.Heard r) (storage : Storage)
    (data : List UInt8) : (j.write storage data r).1.Heard (j.write storage data r).2 := by
  by_cases ha : j.accepted data = []
  · rw [write_of_accepted_nil _ _ _ _ ha]
    exact h
  · rw [write_of_accepted_ne _ _ _ _ ha]
    refine Heard.deliver ?_ _
    have hcover := (Recorder.faulted_kept r.faulted).coverThrough rfl j.plan
      (j.lastSectorOf (j.accepted data).length)
    simp only [Heard, hcover]
    exact h

/-- So does erasing ahead. -/
theorem Heard.eraseAhead {j : Job} {r : Recorder δ} (h : j.Heard r) :
    (j.eraseAhead r).2.1.Heard (j.eraseAhead r).2.2 := by
  have hahead := (Recorder.faulted_kept r.faulted).eraseAhead rfl j
  simp only [Heard, hahead]
  exact h

end Job

/-! ## The books -/

namespace Loader

variable {δ : Type} [FlashDevice δ]

/-- A job that was given some data, on a device that kept a record of it. -/
structure Accounted (offset size : UInt32) (data : List UInt8) (l : Loader (Recorder δ)) : Prop where
  chart : ∃ w, l.job.Chart offset size l.device.calls w ∧ sent w = data.take size.toNat
  heard : l.job.Heard l.device

namespace Accounted

variable {offset size : UInt32} {data : List UInt8} {l : Loader (Recorder δ)}

/-- A write accounts for its bytes. -/
theorem write (h : Accounted offset size data l) (storage : Storage) (more : List UInt8) :
    Accounted offset size (data ++ more) (l.write storage more) := by
  obtain ⟨⟨w, hchart, hsent⟩, hheard⟩ := h
  have hlog := Job.charted_upkeep (Recorder.callLog (δ := δ)) [] offset size
  obtain ⟨calls, hcalls, hchart'⟩ := hlog.write ⟨_, rfl, hchart⟩ storage more
  refine ⟨⟨w ++ l.job.deliveries storage more, ?_, ?_⟩, hheard.write storage more⟩
  · show Job.Chart _ _ (l.job.write storage more l.device).2.calls _ _
    rw [hcalls]
    exact hchart'
  · -- the job takes as much of the new data as it lacked before
    have hremaining : l.job.remaining.toNat = size.toNat - data.length := by
      have hspan := hchart.remaining
      have hlength := length_sent w
      rw [hsent, List.length_take] at hlength
      omega
    have happend : sent (w ++ l.job.deliveries storage more)
        = sent w ++ sent (l.job.deliveries storage more) := List.flatMap_append
    rw [happend, Job.sent_deliveries, hsent, Job.accepted, hremaining, List.take_append]

/-- Erasing ahead has no bytes to account for. -/
theorem eraseAhead (h : Accounted offset size data l) :
    Accounted offset size data l.eraseAhead.2 := by
  obtain ⟨⟨w, hchart, hsent⟩, hheard⟩ := h
  have hlog := Job.charted_upkeep (Recorder.callLog (δ := δ)) [] offset size
  obtain ⟨calls, hcalls, hchart'⟩ := hlog.eraseAhead ⟨_, rfl, hchart⟩
  refine ⟨⟨w, ?_, hsent⟩, hheard.eraseAhead⟩
  show Job.Chart _ _ (l.job.eraseAhead l.device).2.2.calls _ _
  rw [hcalls]
  exact hchart'

/-- Any calls account for theirs. -/
theorem calls (h : Accounted offset size data l) {cs : List LoaderCall}
    (hcs : ∀ c ∈ cs, c.isDirect = true) :
    Accounted offset size (data ++ cs.flatMap LoaderCall.written) (l.calls cs) := by
  induction cs generalizing l data with
  | nil =>
      rw [List.flatMap_nil, List.append_nil]
      exact h
  | cons c cs ih =>
      obtain ⟨hc, hrest⟩ := List.forall_mem_cons.mp hcs
      have hcall : Accounted offset size (data ++ c.written) (l.call c) := by
        cases c with
        | write storage more => exact h.write storage more
        | eraseAhead =>
            show Accounted offset size (data ++ []) l.eraseAhead.2
            rw [List.append_nil]
            exact h.eraseAhead
        | start => exact nomatch hc
        | startPacked => exact nomatch hc
        | unpack => exact nomatch hc
        | finish => exact nomatch hc
      rw [List.flatMap_cons, ← List.append_assoc]
      exact ih hcall hrest

end Accounted

/-- Without data, or without bytes left to take, a write is no call to the device and no change. -/
theorem write_of_nothing (l : Loader δ) (storage : Storage) {data : List UInt8}
    (h : data = [] ∨ l.job.remaining = 0) : l.write storage data = l := by
  have haccepted : l.job.accepted data = [] := by
    rcases h with hdata | hremaining
    · rw [hdata, Job.accepted, List.take_nil]
    · rw [Job.accepted, hremaining]
      rfl
  simp only [write, Job.write_of_accepted_nil _ _ _ _ haccepted]

/-- On every device, whatever it answers, a job that is given data takes it until it has the
    declared size, and counts what it took.  The programs follow each other over just those bytes and
    carry each of them once.  The job keeps an error if one of them failed and none otherwise.  Data
    that is empty or comes too late does not get to the device at all. -/
theorem writes_accounted (l : Loader δ) (packed : Option UInt32) (size offset : UInt32)
    (cs : List LoaderCall) (hopen : (l.openJob packed size offset).1 = .ok ())
    (haddressable : offset.toNat + size.toNat ≤ 2 ^ 32) (hcs : ∀ c ∈ cs, c.isDirect = true) :
    let opened := (l.openJob packed size offset).2
    let l' := opened.recorded.calls cs
    let data := cs.flatMap LoaderCall.written
    let taken := min size.toNat data.length
    l'.map Recorder.device = opened.calls cs ∧
      l'.job.remaining.toNat = size.toNat - taken ∧
      l'.job.cursor.toNat = min (offset.toNat + taken) (2 ^ 32 - 1) ∧
      Contiguous offset.toNat (programsOf l'.device.calls) ∧
      (programsOf l'.device.calls).flatMap Prod.snd = data.take size.toNat ∧
      l'.job.error = (if l'.device.faulted then some .programFailed else none) ∧
      ∀ storage more, more = [] ∨ l'.job.remaining = 0 → l'.write storage more = l' := by
  intro opened l' data taken
  have hjob : opened.job = .fresh size offset := by
    rw [show opened = _ from openJob_ok hopen]
  have hstart : Accounted offset size [] opened.recorded := by
    have hfresh : opened.recorded.job = .fresh size offset := hjob
    refine ⟨⟨[], ?_, List.take_nil.symm⟩, ?_⟩
    · rw [hfresh]
      exact Job.chart_fresh offset size
    · show opened.recorded.job.error = _
      rw [hfresh]
      rfl
  obtain ⟨⟨w, hchart, hsent⟩, hheard⟩ := hstart.calls hcs
  have hdelivered : delivered w = taken := by
    rw [← length_sent, hsent, List.length_take]
    rfl
  have hremaining := hchart.remaining
  have hcursor := hchart.cursor
  rw [hdelivered] at hremaining hcursor
  refine ⟨map_recorded opened cs, Nat.eq_sub_of_add_eq' hremaining, hcursor, ?_, ?_, hheard, ?_⟩
  · rw [hchart.programs]
    exact contiguous_placements hchart.nonempty (by omega)
  · rw [hchart.programs, bytes_placements, hsent]
    rfl
  · intro storage more hnothing
    exact l'.write_of_nothing storage hnothing

/-- A device that fails the first program and has no encryption unit, and more data than declared:
    both programs that are made fail, and the bytes count. -/
theorem writes_accounted_failing :
    let d : Simulator 8192 := { eraseTime := 2, faults := { nextProgram := true } }
    let cs : List LoaderCall :=
      [.write .plain [1, 2, 3], .eraseAhead, .write .plain [], .write .encrypted [4, 5, 6]]
    let l' := (Loader.openJob { device := d } none 5 4094).2.recorded.calls cs
    l'.job.remaining.toNat = 0 ∧ l'.job.error = some .programFailed ∧
      programsOf l'.device.calls = [(4094, [1, 2, 3]), (4097, [4, 5])] := by
  intro d cs l'
  obtain ⟨-, hremaining, -, -, -, -, -⟩ := writes_accounted { device := d } none 5 4094 cs rfl
    (by decide) (by decide)
  exact ⟨hremaining, by decide +kernel, by decide +kernel⟩

end Loader
end NorLoader
