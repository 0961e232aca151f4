import NorLoader.Proofs.Host.Run

/-!
# Jobs that could not be opened

An attempt to open a job puts an end to the one before, and only then asks the device.  If the device
cannot be unlocked the controller is as it was at power-on, whatever it was doing before (`Vacant`).
Until a job is opened, everything that the host asks for is refused, and all that the device is told
is to unlock (`Vacant.run`).
-/

namespace NorLoader

/-- What the host is told while there is no job and none is opened. -/
def Request.refusal : Request → Answer
  | query => .status false none 0
  | start .. => .ack (.failed .unlockFailed)
  | startPacked .. => .ack (.failed .unlockFailed)
  | data _ => .ack (.failed .noJob)
  | finish => .ack (.failed .noJob)
  | reboot => .ack .ok

/-- What the host is told at an event while there is no job and none is opened. -/
def Event.refusal? : Event → Option Answer
  | request r => some r.refusal
  | _ => none

namespace Controller

variable {capacity : Nat}

/-- There is no job, and nothing is left of an earlier one but its stream. -/
structure Vacant (c : Controller (Simulator capacity)) : Prop where
  job : c.loader.job = .idle
  taken : c.taken = 0
  route : c.route = .nothing

/-- No job is opened in a run: every attempt is answered with something else than success. -/
def OpensNone (c : Controller (Simulator capacity)) (es : List Event) : Prop :=
  ∀ n e, es[n]? = some e → e.opens = true → (c.run (es.take n)).answer? e ≠ some (.ack .ok)

/-- A device that was told nothing but to unlock, with the cells that it had. -/
structure OnlyUnlocked (s s' : Simulator capacity) : Prop where
  cells : s'.cells = s.cells
  calls : ∃ calls : List DeviceCall, (∀ call ∈ calls, call = .unlock) ∧
    s'.calls = s.calls ++ calls

theorem OnlyUnlocked.of_calls {s s' : Simulator capacity} (hcells : s'.cells = s.cells)
    (hcalls : s'.calls = s.calls) : OnlyUnlocked s s' :=
  ⟨hcells, [], List.forall_mem_nil _, by rw [hcalls, Array.appendList_nil]⟩

theorem OnlyUnlocked.trans {s s' s'' : Simulator capacity} (h : OnlyUnlocked s s')
    (h' : OnlyUnlocked s' s'') : OnlyUnlocked s s'' := by
  obtain ⟨hcells, calls, hunlocks, hcalls⟩ := h
  obtain ⟨hcells', calls', hunlocks', hcalls'⟩ := h'
  refine ⟨hcells'.trans hcells, calls ++ calls', ?_, ?_⟩
  · exact List.forall_mem_append.mpr ⟨hunlocks, hunlocks'⟩
  · apply Array.ext'
    rw [hcalls', hcalls]
    simp only [Array.toList_appendList, List.append_assoc]

/-! ## The attempt that fails -/

/-- Whether the device can be unlocked is a matter of its faults. -/
theorem unlock_of_failed {s : Simulator capacity} (h : (FlashDevice.unlock s).1 ≠ .ok ()) :
    s.faults.unlock = true := by
  cases hf : s.faults.unlock with
  | true => rfl
  | false =>
      rw [Simulator.unlock_ok hf] at h
      exact absurd rfl h

/-- An attempt that fails leaves no job, from every state. -/
theorem vacant_of_locked {c : Controller (Simulator capacity)} {r : Request}
    {span : UInt32 × UInt32} (hspan : r.span? = some span)
    (hlocked : c.loader.device.faults.unlock = true) :
    (c.execute r).1 = .ack (.failed .unlockFailed) ∧ (c.after (.request r)).Vacant ∧
      OnlyUnlocked c.loader.device (c.after (.request r)).loader.device := by
  have hopens : Opens r span.1 span.2 c (c.after (.request r)) := c.after_opening hspan
  obtain ⟨hjob, hroute⟩ := hopens.job_eq
  rw [if_pos hlocked] at hjob hroute
  refine ⟨?_, ⟨hjob, hopens.taken, hroute⟩, hopens.cells, _, ?_, hopens.calls⟩
  · rw [c.answer_opening hspan, if_pos hlocked]
  · exact fun call hcall => List.mem_singleton.mp hcall

/-! ## What follows it -/

namespace Vacant

variable {c : Controller (Simulator capacity)}

/-- One event, unless it opens a job. -/
theorem after (h : c.Vacant) {e : Event}
    (he : e.opens = true → c.answer? e ≠ some (.ack .ok)) :
    c.answer? e = e.refusal? ∧ (c.after e).Vacant ∧
      OnlyUnlocked c.loader.device (c.after e).loader.device := by
  cases hopens : e.opens with
  | true =>
      obtain ⟨r, size, offset, rfl, hspan⟩ := e.opens_iff.mp hopens
      have hlocked : c.loader.device.faults.unlock = true := by
        cases hf : c.loader.device.faults.unlock with
        | true => rfl
        | false =>
            refine absurd ?_ (he hopens)
            show some (c.execute r).1 = _
            rw [c.answer_opening hspan, hf]
            rfl
      obtain ⟨hanswer, hvacant, hdevice⟩ := vacant_of_locked hspan hlocked
      refine ⟨?_, hvacant, hdevice⟩
      show some (c.execute r).1 = some r.refusal
      rw [hanswer]
      cases r with
      | start => rfl
      | startPacked => rfl
      | _ => cases hspan
  | false =>
      have hactive : c.loader.job.active = false := by rw [h.job]; rfl
      obtain ⟨faults, hsame⟩ := c.after_of_inactive hopens hactive
      rw [hsame]
      refine ⟨?_, ⟨h.job, h.taken, h.route⟩, .of_calls rfl rfl⟩
      cases e with
      | idle => rfl
      | switch => rfl
      | request r =>
          refine congrArg some ?_
          show (c.execute r).1 = r.refusal
          cases r with
          | query => simp [execute, respond, report, h.job, Job.idle, Request.refusal]
          | start => cases hopens
          | startPacked => cases hopens
          | data b => simp [execute, respond, receive, hactive, Request.refusal, Verdict.ack]
          | finish =>
              simp [execute, respond, Loader.finish, Job.finish, hactive, Request.refusal,
                Verdict.ofResult, Verdict.ack, Ack.ofResult]
          | reboot => rfl

/-- Every run, until a job is opened in it. -/
theorem run (h : c.Vacant) {es : List Event} (hes : c.OpensNone es) :
    c.answers es = es.map Event.refusal? ∧ (c.run es).Vacant ∧
      OnlyUnlocked c.loader.device (c.run es).loader.device := by
  induction es generalizing c with
  | nil => exact ⟨rfl, h, .of_calls rfl rfl⟩
  | cons e es ih =>
      obtain ⟨hanswer, hvacant, hdevice⟩ := h.after (hes 0 e rfl)
      have hrest : (c.after e).OpensNone es := fun n => hes (n + 1)
      obtain ⟨hanswers, hvacant', hdevice'⟩ := ih hvacant hrest
      refine ⟨?_, hvacant', hdevice.trans hdevice'⟩
      rw [answers, hanswer, hanswers]
      rfl

end Vacant

/-- A job that cannot be opened because the device does not unlock leaves none behind: after any run,
    in the middle of a job of either kind or not, the host is told so, the record of the job is that of
    power-on, no block counts as taken and the cells are what they were.  From then on, until an
    attempt to open a job succeeds, data and closing are refused because there is no job, a query
    shows none, and the device is told nothing but to unlock. -/
theorem failed_opening_leaves_no_job (d : Simulator capacity) (before : List Event)
    {opening : Request} {span : UInt32 × UInt32} (hspan : opening.span? = some span)
    (hlocked : (FlashDevice.unlock ((powerOn d).run before).loader.device).1 ≠ .ok ()) :
    let found := (powerOn d).run before
    let failed := found.after (.request opening)
    ((found.execute opening).1 = .ack (.failed .unlockFailed) ∧ failed.loader.job = .idle ∧
        failed.taken = 0 ∧ failed.loader.device.cells = found.loader.device.cells) ∧
      ∀ later, failed.OpensNone later →
        let c := failed.run later
        failed.answers later = later.map Event.refusal? ∧
          c.loader.job = .idle ∧ c.taken = 0 ∧ c.loader.device.cells = found.loader.device.cells ∧
          ∀ call ∈ c.loader.device.callsSince found.loader.device.calls.size, call = .unlock := by
  intro found failed
  obtain ⟨hanswer, hvacant, hdevice⟩ := vacant_of_locked hspan (unlock_of_failed hlocked)
  refine ⟨⟨hanswer, hvacant.job, hvacant.taken, hdevice.cells⟩, ?_⟩
  intro later hlater c
  obtain ⟨hanswers, hvacant', hdevice'⟩ := hvacant.run hlater
  obtain ⟨hcells, calls, hunlocks, hcalls⟩ := hdevice.trans hdevice'
  refine ⟨hanswers, hvacant'.job, hvacant'.taken, hcells, ?_⟩
  rw [Simulator.callsSince_of_append hcalls]
  exact hunlocks

/-- The attempt comes in the middle of a stream while an erase is running.  It is made once more, and
    the device is unlocked too late for either. -/
theorem failed_opening_leaves_no_job_within_stream :
    let d : Simulator 8192 := { eraseTime := 5 }
    let piece : DataBlock := ⟨.deflated, 0, Crc32.checksum [0x78, 0x01], [0x78, 0x01]⟩
    let before : List Event := [.request (.startPacked 5 9 4094), .request (.data piece), .idle,
      .switch { unlock := true }]
    let later : List Event := [.request (.data piece), .idle, .request (.startPacked 2 10 0),
      .request .finish, .switch {}, .request .query]
    let found := (powerOn d).run before
    let failed := found.after (.request (.start 5 0))
    found.loader.job.active = true ∧ (found.execute (.start 5 0)).1 = .ack (.failed .unlockFailed) ∧
      failed.loader.job = .idle ∧
      failed.answers later = [some (.ack (.failed .noJob)), none,
        some (.ack (.failed .unlockFailed)), some (.ack (.failed .noJob)), none,
        some (.status false none 0)] := by
  intro d piece before later found failed
  have hlocked : (FlashDevice.unlock found.loader.device).1 ≠ .ok () := by decide +kernel
  obtain ⟨⟨hanswer, hjob, -, -⟩, hlater⟩ :=
    @failed_opening_leaves_no_job 8192 d before (.start 5 0) (5, 0) rfl hlocked
  have hnone : failed.OpensNone later := by
    intro n e hplace
    have hlt : n < 6 := (List.getElem?_eq_some_iff.mp hplace).1
    have hall : ∀ n < 6, ∀ e ∈ later[n]?, e.opens = true →
        (failed.run (later.take n)).answer? e ≠ some (.ack .ok) := by decide +kernel
    exact hall n hlt e hplace
  obtain ⟨hanswers, -⟩ := hlater later hnone
  exact ⟨by decide +kernel, hanswer, hjob, hanswers⟩

end Controller
end NorLoader
