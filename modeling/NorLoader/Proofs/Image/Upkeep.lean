import NorLoader.Image.Unpacker
import NorLoader.Proofs.Flash.EraseFrontier

/-!
# What holds while a job is written

A job reaches the device in four ways: it polls it, it issues the next erase of its plan, it has
bytes programmed, and it keeps an error.  `Job.Upkeep P` says that each of the four keeps `P`;
`P` may also speak of the deliveries so far, the runs of bytes that were handed to the device.
Everything that goes through a job, the unpacker included, keeps such a `P`, so an invariant of
the engine is four short facts.
-/

namespace NorLoader

/-- Bytes that a job handed to the device in one go. -/
structure Delivery where
  storage : Storage
  bytes : List UInt8
  deriving DecidableEq, Repr

/-- The number of bytes in some deliveries. -/
def delivered (w : List Delivery) : Nat := (w.map fun v => v.bytes.length).sum

/-- One more delivery adds its bytes. -/
theorem delivered_concat (w : List Delivery) (v : Delivery) :
    delivered (w ++ [v]) = delivered w + v.bytes.length := by
  simp [delivered]

/-- The bytes of some deliveries, as the host sent them. -/
def sent (w : List Delivery) : List UInt8 := w.flatMap Delivery.bytes

/-- As many bytes are sent as delivered. -/
theorem length_sent (w : List Delivery) : (sent w).length = delivered w :=
  List.length_flatMap

namespace Job

@[simp] theorem active_note (j : Job) (e : JobError) : (j.note e).active = j.active := by
  simp only [note]
  split <;> rfl

@[simp] theorem cursor_note (j : Job) (e : JobError) : (j.note e).cursor = j.cursor := by
  simp only [note]
  split <;> rfl

@[simp] theorem remaining_note (j : Job) (e : JobError) :
    (j.note e).remaining = j.remaining := by
  simp only [note]
  split <;> rfl

@[simp] theorem plan_note (j : Job) (e : JobError) : (j.note e).plan = j.plan := by
  simp only [note]
  split <;> rfl

/-- A job that is to keep an error has one. -/
theorem error_note_ne_none (j : Job) (e : JobError) : (j.note e).error ≠ none := by
  intro h
  simp only [note] at h
  split at h
  · exact nomatch h
  · rename_i hsome
    rw [hsome] at h
    exact nomatch h

/-- At most the job is closed. -/
theorem finish_kept (j : Job) :
    j.finish.2.error = j.error ∧ j.finish.2.remaining = j.remaining := by
  simp only [finish]
  split
  · exact ⟨rfl, rfl⟩
  · split <;> exact ⟨rfl, rfl⟩

/-- An open job that has all its bytes and keeps no error is closed with success. -/
theorem finish_ok_iff (j : Job) :
    j.finish.1 = .ok () ↔ j.active = true ∧ j.remaining = 0 ∧ j.error = none := by
  cases hactive : j.active with
  | false => simp [finish, hactive]
  | true =>
      by_cases hremaining : j.remaining > 0
      · have hne : j.remaining ≠ 0 := fun h0 => by simp [h0] at hremaining
        simp [finish, hactive, hremaining, hne]
      · have h0 : j.remaining = 0 := by simpa using hremaining
        cases herror : j.error <;> simp [finish, hactive, h0, herror]

/-- What a job expects is a word. -/
theorem toNat_ofNat_of_le_remaining {j : Job} {len : Nat} (h : len ≤ j.remaining.toNat) :
    (UInt32.ofNat len).toNat = len :=
  UInt32.toNat_ofNat_of_lt' (Nat.lt_of_le_of_lt h j.remaining.toNat_lt)

variable {δ : Type} [FlashDevice δ]

/-! ## A write in two parts -/

omit [FlashDevice δ] in
/-- What a write of some data delivers: what the job still takes, if that is anything. -/
def deliveries (j : Job) (storage : Storage) (data : List UInt8) : List Delivery :=
  if j.accepted data = [] then [] else [⟨storage, j.accepted data⟩]

/-- Has some bytes programmed once the device is idle. -/
def deliver (j : Job) (v : Delivery) (d : δ) : Job × δ :=
  match programVia v.storage j.cursor v.bytes (FlashDevice.awaitIdle d) with
  | (.ok (), d) => (j.past (UInt32.ofNat v.bytes.length), d)
  | (.error _, d) => ((j.note .programFailed).past (UInt32.ofNat v.bytes.length), d)

/-- The device after a delivery is the one after the program, however that ended. -/
theorem device_deliver (j : Job) (v : Delivery) (d : δ) :
    (j.deliver v d).2 = (programVia v.storage j.cursor v.bytes (FlashDevice.awaitIdle d)).2 := by
  simp only [deliver]
  split <;> rename_i heq <;> rw [heq]

/-- Delivered bytes count, whether or not they were programmed. -/
theorem job_deliver (j : Job) (v : Delivery) (d : δ) :
    (j.deliver v d).1 = j.past (UInt32.ofNat v.bytes.length) ∨
      (j.deliver v d).1 = (j.note .programFailed).past (UInt32.ofNat v.bytes.length) := by
  simp only [deliver]
  split
  · exact Or.inl rfl
  · exact Or.inr rfl

/-- A delivery leaves alone what is still to be erased, and whether the job is open. -/
theorem kept_deliver (j : Job) (v : Delivery) (d : δ) :
    (j.deliver v d).1.plan = j.plan ∧ (j.deliver v d).1.active = j.active := by
  rcases j.job_deliver v d with hjob | hjob
  · rw [hjob]
    exact ⟨rfl, rfl⟩
  · rw [hjob]
    exact ⟨j.plan_note _, j.active_note _⟩

/-- The sector where the bytes end that a job writes next. -/
def lastSectorOf (j : Job) (count : Nat) : UInt32 :=
  sectorIndex (satAdd j.cursor (UInt32.ofNat count))

/-- Nothing is written for no bytes. -/
theorem write_of_accepted_nil (j : Job) (storage : Storage) (data : List UInt8) (d : δ)
    (h : j.accepted data = []) : j.write storage data d = (j, d) := by
  simp only [write, h]

/-- A write erases up to the sector where it ends and then delivers its bytes. -/
theorem write_of_accepted_ne (j : Job) (storage : Storage) (data : List UInt8) (d : δ)
    (h : j.accepted data ≠ []) :
    j.write storage data d
      = let cleared := j.plan.coverThrough (j.lastSectorOf (j.accepted data).length) d
        deliver { j with plan := cleared.1 } ⟨storage, j.accepted data⟩ cleared.2 := by
  obtain ⟨b, rest, hb⟩ := List.exists_cons_of_ne_nil h
  simp only [write, hb]
  rfl

/-- A job accepts what it expects at most. -/
theorem length_accepted_le (j : Job) (data : List UInt8) :
    (j.accepted data).length ≤ j.remaining.toNat := by
  simp only [accepted, List.length_take]
  omega

omit [FlashDevice δ] in
/-- What is delivered of some data is what the job accepts of it. -/
theorem sent_deliveries (j : Job) (storage : Storage) (data : List UInt8) :
    sent (j.deliveries storage data) = j.accepted data := by
  by_cases h : j.accepted data = []
  · rw [deliveries, if_pos h, h]
    rfl
  · rw [deliveries, if_neg h]
    exact List.append_nil _

/-! ## Upkeep -/

/-- `P` is kept by everything that a job does to itself and to its device. -/
structure Upkeep (P : List Delivery → Job → δ → Prop) : Prop where
  /-- A look at the device. -/
  poll : ∀ {w j d}, P w j d → P w j (FlashDevice.poll d).2
  /-- The next erase of the plan. -/
  issue : ∀ {w j d size}, P w j d → j.plan.nextSize = some size →
    P w { j with plan := (j.plan.issue size d).1 } (j.plan.issue size d).2
  /-- A delivery for which everything is erased that the plan holds. -/
  deliver : ∀ {w j d v}, P w j d → v.bytes ≠ [] → v.bytes.length ≤ j.remaining.toNat →
    j.plan.Covers (j.lastSectorOf v.bytes.length) →
    P (w ++ [v]) (j.deliver v d).1 (j.deliver v d).2
  /-- An error that is kept. -/
  note : ∀ {w j d} e, P w j d → P w (j.note e) d

/-- An error that is kept is not forgotten. -/
theorem error_upkeep : Upkeep (δ := δ) fun _ j _ => j.error ≠ none where
  poll h := h
  issue h _ := h
  deliver := by
    intro w j d v h _ _ _
    simp only [deliver]
    split
    · exact h
    · exact error_note_ne_none j _
  note e _ := error_note_ne_none _ e

/-- A closed job has all its bytes. -/
theorem closed_upkeep : Upkeep (δ := δ) fun _ j _ => j.active = false → j.remaining = 0 where
  poll h := h
  issue h _ := h
  deliver := by
    intro w j d v h hne hlen _ hclosed
    -- nothing is delivered for a job that has all its bytes
    rw [(j.kept_deliver v d).2] at hclosed
    rw [h hclosed] at hlen
    exact absurd (List.length_pos_iff.mpr hne) (Nat.not_lt.mpr hlen)
  note e h := by
    rw [active_note, remaining_note]
    exact h

namespace Upkeep

omit [FlashDevice δ] in
/-- A poll of the simulator counts itself and shortens the wait.  What holds whatever the two counts are
    needs to be shown of erases, deliveries and errors only. -/
theorem onSimulator {capacity : Nat} {P : List Delivery → Job → Simulator capacity → Prop}
    (hcounts : ∀ {w j s} polls busy, P w j s → P w j { s with polls := polls, busy := busy })
    (hissue : ∀ {w j s unit}, P w j s → j.plan.nextSize = some unit →
      P w { j with plan := (j.plan.issue unit s).1 } (j.plan.issue unit s).2)
    (hdeliver : ∀ {w j s v}, P w j s → v.bytes ≠ [] → v.bytes.length ≤ j.remaining.toNat →
      j.plan.Covers (j.lastSectorOf v.bytes.length) →
      P (w ++ [v]) (j.deliver v s).1 (j.deliver v s).2)
    (hnote : ∀ {w j s} e, P w j s → P w (j.note e) s) : Upkeep P where
  poll := by
    intro w j s h
    show P w j s.poll.2
    rw [Simulator.poll_snd]
    exact hcounts _ _ h
  issue := hissue
  deliver := hdeliver
  note := hnote

variable {P : List Delivery → Job → δ → Prop} {w : List Delivery} {j : Job} {d : δ}

/-- Two properties are kept together. -/
theorem and {Q : List Delivery → Job → δ → Prop} (h : Upkeep P) (h' : Upkeep Q) :
    Upkeep fun w j d => P w j d ∧ Q w j d where
  poll hpq := ⟨h.poll hpq.1, h'.poll hpq.2⟩
  issue hpq hunit := ⟨h.issue hpq.1 hunit, h'.issue hpq.2 hunit⟩
  deliver hpq hne hlen hcovers :=
    ⟨h.deliver hpq.1 hne hlen hcovers, h'.deliver hpq.2 hne hlen hcovers⟩
  note e hpq := ⟨h.note e hpq.1, h'.note e hpq.2⟩

/-- A wait is polls. -/
theorem awaitIdle (h : Upkeep P) (hp : P w j d) : P w j (FlashDevice.awaitIdle d) := by
  have loop : ∀ (n : Nat) (d : δ), P w j d → P w j (pollUntilIdle FlashDevice.poll n d) := by
    intro n
    induction n with
    | zero =>
        intro d hp
        exact h.poll hp
    | succ n ih =>
        intro d hp
        show P w j (if (FlashDevice.poll d).1 then (FlashDevice.poll d).2
          else pollUntilIdle FlashDevice.poll n (FlashDevice.poll d).2)
        split
        · exact h.poll hp
        · exact ih _ (h.poll hp)
  exact loop _ d hp

/-- Erasing up to a sector is waits and erases. -/
theorem coverThrough (h : Upkeep P) (hp : P w j d) (last : UInt32) :
    P w { j with plan := (j.plan.coverThrough last d).1 } (j.plan.coverThrough last d).2 := by
  have loop : ∀ (n : Nat) (p : ErasePlan) (d : δ), P w { j with plan := p } d →
      P w { j with plan := (p.issueUpTo last n d).1 } (p.issueUpTo last n d).2 := by
    intro n
    induction n with
    | zero =>
        intro p d hp
        exact hp
    | succ n ih =>
        intro p d hp
        cases hs : p.nextSize with
        | none =>
            simp only [ErasePlan.issueUpTo, hs]
            exact hp
        | some size =>
            by_cases hl : p.first ≤ last
            · simp only [ErasePlan.issueUpTo, hs, if_pos hl]
              exact ih _ _ (h.issue (h.awaitIdle hp) hs)
            · simp only [ErasePlan.issueUpTo, hs, if_neg hl]
              exact hp
  exact loop _ _ d hp

/-- Erasing ahead keeps `P`. -/
theorem eraseAhead (h : Upkeep P) (hp : P w j d) :
    P w (j.eraseAhead d).2.1 (j.eraseAhead d).2.2 := by
  cases hs : j.plan.nextSize with
  | none =>
      simp only [Job.eraseAhead, ErasePlan.issueIfIdle, hs]
      exact hp
  | some size =>
      cases hr : (FlashDevice.poll d).1 with
      | true =>
          simp only [Job.eraseAhead, ErasePlan.issueIfIdle, hs, hr, if_true]
          exact h.issue (h.poll hp) hs
      | false =>
          simp only [Job.eraseAhead, ErasePlan.issueIfIdle, hs, hr, Bool.false_eq_true, if_false]
          exact h.poll hp

/-- A write keeps `P` and adds what it delivers. -/
theorem write (h : Upkeep P) (hp : P w j d) (storage : Storage) (data : List UInt8) :
    P (w ++ j.deliveries storage data) (j.write storage data d).1 (j.write storage data d).2 := by
  by_cases ha : j.accepted data = []
  · rw [write_of_accepted_nil j storage data d ha, deliveries, if_pos ha, List.append_nil]
    exact hp
  · rw [write_of_accepted_ne j storage data d ha, deliveries, if_neg ha]
    exact h.deliver (h.coverThrough hp _) ha (j.length_accepted_le data)
      (ErasePlan.coverThrough_covers _ _ _)

end Upkeep
end Job

/-! ## Unpacking -/

namespace Unpacker

variable {ρ : Type} [StreamReader ρ]

/-- The output that waits to be handed over. -/
def output (u : Unpacker ρ) : List UInt8 := u.window.toList.take u.held

/-- What a read leaves is what the reader gives back. -/
theorem readOnce_eq (u : Unpacker ρ) (piece : List UInt8) : u.readOnce piece
    = let result := StreamReader.read u.reader piece u.window u.held
        (u.packedLeft.toNat > piece.length)
      (result.status, result.consumed, ⟨result.reader, result.window, result.pos,
        satSub u.packedLeft (UInt32.ofNat result.consumed), u.phase⟩) := rfl

end Unpacker

namespace Unpacking

variable {δ ρ : Type} [StreamReader ρ] [FlashDevice δ]

/-- The first part of a cycle: the job erases ahead, and a read adds to the window. -/
def afterRead (k : Unpacking δ ρ) : Unpacking δ ρ :=
  let ahead := k.job.eraseAhead k.device
  let (status, consumed, unpacker) := k.unpacker.readOnce k.rest
  let unpacker := if consumed > 0 then { unpacker with phase := .reading } else unpacker
  ⟨unpacker, ahead.2.1, ahead.2.2, k.rest.drop consumed, status, k.excess⟩

omit [FlashDevice δ] in
/-- Whether a read is followed by handing the output over. -/
def handsOver (k : Unpacking δ ρ) : Bool := !k.status.goesOn || k.unpacker.held = windowSize

/-- A cycle is a read, after which the output may be handed over. -/
theorem cycle_eq (k : Unpacking δ ρ) :
    k.cycle = if k.afterRead.handsOver then k.afterRead.handOver else k.afterRead := rfl

omit [FlashDevice δ] in
/-- Settling leaves the job alone, but for an error. -/
theorem settle_job (k : Unpacking δ ρ) : k.settle.2.1 = k.job ∨ ∃ e, k.settle.2.1 = k.job.note e := by
  simp only [settle]
  split
  · exact Or.inr ⟨_, rfl⟩
  · split
    · exact Or.inr ⟨_, rfl⟩
    · split
      · exact Or.inr ⟨_, rfl⟩
      · exact Or.inl rfl

omit [FlashDevice δ] in
/-- Reading on after the image is complete leaves job and device alone. -/
theorem readTrailing_job (k : Unpacking δ ρ) :
    k.readTrailing.job = k.job ∧ k.readTrailing.device = k.device := by
  simp only [readTrailing]
  split
  · split <;> exact ⟨rfl, rfl⟩
  · exact ⟨rfl, rfl⟩

/-- A cycle whose read takes something is reading. -/
theorem unpacker_afterRead (k : Unpacking δ ρ) : k.afterRead.unpacker
    = { (k.unpacker.readOnce k.rest).2.2 with
        phase := if (k.unpacker.readOnce k.rest).2.1 > 0 then .reading else k.unpacker.phase } := by
  show (if (k.unpacker.readOnce k.rest).2.1 > 0 then
      { (k.unpacker.readOnce k.rest).2.2 with phase := .reading }
    else (k.unpacker.readOnce k.rest).2.2) = _
  split <;> rfl

/-- What a cycle keeps any number of cycles keep. -/
theorem cycleUpTo_induct {P : Unpacking δ ρ → Prop} (hcycle : ∀ {k}, P k → P k.cycle) (n : Nat)
    {k : Unpacking δ ρ} (h : P k) : P (k.cycleUpTo n) := by
  induction n generalizing k with
  | zero => exact h
  | succ n ih =>
      simp only [cycleUpTo]
      split
      · exact ih (hcycle h)
      · exact h

/-- There is no cycle without work, nor when the image is complete. -/
theorem cycleUpTo_of_stop {k : Unpacking δ ρ} (n : Nat)
    (h : k.canGoOn = false ∨ k.job.remaining = 0) : k.cycleUpTo n = k := by
  cases n with
  | zero => rfl
  | succ n =>
      simp only [cycleUpTo]
      rw [if_neg]
      rw [Bool.and_eq_true, decide_eq_true_iff]
      rintro ⟨hgo, hleft⟩
      rcases h with hstop | hzero
      · exact nomatch hstop.symm.trans hgo
      · rw [hzero] at hleft
        exact absurd hleft (UInt32.lt_irrefl 0)

omit [FlashDevice δ] in
/-- There is no reading on where there is nothing to go on with. -/
theorem readTrailing_of_stop {k : Unpacking δ ρ} (h : k.canGoOn = false) : k.readTrailing = k := by
  simp only [Unpacking.readTrailing, h, Bool.false_and, Bool.false_eq_true, if_false]

omit [FlashDevice δ] in
/-- Without input there is nothing to go on with, unless the window was full. -/
theorem canGoOn_of_rest_nil {k : Unpacking δ ρ} (hrest : k.rest = [])
    (hs : k.status ≠ .windowFull) : k.canGoOn = false := by
  simp [canGoOn, hrest, hs]

end Unpacking

namespace Job.Upkeep

variable {δ ρ : Type} [StreamReader ρ] [FlashDevice δ] {P : List Delivery → Job → δ → Prop}
  {w : List Delivery}

/-- Deliveries that come out of the unpacker: the output is image data and stored as it is. -/
def Plain (vs : List Delivery) : Prop := ∀ v ∈ vs, v.storage = .plain

/-- Handing over keeps `P` and adds what is delivered. -/
theorem handOver (h : Upkeep P) {k : Unpacking δ ρ} (hp : P w k.job k.device) :
    P (w ++ k.job.deliveries .plain k.unpacker.output) k.handOver.job k.handOver.device :=
  h.write hp .plain k.unpacker.output

/-- Output is delivered as it is. -/
theorem plain_deliveries (j : Job) (data : List UInt8) : Plain (j.deliveries .plain data) := by
  intro v hv
  simp only [deliveries] at hv
  split at hv
  · exact nomatch hv
  · rw [List.mem_singleton.mp hv]

/-- A cycle keeps `P` and adds deliveries of output. -/
theorem cycle (h : Upkeep P) {k : Unpacking δ ρ} (hp : P w k.job k.device) :
    ∃ vs, Plain vs ∧ P (w ++ vs) k.cycle.job k.cycle.device := by
  have hahead : P w k.afterRead.job k.afterRead.device := h.eraseAhead hp
  rw [Unpacking.cycle_eq]
  split
  · exact ⟨_, plain_deliveries _ _, h.handOver hahead⟩
  · exact ⟨[], nofun, by rw [List.append_nil]; exact hahead⟩

/-- So do any number of cycles. -/
theorem cycleUpTo (h : Upkeep P) (n : Nat) {k : Unpacking δ ρ} (hp : P w k.job k.device) :
    ∃ vs, Plain vs ∧ P (w ++ vs) (k.cycleUpTo n).job (k.cycleUpTo n).device := by
  refine Unpacking.cycleUpTo_induct
    (P := fun k : Unpacking δ ρ => ∃ vs, Plain vs ∧ P (w ++ vs) k.job k.device) ?_ n
    ⟨[], nofun, by rw [List.append_nil]; exact hp⟩
  rintro k ⟨vs, hvs, hp⟩
  obtain ⟨vs', hvs', hp⟩ := h.cycle hp
  exact ⟨vs ++ vs', List.forall_mem_append.mpr ⟨hvs, hvs'⟩, by rw [← List.append_assoc]; exact hp⟩

/-- Settling keeps `P`. -/
theorem settle (h : Upkeep P) {k : Unpacking δ ρ} (hp : P w k.job k.device) :
    P w k.settle.2.1 k.settle.2.2 := by
  have hdevice : k.settle.2.2 = k.device := rfl
  rw [hdevice]
  rcases k.settle_job with hj | ⟨e, hj⟩
  · rw [hj]
    exact hp
  · rw [hj]
    exact h.note e hp

/-- Unpacking keeps `P`, whatever the stream holds. -/
theorem unpack (h : Upkeep P) (u : Unpacker ρ) {j : Job} {d : δ} (hp : P w j d)
    (piece : List UInt8) :
    ∃ vs, Plain vs ∧ P (w ++ vs) (u.unpack j piece d).2.1 (u.unpack j piece d).2.2 := by
  simp only [Unpacker.unpack]
  split
  · refine ⟨[], nofun, ?_⟩
    rw [List.append_nil]
    show P w (if piece.isEmpty then j else j.note .excessData) d
    split
    · exact hp
    · exact h.note _ hp
  · obtain ⟨vs, hvs, hp'⟩ := h.cycleUpTo (j.remaining.toNat / windowSize + 2)
      (show P w (⟨u, j, d, piece, .needsInput, false⟩ : Unpacking δ ρ).job _ from hp)
    refine ⟨vs, hvs, h.settle ?_⟩
    rw [(Unpacking.readTrailing_job _).1, (Unpacking.readTrailing_job _).2]
    exact hp'

end Job.Upkeep
end NorLoader
