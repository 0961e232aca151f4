import NorLoader.Proofs.Image.Faultless

/-!
# Two jobs side by side

Two jobs on two devices are given the same bytes and the same streams.  What they still have to
erase and how long that takes may differ, yet they take the same bytes and keep the same error
(`Alike`).  `R` says what the two devices have in common; for `Alike` to last it has to be kept by
what either device does by itself while it erases, and by a delivery of the same bytes on both
(`Paired`).  Simulated devices whose programs end the same way are such a pair (`agree_paired`).
-/

namespace NorLoader

namespace Job

section Erasing

variable {δ : Type} [FlashDevice δ]

/-- `P` is kept by all that a job does to its device while it erases. -/
structure ErasingKeeps (P : δ → Prop) : Prop where
  poll : ∀ {d}, P d → P (FlashDevice.poll d).2
  issue : ∀ {d} (p : ErasePlan) (size : EraseSize), P d → P (p.issue size d).2

namespace ErasingKeeps

variable {P : δ → Prop} (h : ErasingKeeps P)

include h in
/-- Between two deliveries there is only erasing. -/
theorem upkeep : Upkeep fun w _ d => w = [] → P d where
  poll hp hw := h.poll (hp hw)
  issue hp _ hw := h.issue _ _ (hp hw)
  deliver _ _ _ _ hw := absurd hw (List.append_ne_nil_of_right_ne_nil _ (List.cons_ne_nil _ _))
  note _ hp := hp

include h in
/-- Erasing up to a sector keeps `P`. -/
theorem coverThrough {d : δ} (hp : P d) (p : ErasePlan) (last : UInt32) :
    P (p.coverThrough last d).2 :=
  h.upkeep.coverThrough (w := []) (j := { plan := p }) (fun _ => hp) last rfl

include h in
/-- So does erasing ahead. -/
theorem eraseAhead {d : δ} (hp : P d) (j : Job) : P (j.eraseAhead d).2.2 :=
  h.upkeep.eraseAhead (w := []) (fun _ => hp) rfl

end ErasingKeeps
end Erasing

variable {δ δ' : Type} [FlashDevice δ] [FlashDevice δ']

/-- Two jobs that differ at most in what is still to be erased, on devices that `R` relates. -/
structure Alike (R : δ → δ' → Prop) (j j' : Job) (d : δ) (d' : δ') : Prop where
  job : j' = { j with plan := j'.plan }
  device : R d d'

/-- What keeps two jobs alike: either may erase by itself, and they deliver together. -/
structure Paired (R : δ → δ' → Prop) : Prop where
  left : ∀ d', ErasingKeeps fun d => R d d'
  right : ∀ d, ErasingKeeps fun d' => R d d'
  deliver : ∀ {j j' d d'} v, Alike R j j' d d' →
    Alike R (j.deliver v d).1 (j'.deliver v d').1 (j.deliver v d).2 (j'.deliver v d').2

namespace Alike

variable {R : δ → δ' → Prop} {j j' : Job} {d : δ} {d' : δ'}

omit [FlashDevice δ] [FlashDevice δ'] in
/-- The same error leaves them alike. -/
theorem note (h : Alike R j j' d d') (e : JobError) : Alike R (j.note e) (j'.note e) d d' := by
  obtain ⟨hjob, hdevice⟩ := h
  refine ⟨?_, hdevice⟩
  rw [hjob]
  simp only [Job.note]
  split <;> rfl

omit [FlashDevice δ] [FlashDevice δ'] in
/-- They are closed with the same outcome. -/
theorem finish (h : Alike R j j' d d') :
    j'.finish.1 = j.finish.1 ∧ Alike R j.finish.2 j'.finish.2 d d' := by
  obtain ⟨hjob, hdevice⟩ := h
  rw [hjob]
  simp only [Job.finish]
  split
  · exact ⟨rfl, rfl, hdevice⟩
  · split <;> exact ⟨rfl, rfl, hdevice⟩

/-- Erasing ahead leaves them alike. -/
theorem eraseAhead (h : Alike R j j' d d') (hpaired : Paired R) :
    Alike R (j.eraseAhead d).2.1 (j'.eraseAhead d').2.1 (j.eraseAhead d).2.2
      (j'.eraseAhead d').2.2 := by
  refine ⟨?_, (hpaired.right _).eraseAhead ((hpaired.left _).eraseAhead h.device j) j'⟩
  rw [h.job]
  rfl

/-- Both take the same part of what they are given. -/
theorem write (h : Alike R j j' d d') (hpaired : Paired R) (storage : Storage)
    (data : List UInt8) : Alike R (j.write storage data d).1 (j'.write storage data d').1
      (j.write storage data d).2 (j'.write storage data d').2 := by
  have haccepted : j'.accepted data = j.accepted data := by rw [h.job]; rfl
  by_cases ha : j.accepted data = []
  · rw [write_of_accepted_nil j storage data d ha,
      write_of_accepted_nil j' storage data d' (haccepted.trans ha)]
    exact h
  · rw [write_of_accepted_ne j storage data d ha,
      write_of_accepted_ne j' storage data d' (by rwa [haccepted]), haccepted]
    refine hpaired.deliver _ ⟨?_, ?_⟩
    · rw [h.job]
    · exact (hpaired.right _).coverThrough ((hpaired.left _).coverThrough h.device _ _) _ _

end Alike
end Job

/-! ## Streams -/

namespace Unpacking

variable {δ δ' : Type} {R : δ → δ' → Prop}

/-- Two unpackings that read the same streams for two jobs. -/
structure Alike (R : δ → δ' → Prop) (k : Unpacking δ) (k' : Unpacking δ') : Prop where
  unpacker : k'.unpacker = k.unpacker
  rest : k'.rest = k.rest
  status : k'.status = k.status
  excess : k'.excess = k.excess
  jobs : Job.Alike R k.job k'.job k.device k'.device

namespace Alike

variable {k : Unpacking δ} {k' : Unpacking δ'}

/-- They expect as many bytes. -/
theorem remaining (h : Alike R k k') : k'.job.remaining = k.job.remaining := by
  rw [h.jobs.job]

/-- They go on together. -/
theorem canGoOn (h : Alike R k k') : k'.canGoOn = k.canGoOn := by
  simp only [Unpacking.canGoOn, h.status, h.rest]

/-- They read on alike after the image. -/
theorem readTrailing (h : Alike R k k') : Alike R k.readTrailing k'.readTrailing := by
  simp only [Unpacking.readTrailing, h.canGoOn, h.remaining, h.unpacker, h.rest, h.excess]
  split
  · split
    · exact ⟨rfl, rfl, rfl, rfl, h.jobs⟩
    · exact ⟨rfl, rfl, rfl, rfl, h.jobs⟩
  · exact h

/-- They settle on the same. -/
theorem settle (h : Alike R k k') : k'.settle.1 = k.settle.1 ∧
    Job.Alike R k.settle.2.1 k'.settle.2.1 k.settle.2.2 k'.settle.2.2 := by
  simp only [Unpacking.settle, h.status, h.rest, h.excess, h.remaining, h.unpacker]
  refine ⟨trivial, ?_⟩
  split
  · exact h.jobs.note _
  · split
    · exact h.jobs.note _
    · split
      · exact h.jobs.note _
      · exact h.jobs

variable [FlashDevice δ] [FlashDevice δ'] (hpaired : Job.Paired R)

include hpaired in
/-- They stay alike when they hand over. -/
theorem handOver (h : Alike R k k') : Alike R k.handOver k'.handOver := by
  have hover : Job.Alike R k.handOver.job k'.handOver.job k.handOver.device k'.handOver.device := by
    show Job.Alike R (k.job.write .plain k.unpacker.output k.device).1
      (k'.job.write .plain k'.unpacker.output k'.device).1
      (k.job.write .plain k.unpacker.output k.device).2
      (k'.job.write .plain k'.unpacker.output k'.device).2
    rw [h.unpacker]
    exact h.jobs.write hpaired .plain k.unpacker.output
  refine ⟨?_, h.rest, h.status, ?_, hover⟩
  · show ({ k'.unpacker with held := 0 } : Unpacker) = { k.unpacker with held := 0 }
    rw [h.unpacker]
  · show (k'.excess || decide (k'.unpacker.held > k'.job.remaining.toNat))
      = (k.excess || decide (k.unpacker.held > k.job.remaining.toNat))
    rw [h.excess, h.unpacker, h.remaining]

include hpaired in
/-- So they do through a read. -/
theorem afterRead (h : Alike R k k') : Alike R k.afterRead k'.afterRead := by
  refine ⟨?_, ?_, ?_, h.excess, h.jobs.eraseAhead hpaired⟩
  · simp only [Unpacking.afterRead, h.unpacker, h.rest]
  · simp only [Unpacking.afterRead, h.unpacker, h.rest]
  · simp only [Unpacking.afterRead, h.unpacker, h.rest]

include hpaired in
/-- So they do through a cycle. -/
theorem cycle (h : Alike R k k') : Alike R k.cycle k'.cycle := by
  have hread := h.afterRead hpaired
  have hhands : k'.afterRead.handsOver = k.afterRead.handsOver := by
    simp only [handsOver, hread.status, hread.unpacker]
  rw [cycle_eq, cycle_eq, hhands]
  split
  · exact hread.handOver hpaired
  · exact hread

include hpaired in
/-- So they do through any number of cycles. -/
theorem cycleUpTo (n : Nat) (h : Alike R k k') : Alike R (k.cycleUpTo n) (k'.cycleUpTo n) := by
  induction n generalizing k k' with
  | zero => exact h
  | succ n ih =>
      simp only [Unpacking.cycleUpTo, h.canGoOn, h.remaining]
      split
      · exact ih (h.cycle hpaired)
      · exact h

end Alike
end Unpacking

/-- Both unpackers read a piece alike, and both jobs get the same of it. -/
theorem Job.Alike.unpack {δ δ' : Type} [FlashDevice δ] [FlashDevice δ'] {R : δ → δ' → Prop}
    (hpaired : Job.Paired R) {j j' : Job} {d : δ} {d' : δ'} (h : Job.Alike R j j' d d')
    (u : Unpacker) (piece : List UInt8) :
    (u.unpack j' piece d').1 = (u.unpack j piece d).1 ∧
      Job.Alike R (u.unpack j piece d).2.1 (u.unpack j' piece d').2.1 (u.unpack j piece d).2.2
        (u.unpack j' piece d').2.2 := by
  have hremaining : j'.remaining = j.remaining := by rw [h.job]
  simp only [Unpacker.unpack, hremaining]
  split
  · refine ⟨rfl, ?_⟩
    show Job.Alike R (if piece.isEmpty then j else j.note .excessData)
      (if piece.isEmpty then j' else j'.note .excessData) d d'
    split
    · exact h
    · exact h.note _
  · have hbegins : Unpacking.Alike R ⟨u, j, d, piece, .needsInput, false⟩
        ⟨u, j', d', piece, .needsInput, false⟩ := ⟨rfl, rfl, rfl, rfl, h⟩
    exact (hbegins.cycleUpTo hpaired _).readTrailing.settle

/-! ## Simulated devices -/

namespace Simulator

variable {capacity : Nat} {n n' : Nat} {s s' t t' : Simulator capacity}

/-- Two devices whose programs end the same way.  Of one the log after the first `n` calls and of
    the other that after the first `n'` shows the same programs. -/
structure Agree (n n' : Nat) (s s' : Simulator capacity) : Prop where
  conduct : s'.conduct = s.conduct
  calls_le : n ≤ s.calls.size
  calls_le' : n' ≤ s'.calls.size
  programs : (s'.callsSince n').filter DeviceCall.isProgram
    = (s.callsSince n).filter DeviceCall.isProgram

/-- From now on the logs show the same. -/
theorem Agree.now (h : s'.conduct = s.conduct) : Agree s.calls.size s'.calls.size s s' where
  conduct := h
  calls_le := Nat.le_refl _
  calls_le' := Nat.le_refl _
  programs := by rw [callsSince_size, callsSince_size]

/-- Calls that show the same programs are added to both logs. -/
theorem Agree.extend (h : Agree n n' s s') (hconduct : t'.conduct = t.conduct)
    {cs cs' : List DeviceCall} (hcalls : t.calls = s.calls ++ cs)
    (hcalls' : t'.calls = s'.calls ++ cs')
    (hsame : cs'.filter DeviceCall.isProgram = cs.filter DeviceCall.isProgram) :
    Agree n n' t t' where
  conduct := hconduct
  calls_le := le_size_of_append h.calls_le hcalls
  calls_le' := le_size_of_append h.calls_le' hcalls'
  programs := by
    rw [callsSince_append h.calls_le hcalls, callsSince_append h.calls_le' hcalls',
      List.filter_append, List.filter_append, h.programs, hsame]

/-- Agreement is kept by what devices do for a job. -/
theorem agree_paired (n n' : Nat) : Job.Paired (@Agree capacity n n') where
  left s' := by
    constructor
    · intro s h
      show Agree n n' s.poll.2 s'
      rw [poll_snd]
      exact { h with }
    · intro s p size h
      exact h.extend (h.conduct.trans (p.conduct_issue size s).symm) (p.calls_issue size s)
        Array.appendList_nil.symm rfl
  right s := by
    constructor
    · intro s' h
      show Agree n n' s s'.poll.2
      rw [poll_snd]
      exact { h with }
    · intro s' p size h
      exact h.extend ((p.conduct_issue size s').trans h.conduct) Array.appendList_nil.symm
        (p.calls_issue size s') rfl
  deliver := by
    rintro j j' s s' v ⟨hjob, h⟩
    obtain ⟨hend, hnext⟩ := Job.deliver_conduct j v s
    obtain ⟨hend', hnext'⟩ := Job.deliver_conduct j' v s'
    have hcursor : j'.cursor = j.cursor := by rw [hjob]
    rw [h.conduct, hcursor] at hend' hnext'
    constructor
    · rw [hend, hend', hjob]
      simp only [Job.note]
      split
      · rfl
      · split <;> rfl
    · refine h.extend (hnext'.trans hnext.symm) (Job.calls_deliver j v s)
        (Job.calls_deliver j' v s') ?_
      rw [hcursor]

end Simulator
end NorLoader
