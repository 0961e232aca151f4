import NorLoader.Proofs.Image.CallRecord
import NorLoader.Proofs.Image.CheckedCalls

/-!
# The counters of a loader

An opening takes every size and every offset, spans that go past the last address included, so what
keeps the counters from wrapping has to come from the opening itself.  The end of the new plan is computed
in more than 32 bits, and the furthest that two words can put it is sector 2^21 (`ErasePlan.endSector_le`).
From then on an erase moves the first sector up by what it takes off the count (`ErasePlan.Erased`), so
the end stays where it is until the next opening, far below the top of a word.  With that every check in
`Checked.call` passes, in every call of every run (`Loader.counters_exact`).
-/

namespace NorLoader

namespace ErasePlan

/-- Offset and size are words, so no span ends past that sector. -/
theorem endSector_le (offset size : UInt32) : endSector offset.toNat size.toNat ≤ 2 ^ 21 := by
  have hoffset := offset.toNat_lt
  have hsize := size.toNat_lt
  simp only [endSector, sectorSize]
  omega

/-- What is left of a plan once `n` of its sectors were erased. -/
structure Erased (p : ErasePlan) (n : Nat) (q : ErasePlan) : Prop where
  first : q.first.toNat = p.first.toNat + n
  count : q.count.toNat + n = p.count.toNat

namespace Erased

variable {p q : ErasePlan} {n : Nat}

/-- Nothing is erased yet. -/
theorem refl (p : ErasePlan) : p.Erased 0 p := ⟨rfl, rfl⟩

/-- An erase leaves the end of the plan alone. -/
theorem lastSector (h : p.Erased n q) : q.lastSector = p.lastSector := by
  have hfirst := h.first
  have hcount := h.count
  simp only [ErasePlan.lastSector]
  omega

/-- An erase counts its sectors. -/
theorem after (h : p.Erased n q) (hend : p.lastSector < 2 ^ 32) {size : EraseSize}
    (hnext : q.nextSize = some size) : p.Erased (n + size.sectors) (q.after size) where
  first := by
    rw [toNat_first_after hnext (h.lastSector.trans_lt hend), h.first, Nat.add_assoc]
  count := by
    have hle := (nextSize_some hnext).1
    rw [toNat_count_after hnext, ← h.count]
    omega

end Erased
end ErasePlan

/-- How many sectors were erased in some calls. -/
def sectorsErased (calls : List DeviceCall) : Nat := ((erasesOf calls).map fun e => e.2.sectors).sum

/-- Sectors count call by call. -/
theorem sectorsErased_append (calls calls' : List DeviceCall) :
    sectorsErased (calls ++ calls') = sectorsErased calls + sectorsErased calls' := by
  rw [sectorsErased, erasesOf_append, List.map_append, List.sum_append]
  rfl

/-- The record of a device tells how far a plan is. -/
theorem Job.erased_upkeep {δ : Type} [FlashDevice δ] {log : δ → List DeviceCall} (hlog : CallLog log)
    {p : ErasePlan} (hend : p.lastSector < 2 ^ 32) :
    Upkeep fun _ j d => p.Erased (sectorsErased (log d)) j.plan where
  poll := by
    intro w j d h
    rw [hlog.poll]
    exact h
  issue := by
    intro w j d unit h hunit
    rw [hlog.issue, sectorsErased_append]
    exact h.after hend hunit
  deliver := by
    intro w j d v h _ _ _
    have hnone : sectorsErased (Simulator.programCalls v.storage j.cursor v.bytes) = 0 := by
      rw [sectorsErased, erasesOf_programCalls]
      rfl
    rw [hlog.deliver, sectorsErased_append, hnone, (j.kept_deliver v d).1]
    exact h
  note := by
    intro w j d e h
    rw [plan_note]
    exact h

/-- Closing a job leaves its plan alone. -/
theorem Job.plan_finish (j : Job) : j.finish.2.plan = j.plan := by
  simp only [finish]
  split
  · rfl
  · split <;> rfl

namespace Loader

variable {δ : Type} [FlashDevice δ]

/-! ## What holds in a run -/

/-- From any state in which no word wraps, the calls up to the next opening move both counters of the
    plan by the sectors that are erased in them. -/
theorem erased_calls (l : Loader δ) (hend : l.job.plan.lastSector < 2 ^ 32) {cs : List LoaderCall}
    (hcs : ∀ c ∈ cs, c.span? = none) :
    let t := l.recorded.calls cs
    l.job.plan.Erased (sectorsErased t.device.calls) t.job.plan := by
  obtain ⟨_, herased⟩ := calls_upkeep (w := []) (l := l.recorded)
    (Job.erased_upkeep Recorder.callLog hend)
    (fun {w j d} h => by rw [j.plan_finish]; exact h) (ErasePlan.Erased.refl l.job.plan) hcs
  exact herased

/-- The plan ends within the reach of two words, and there is room in the window. -/
structure Counting (l : Loader δ) : Prop where
  lastSector : l.job.plan.lastSector ≤ 2 ^ 21
  held : l.unpacker.held < windowSize

namespace Counting

variable {l : Loader δ}

omit [FlashDevice δ] in
/-- The end of the plan is a word. -/
theorem fits (h : l.Counting) : l.job.plan.lastSector < 2 ^ 32 :=
  h.lastSector.trans_lt (by decide)

omit [FlashDevice δ] in
/-- Before the first call there is nothing to count. -/
theorem powerOn (d : δ) : Counting { device := d } where
  lastSector := Nat.zero_le _
  held := Nat.zero_lt_succ _

/-- Every call keeps count. -/
theorem call (h : l.Counting) (c : LoaderCall) : (l.call c).Counting where
  lastSector := by
    cases hspan : c.span? with
    | some span =>
        rcases l.call_opening hspan with hidle | hfresh
        · rw [hidle]
          exact Nat.zero_le _
        · rw [hfresh]
          exact (ErasePlan.lastSector_ofSpan span.2 span.1).trans_le (ErasePlan.endSector_le _ _)
    | none =>
        -- the same call on a device with a record tells what became of the plan
        have herased := l.erased_calls h.fits (List.forall_mem_singleton.mpr hspan)
        have hsame : (l.recorded.calls [c]).job = (l.call c).job :=
          congrArg Loader.job (map_recorded l [c])
        rw [← hsame, herased.lastSector]
        exact h.lastSector
  held := by
    cases c with
    | start => exact Nat.zero_lt_succ _
    | startPacked => exact Nat.zero_lt_succ _
    | write => exact h.held
    | unpack piece => exact Unpacker.held_unpack_lt h.held l.job piece l.device
    | eraseAhead => exact h.held
    | finish => exact h.held

/-- So do any number of calls. -/
theorem calls (h : l.Counting) (cs : List LoaderCall) : (l.calls cs).Counting := by
  induction cs generalizing l with
  | nil => exact h
  | cons c cs ih => exact ih (h.call c)

/-- Calls that keep count pass their checks. -/
theorem checked_calls [Platform] (h : l.Counting) (cs : List LoaderCall) :
    Checked.calls l cs = some (l.calls cs) := by
  induction cs generalizing l with
  | nil => rfl
  | cons c cs ih =>
      rw [Checked.calls, List.foldlM_cons, Checked.call_eq h.fits h.held c]
      exact ih (h.call c)

end Counting

/-! ## Every run -/

/-- Whatever calls are made of a loader, on any platform and device and with any spans and sizes, the
    checks of `Checked.calls` pass: neither the words of the plan nor the remaining bytes nor what is held ever
    wrap, and no count loses anything when it is made a word.  The plan ends at sector 2^21 at the latest.
    Up to the next opening its end stays where it is: the first sector goes up, and the count of those
    that are left goes down, by the sectors that the device was told to erase. -/
theorem counters_exact [Platform] (d : δ) (cs later : List LoaderCall) (hlater : ∀ c ∈ later, c.span? = none) :
    let l := calls { device := d } cs
    let t := l.recorded.calls later
    let erased := sectorsErased t.device.calls
    Checked.calls { device := d } cs = some l ∧
      l.job.plan.first.toNat + l.job.plan.count.toNat ≤ 2 ^ 21 ∧
      t.map Recorder.device = l.calls later ∧
      t.job.plan.first.toNat + t.job.plan.count.toNat
        = l.job.plan.first.toNat + l.job.plan.count.toNat ∧
      t.job.plan.first.toNat = l.job.plan.first.toNat + erased ∧
      t.job.plan.count.toNat + erased = l.job.plan.count.toNat := by
  intro l t erased
  have hstart := Counting.powerOn d
  have hcounting : l.Counting := hstart.calls cs
  have herased : l.job.plan.Erased erased t.job.plan := l.erased_calls hcounting.fits hlater
  exact ⟨hstart.checked_calls cs, hcounting.lastSector, map_recorded l later, herased.lastSector,
    herased.first, herased.count⟩

/-- The largest span at the last address, of which ten bytes were unpacked: its plan ends at sector 2^21.
    The sector of that address is erased by then, and the next erase is a block without an address. -/
theorem counters_exact_beyond_last :
    let _ : Platform := .board
    let d : Simulator 8192 := {}
    let cs : List LoaderCall := [.startPacked 0xFFFFFFFF 11 0xFFFFFFFF,
      .unpack [0x78, 0x9C, 0x4B, 0x4C, 0x84, 0x01, 0x00, 0x14, 0xE1, 0x03, 0xCB]]
    let later : List LoaderCall := [.eraseAhead]
    let l := calls { device := d } cs
    let t := l.recorded.calls later
    let erased := sectorsErased t.device.calls
    Checked.calls { device := d } cs = some l ∧
      l.job.plan.first.toNat + l.job.plan.count.toNat = 2 ^ 21 ∧
      t.job.plan.first.toNat = l.job.plan.first.toNat + erased ∧
      t.job.plan.count.toNat + erased = l.job.plan.count.toNat ∧
      erased = 16 ∧ l.job.remaining = 0xFFFFFFF5 := by
  intro board d cs later
  obtain ⟨hchecked, -, -, -, hfirst, hcount⟩ := counters_exact d cs later (by decide)
  exact ⟨hchecked, by decide +kernel, hfirst, hcount, by decide +kernel, by decide +kernel⟩

end Loader
end NorLoader
