import NorLoader.Proofs.Host.Isolation
import NorLoader.Proofs.Image.Imprint

/-!
# What the host sees of the time

How long the device takes and when there is an idle moment decide how far the erases of a job are
ahead of its data.  Nothing that the controller tells or shows depends on it: a run is told and
shows what the same run without its idle moments does, on a device with other latencies
(`watched_withoutIdle`).  It does show in the cells, but only until all bytes of the job are there
(`Twin`).
-/

namespace NorLoader

/-- Whether an event is an idle moment. -/
def Event.isIdle : Event → Bool
  | idle => true
  | _ => false

/-- There is one event that is idle. -/
theorem Event.isIdle_iff (e : Event) : e.isIdle = true ↔ e = .idle := by
  cases e <;> simp [isIdle]

/-- A run without its idle moments. -/
def withoutIdle (es : List Event) : List Event := es.filter fun e => !e.isIdle

/-- An idle event is left out. -/
theorem withoutIdle_of_idle {e : Event} (h : e.isIdle = true) (es : List Event) :
    withoutIdle (e :: es) = withoutIdle es := by
  simp [withoutIdle, h]

/-- Any other stays. -/
theorem withoutIdle_of_not_idle {e : Event} (h : e.isIdle = false) (es : List Event) :
    withoutIdle (e :: es) = e :: withoutIdle es := by
  simp [withoutIdle, h]

/-- No event is added. -/
theorem mem_of_mem_withoutIdle {e : Event} {es : List Event} (h : e ∈ withoutIdle es) : e ∈ es :=
  List.mem_of_mem_filter h

namespace Controller

/-- What can be asked of a controller at any time. -/
structure Shown where
  active : Bool
  cursor : UInt32
  remaining : UInt32
  error : Option JobError
  phase : StreamPhase
  taken : UInt32
  deriving DecidableEq, Repr

/-- What can be asked of a controller. -/
def shown {δ : Type} (c : Controller δ) : Shown where
  active := c.loader.job.active
  cursor := c.loader.job.cursor
  remaining := c.loader.job.remaining
  error := c.loader.job.error
  phase := c.loader.unpacker.phase
  taken := c.taken

variable {capacity : Nat}

/-- What the host is told in a run and what the controller shows then, at every event but the idle
    moments. -/
def watched (c : Controller (Simulator capacity)) : List Event → List (Option Answer × Shown)
  | [] => []
  | e :: es =>
      if e.isIdle then (c.after e).watched es
      else (c.answer? e, (c.after e).shown) :: (c.after e).watched es

/-- Whenever a job is opened in a run, and at its end, no bytes of the job before are missing. -/
def Completes (c : Controller (Simulator capacity)) : List Event → Prop
  | [] => c.loader.job.remaining = 0
  | e :: es => (e.opens = true → c.loader.job.remaining = 0) ∧ (c.after e).Completes es

/-- A run can be asked at every opening whether it completes. -/
instance decidableCompletes (c : Controller (Simulator capacity)) :
    (es : List Event) → Decidable (c.Completes es)
  | [] => inferInstanceAs (Decidable (c.loader.job.remaining = 0))
  | e :: es =>
      have := (c.after e).decidableCompletes es
      inferInstanceAs (Decidable ((e.opens = true → c.loader.job.remaining = 0) ∧ _))

/-! ## Idle moments on one side -/

namespace Alike

variable {n n' : Nat} {c c' : Controller (Simulator capacity)}

/-- Controllers that are alike show the same. -/
theorem shown (h : Alike n n' c c') : c'.shown = c.shown := by
  rw [Controller.shown, h.taken, h.unpacker, h.jobs.job]
  rfl

/-- They expect as many bytes. -/
theorem remaining (h : Alike n n' c c') : c'.loader.job.remaining = c.loader.job.remaining :=
  congrArg Shown.remaining h.shown

/-- An idle moment that only one of them has. -/
theorem idle_left (h : Alike n n' c c') : Alike n n' (c.after .idle) c' := by
  have hpaired := @Simulator.agree_paired capacity n n'
  rw [after_idle]
  split
  · refine ⟨h.taken, h.route, h.unpacker, ?_, (hpaired.left _).eraseAhead h.jobs.device _⟩
    rw [h.jobs.job]
    rfl
  · exact h

/-- What is told and shown does not depend on the idle moments. -/
theorem watched_withoutIdle (h : Alike n n' c c') (es : List Event) :
    c'.watched (withoutIdle es) = c.watched es := by
  induction es generalizing c c' with
  | nil => rfl
  | cons e es ih =>
      cases hidle : e.isIdle with
      | true =>
          obtain rfl := e.isIdle_iff.mp hidle
          rw [withoutIdle_of_idle hidle]
          exact ih h.idle_left
      | false =>
          obtain ⟨hanswer, hafter⟩ := h.after e
          rw [withoutIdle_of_not_idle hidle, watched, watched, hidle, hanswer, hafter.shown,
            ih hafter]

/-- Nor does it which jobs get all their bytes. -/
theorem completes_withoutIdle (h : Alike n n' c c') (es : List Event) :
    c'.Completes (withoutIdle es) ↔ c.Completes es := by
  induction es generalizing c c' with
  | nil =>
      show c'.loader.job.remaining = 0 ↔ _
      rw [h.remaining]
      rfl
  | cons e es ih =>
      cases hidle : e.isIdle with
      | true =>
          obtain rfl := e.isIdle_iff.mp hidle
          rw [withoutIdle_of_idle hidle, Completes, ih h.idle_left]
          exact ⟨fun hrest => ⟨nofun, hrest⟩, And.right⟩
      | false =>
          rw [withoutIdle_of_not_idle hidle, Completes, Completes, ih (h.after e).2, h.remaining]

end Alike

/-! ## The cells -/

/-- Two controllers in step whose cells come to be the same: either they are and no job is open,
    or both jobs make the same of what were the same cells. -/
inductive Twin (c c' : Controller (Simulator capacity)) : Prop
  | closed {n n' : Nat} (alike : Alike n n' c c')
      (lasting : c.loader.device.faults.nextProgram = false)
      (inactive : c.loader.job.active = false)
      (cells : c'.loader.device.cells = c.loader.device.cells)
  | opened {n n' : Nat} {offset size : UInt32} {t : Simulator.Conduct} {was : Cells capacity}
      {w w' : List Delivery} (alike : Alike n n' c c') (span : OnDevice capacity offset size)
      (fits : Fits capacity offset.toNat size.toNat)
      (lasting : t.faults.nextProgram = false)
      (left : c.loader.job.Imprinted offset size n t was w c.loader.device)
      (right : c'.loader.job.Imprinted offset size n' t was w' c'.loader.device)

/-- What a request to open a job makes of the cells later. -/
theorem Opens.imprinted {r : Request} {size offset : UInt32}
    {c c' : Controller (Simulator capacity)} (h : Opens r size offset c c')
    (hfresh : c'.loader.job = .fresh size offset) :
    c'.loader.job.Imprinted offset size c.loader.device.calls.size c.loader.device.conduct
      c.loader.device.cells [] c'.loader.device := by
  rw [hfresh, ← h.conduct, ← h.cells]
  refine Job.Imprinted.fresh offset size (Simulator.le_size_of_append (Nat.le_refl _) h.calls) ?_
  rw [Simulator.callsSince_of_append h.calls]
  rfl

/-- Nothing that happens in a session leaves other marks on the cells. -/
theorem imprinted_upkeep {offset size : UInt32} {t : Simulator.Conduct}
    (hspan : OnDevice capacity offset size) (hfits : Fits capacity offset.toNat size.toNat)
    (hlasting : t.faults.nextProgram = false) (calls : Nat) (was : Cells capacity) :
    @SteadyUpkeep capacity (Job.Imprinted offset size calls t was) where
  toUpkeep := Job.Imprinted.upkeep hspan hfits hlasting calls was
  close h _ := { h with placed := { h.placed with }, logged := { h.logged with } }

namespace Twin

variable {c c' : Controller (Simulator capacity)}

/-- Twins are alike. -/
theorem alike (h : Twin c c') : ∃ n n', Alike n n' c c' := by
  cases h with
  | closed halike => exact ⟨_, _, halike⟩
  | opened halike => exact ⟨_, _, halike⟩

/-- Twins have lasting faults only. -/
theorem lasting (h : Twin c c') : c.loader.device.faults.nextProgram = false := by
  cases h with
  | closed _ hlasting => exact hlasting
  | opened _ _ _ hlasting hleft =>
      exact (congrArg (fun t => t.faults.nextProgram) hleft.conduct).trans hlasting

/-- With all bytes of the open job there, the cells are the same. -/
theorem cells_eq (h : Twin c c') (hremaining : c.loader.job.remaining = 0) :
    c'.loader.device.cells = c.loader.device.cells := by
  cases h with
  | closed _ _ _ hcells => exact hcells
  | opened halike hspan _ _ hleft hright =>
      have hremaining' := halike.remaining.trans hremaining
      -- the logs show the same programs, so the deliveries were the same
      have hdelivered := placements_injective <| hright.logged.programs.symm.trans <|
        halike.jobs.device.programs.trans hleft.logged.programs
      rw [hleft.cells_of_complete hspan hremaining, hright.cells_of_complete hspan hremaining',
        hdelivered]

/-- A job is opened by both, when the one before has all its bytes. -/
theorem opening (h : Twin c c') {r : Request} {size offset : UInt32}
    (hr : r.span? = some (size, offset)) (hspan : OnDevice capacity offset size)
    (hfits : Fits capacity offset.toNat size.toNat) (hremaining : c.loader.job.remaining = 0) :
    Twin (c.after (.request r)) (c'.after (.request r)) := by
  have hcells := h.cells_eq hremaining
  have hlasting := h.lasting
  obtain ⟨n, n', halike⟩ := h.alike
  have hconduct := halike.jobs.device.conduct
  obtain ⟨-, hopened⟩ := alike_opening (Simulator.Agree.now hconduct)
    (congrArg Unpacker.window halike.unpacker) hr
  have hopens := c.after_opening hr
  have hopens' := c'.after_opening hr
  rcases hopens.job with ⟨-, hjob, -⟩ | ⟨hfree, hjob, -⟩
  · refine .closed hopened ?_ ?_ ?_
    · exact (congrArg (fun t => t.faults.nextProgram) hopens.conduct).trans hlasting
    · rw [hjob]
      rfl
    · rw [hopens.cells, hopens'.cells, hcells]
  · have hfree' : c'.loader.device.faults.unlock = false :=
      (congrArg (fun t => t.faults.unlock) hconduct).trans hfree
    obtain ⟨hjob', -⟩ := hopens'.job_eq
    rw [hfree'] at hjob'
    have hright := hopens'.imprinted hjob'
    rw [hconduct, hcells] at hright
    exact .opened hopened hspan hfits hlasting (hopens.imprinted hjob) hright

/-- An idle moment of one of them does not tell them apart. -/
theorem idle_left (h : Twin c c') : Twin (c.after .idle) c' := by
  cases h with
  | closed halike hlasting hinactive hcells =>
      have hsame : c.after .idle = c := by
        rw [after_idle, hinactive]
        rfl
      rw [hsame]
      exact .closed halike hlasting hinactive hcells
  | opened halike hspan hfits hlasting hleft hright =>
      obtain ⟨_, -, hleft⟩ :=
        (imprinted_upkeep hspan hfits hlasting _ _).after (e := .idle) rfl rfl hleft
      exact .opened halike.idle_left hspan hfits hlasting hleft hright

/-- One event of a session on both sides. -/
theorem within (h : Twin c c') {e : Event} (he : e.opens = false) (hs : e.switches = false) :
    Twin (c.after e) (c'.after e) := by
  cases h with
  | closed halike hlasting hinactive hcells =>
      have hinactive' : c'.loader.job.active = false := by
        rw [halike.jobs.job]
        exact hinactive
      have hfaults := congrArg (fun t => t.faults.nextProgram) (conduct_after_of_lasting hlasting hs)
      obtain ⟨faults, hsame⟩ := c.after_of_inactive he hinactive
      obtain ⟨faults', hsame'⟩ := c'.after_of_inactive he hinactive'
      refine .closed (halike.after e).2 (hfaults.trans hlasting) ?_ ?_
      · rw [hsame]
        exact hinactive
      · rw [hsame, hsame']
        exact hcells
  | opened halike hspan hfits hlasting hleft hright =>
      obtain ⟨_, -, hleft⟩ := (imprinted_upkeep hspan hfits hlasting _ _).after he hs hleft
      obtain ⟨_, -, hright⟩ := (imprinted_upkeep hspan hfits hlasting _ _).after he hs hright
      exact .opened (halike.after e).2 hspan hfits hlasting hleft hright

/-- A run in which every job gets all its bytes leaves the cells that it leaves without its idle
    moments. -/
theorem cells_withoutIdle (hsectors : sectorSize ∣ capacity) (h : Twin c c') (es : List Event)
    (hsteady : ∀ e ∈ withoutIdle es, e.switches = false)
    (hspans : ∀ r size offset, .request r ∈ withoutIdle es → r.span? = some (size, offset) →
      OnDevice capacity offset size ∧ offset.toNat + size.toNat ≤ 2 ^ 32) (hcompletes : c'.Completes (withoutIdle es)) :
    (c'.run (withoutIdle es)).loader.device.cells = (c.run es).loader.device.cells := by
  induction es generalizing c c' with
  | nil =>
      obtain ⟨n, n', halike⟩ := h.alike
      have hremaining : c'.loader.job.remaining = 0 := hcompletes
      rw [halike.remaining] at hremaining
      exact h.cells_eq hremaining
  | cons e es ih =>
      cases hidle : e.isIdle with
      | true =>
          obtain rfl := e.isIdle_iff.mp hidle
          rw [withoutIdle_of_idle hidle] at hsteady hspans hcompletes ⊢
          exact ih h.idle_left hsteady hspans hcompletes
      | false =>
          rw [withoutIdle_of_not_idle hidle] at hsteady hspans hcompletes ⊢
          obtain ⟨hs, hsteady⟩ := List.forall_mem_cons.mp hsteady
          obtain ⟨hcomplete, hcompletes⟩ := hcompletes
          have hrest : ∀ r size offset, .request r ∈ withoutIdle es →
              r.span? = some (size, offset) →
              OnDevice capacity offset size ∧ offset.toNat + size.toNat ≤ 2 ^ 32 := by
            intro r size offset hmem
            exact hspans r size offset (List.mem_cons_of_mem e hmem)
          -- the next job finds the same cells, since the one before is complete
          have hstep : Twin (c.after e) (c'.after e) := by
            cases he : e.opens with
            | false => exact h.within he hs
            | true =>
                obtain ⟨r, size, offset, rfl, hr⟩ := e.opens_iff.mp he
                obtain ⟨n, n', halike⟩ := h.alike
                have hremaining := hcomplete he
                rw [halike.remaining] at hremaining
                obtain ⟨hspan, haddressable⟩ := hspans r size offset List.mem_cons_self hr
                exact h.opening hr hspan (hspan.fits hsectors haddressable) hremaining
          exact ih hstep hsteady hrest hcompletes

end Twin

/-! ## Two runs -/

/-- Latencies and idle moments are hidden from the host.  Two runs of the same requests, with faults
    switched at the same points if at all, are told and show the same at every event, on devices
    that differ in their latencies and with idle moments at other points.  If nothing but lasting
    faults is on, if every span lies on the device and ends where addresses do, and if every job has
    all its bytes before the next one and at the end, the runs leave the same cells as well. -/
theorem timing_hidden (d d' : Simulator capacity) (hfaults : d'.faults = d.faults)
    (hunit : d'.encrypts = d.encrypts) (es es' : List Event)
    (hsame : withoutIdle es' = withoutIdle es) :
    (powerOn d').watched es' = (powerOn d).watched es ∧
      (sectorSize ∣ capacity → d'.cells = d.cells → d.faults.nextProgram = false →
        (∀ e ∈ es, e.switches = false) →
        (∀ r size offset, .request r ∈ es → r.span? = some (size, offset) →
          OnDevice capacity offset size ∧ offset.toNat + size.toNat ≤ 2 ^ 32) →
        (powerOn d).Completes es →
        ((powerOn d').run es').loader.device.cells = ((powerOn d).run es).loader.device.cells) := by
  let c := powerOn d
  let c' := powerOn d'
  -- either run is compared to the one that the second device makes of the requests alone
  have hconduct : d'.conduct = d.conduct := by
    rw [Simulator.conduct, Simulator.conduct, hfaults, hunit]
  have halike : Alike d.calls.size d'.calls.size c c' :=
    ⟨rfl, rfl, rfl, rfl, Simulator.Agree.now hconduct⟩
  have hself : Alike d'.calls.size d'.calls.size c' c' :=
    ⟨rfl, rfl, rfl, rfl, Simulator.Agree.now rfl⟩
  constructor
  · rw [← halike.watched_withoutIdle es, ← hself.watched_withoutIdle es', hsame]
  · intro hsectors hcells hlasting hsteady hspans hcompletes
    have hsteady : ∀ e ∈ withoutIdle es, e.switches = false := by
      intro e he
      exact hsteady e (mem_of_mem_withoutIdle he)
    have hspans : ∀ r size offset, .request r ∈ withoutIdle es → r.span? = some (size, offset) →
        OnDevice capacity offset size ∧ offset.toNat + size.toNat ≤ 2 ^ 32 := by
      intro r size offset hmem
      exact hspans r size offset (mem_of_mem_withoutIdle hmem)
    have hcompletes := (halike.completes_withoutIdle es).mpr hcompletes
    have htwin : Twin c c' := .closed halike hlasting rfl hcells
    have htwin' : Twin c' c' := .closed hself ((congrArg _ hfaults).trans hlasting) rfl rfl
    have hleft := htwin.cells_withoutIdle hsectors es hsteady hspans hcompletes
    rw [← hsame] at hsteady hspans hcompletes hleft
    have hright := htwin'.cells_withoutIdle hsectors es' hsteady hspans hcompletes
    exact hright.symm.trans hleft

/-- Two jobs, one behind the other and over a sector border.  The second device takes its time and
    is idle at other moments. -/
theorem timing_hidden_over_border :
    let d : Simulator 8192 := { encrypts := true }
    let d' : Simulator 8192 := { encrypts := true, eraseTime := 3, programTime := 2 }
    let block (kind : BlockKind) (seq : UInt32) (payload : List UInt8) : Event :=
      .request (.data ⟨kind, seq, Crc32.checksum payload, payload⟩)
    let es : List Event := [.request (.start 5 4094), block .plain 0 [1, 2, 3], .idle,
      block .plain 1 [4, 5, 6], .request .finish, .request (.start 2 4095),
      block .encrypted 0 [7, 8], .request .finish]
    let es' : List Event := [.request (.start 5 4094), .idle, .idle, block .plain 0 [1, 2, 3],
      block .plain 1 [4, 5, 6], .request .finish, .idle, .request (.start 2 4095),
      block .encrypted 0 [7, 8], .idle, .request .finish]
    (powerOn d).Completes es ∧ (powerOn d').watched es' = (powerOn d).watched es ∧
      ((powerOn d').run es').loader.device.cells = ((powerOn d).run es).loader.device.cells := by
  intro d d' block es es'
  obtain ⟨hwatched, hcells⟩ := timing_hidden d d' rfl rfl es es' rfl
  have hcompletes : (powerOn d).Completes es := by decide +kernel
  refine ⟨hcompletes, hwatched, hcells ⟨2, rfl⟩ rfl rfl (by decide) ?_ hcompletes⟩
  intro r size offset hmem hr
  simp only [es, block, List.mem_cons, Event.request.injEq, reduceCtorEq, false_or,
    List.not_mem_nil, or_false] at hmem
  rcases hmem with rfl | rfl | rfl | rfl | rfl | rfl | rfl <;> cases hr
  · exact ⟨⟨by decide, by decide⟩, by decide⟩
  · exact ⟨⟨by decide, by decide⟩, by decide⟩

/-- A plain block that the job has room for is programmed when it is taken. -/
theorem isProgrammed_after {c : Controller (Simulator capacity)} {b : DataBlock}
    (hfaults : c.loader.device.faults = {}) (htaken : c.taken? (.request (.data b)) = some b)
    (hkind : b.kind = .plain) (hall : c.loader.job.accepted b.payload = b.payload)
    (hinside : c.loader.job.cursor.toNat + b.payload.length ≤ capacity) {a : Nat}
    (ha : a < capacity) (hfrom : c.loader.job.cursor.toNat ≤ a)
    (hto : a < c.loader.job.cursor.toNat + b.payload.length) :
    ((c.after (.request (.data b))).loader.device.cells[a]).isProgrammed = true := by
  obtain ⟨route, -, hnext⟩ := after_of_taken htaken
  have hdevice : (c.after (.request (.data b))).loader.device
      = (c.loader.job.write .plain b.payload c.loader.device).2 := by
    rw [hnext, hkind]
    rfl
  simp only [hdevice]
  exact c.loader.job.isProgrammed_write hfaults hall hinside ha hfrom hto

/-- An idle moment clears a unit from where the plan sends its next erase, whatever is there. -/
theorem erased_after_idle {c : Controller (Simulator capacity)} (unit : EraseSize)
    (hactive : c.loader.job.active = true) (hnext : c.loader.job.plan.nextSize = some unit)
    (hready : (FlashDevice.poll c.loader.device).1 = true) {a : Nat} (ha : a < capacity)
    (hinside : c.loader.job.plan.nextAddress.toNat + unit.bytes ≤ capacity)
    (hfrom : c.loader.job.plan.nextAddress.toNat ≤ a)
    (hto : a < c.loader.job.plan.nextAddress.toNat + unit.bytes) :
    (c.after .idle).loader.device.cells[a] = .erased := by
  have hdevice : (c.after .idle).loader.device
      = (c.loader.job.plan.issue unit (FlashDevice.poll c.loader.device).2).2 := by
    rw [after_idle, if_pos hactive]
    show (c.loader.job.plan.issueIfIdle c.loader.device).2.2 = _
    simp only [ErasePlan.issueIfIdle, hnext, hready, if_true]
  simp only [hdevice]
  rw [ErasePlan.cells_issue _ _ _ _ ha, if_pos ⟨hinside, hfrom, hto⟩]

/-- A span that goes past the last address by one byte, on a device that has a cell for it.  Its second
    sector has no address, and the erase for it is sent to the last address.  The data does not wait
    for that erase, but a moment without requests has it issued after all, over the data. -/
theorem timing_shows_past_last_address :
    let d : Simulator (2 ^ 32 + sectorSize) := {}
    let block : DataBlock := ⟨.plain, 0, Crc32.checksum [1, 2], [1, 2]⟩
    let opening : Event := .request (.start 2 0xFFFFFFFF)
    let es : List Event := [opening, .request (.data block), .request .finish]
    let es' : List Event := [opening, .request (.data block), .idle, .request .finish]
    sectorSize ∣ 2 ^ 32 + sectorSize ∧ withoutIdle es' = withoutIdle es ∧
      OnDevice (2 ^ 32 + sectorSize) 0xFFFFFFFF 2 ∧
      (powerOn d).Completes es ∧ (powerOn d).Completes es' ∧
      ((powerOn d).run es').loader.device.cells ≠ ((powerOn d).run es).loader.device.cells := by
  intro d block opening es es'
  refine ⟨⟨2 ^ 20 + 1, rfl⟩, rfl, ⟨by decide, by decide⟩, by decide +kernel, by decide +kernel, ?_⟩
  let opened := (powerOn d).after opening
  let c := opened.after (.request (.data block))
  have hlast : 0xFFFFFFFF < 2 ^ 32 + sectorSize := by decide
  have hprogrammed : (c.loader.device.cells[0xFFFFFFFF]).isProgrammed = true :=
    isProgrammed_after (c := opened) (b := block) rfl (by decide +kernel) rfl (by decide +kernel)
      (by decide +kernel) hlast (by decide +kernel) (by decide +kernel)
  have herased : (c.after .idle).loader.device.cells[0xFFFFFFFF] = .erased :=
    erased_after_idle .sector (by decide +kernel) (by decide +kernel) (by decide +kernel)
      hlast (by decide +kernel) (by decide +kernel) (by decide +kernel)
  intro heq
  have hsame : (c.after .idle).loader.device.cells = c.loader.device.cells := heq
  have hcell : (c.after .idle).loader.device.cells[0xFFFFFFFF]
      = c.loader.device.cells[0xFFFFFFFF] := by rw [hsame]
  rw [← hcell, herased] at hprogrammed
  exact nomatch hprogrammed

end Controller
end NorLoader
