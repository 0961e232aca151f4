import NorLoader.Image.Loader
import NorLoader.Proofs.Image.Lockstep

/-!
# Jobs that are not open

None of the calls that write asks whether the job is open; that is left to the caller.  What keeps
them from the device all the same is that a job which is not open has no bytes left to take
(`Job.closed_upkeep`), and that its plan is used up with its last byte (`Job.Spent`): so there is
nothing to program and nothing to erase.  Only the plan of an empty span inside a sector, or of one
that goes past the last address, can outlast its job.
-/

namespace NorLoader

/-! ## Calls -/

/-- What can be asked of a loader. -/
inductive LoaderCall where
  | start (size offset : UInt32)
  | startPacked (size packedSize offset : UInt32)
  | write (storage : Storage) (data : List UInt8)
  | unpack (piece : List UInt8)
  | eraseAhead
  | finish
  deriving DecidableEq, Repr

/-- Size and offset of the job that a call is to open. -/
def LoaderCall.span? : LoaderCall → Option (UInt32 × UInt32)
  | start size offset => some (size, offset)
  | startPacked size _ offset => some (size, offset)
  | _ => none

/-- Some calls have a last one that opens a job, unless none of them does. -/
theorem LoaderCall.last_opening (cs : List LoaderCall) : (∀ c ∈ cs, c.span? = none) ∨
    ∃ before opening after size offset, cs = before ++ opening :: after ∧
      opening.span? = some (size, offset) ∧ ∀ c ∈ after, c.span? = none := by
  induction cs with
  | nil => exact Or.inl nofun
  | cons c cs ih =>
      rcases ih with hnone | ⟨before, opening, after, size, offset, rfl, hspan, hafter⟩
      · cases hc : c.span? with
        | none => exact Or.inl (List.forall_mem_cons.mpr ⟨hc, hnone⟩)
        | some span => exact Or.inr ⟨[], c, cs, span.1, span.2, rfl, hc, hnone⟩
      · exact Or.inr ⟨c :: before, opening, after, size, offset, rfl, hspan, hafter⟩

variable {δ ρ : Type} [StreamReader ρ] [FlashDevice δ]

namespace Loader

/-- What a call leaves. -/
def call (l : Loader δ ρ) : LoaderCall → Loader δ ρ
  | .start size offset => (l.start size offset).2
  | .startPacked size packedSize offset => (l.startPacked size packedSize offset).2
  | .write storage data => l.write storage data
  | .unpack piece => l.unpack piece
  | .eraseAhead => l.eraseAhead.2
  | .finish => l.finish.2

/-- What some calls leave, one after the other. -/
def calls (l : Loader δ ρ) (cs : List LoaderCall) : Loader δ ρ := cs.foldl call l

/-- The last of some calls comes after all others. -/
theorem calls_concat (l : Loader δ ρ) (cs : List LoaderCall) (c : LoaderCall) :
    l.calls (cs ++ [c]) = (l.calls cs).call c := by
  rw [calls, calls, List.foldl_append, List.foldl_cons, List.foldl_nil]

/-- An opening leaves no job or a fresh one. -/
theorem call_opening (l : Loader δ ρ) {c : LoaderCall} {size offset : UInt32}
    (h : c.span? = some (size, offset)) :
    (l.call c).job = .idle ∨ (l.call c).job = .fresh size offset := by
  have hstart (d : δ) : (Job.start size offset d).2.1 = .idle ∨
      (Job.start size offset d).2.1 = .fresh size offset := by
    simp only [Job.start]
    split
    · exact Or.inr rfl
    · exact Or.inl rfl
  cases c with
  | start => cases h; exact hstart l.device
  | startPacked => cases h; exact hstart l.device
  | write => exact nomatch h
  | unpack => exact nomatch h
  | eraseAhead => exact nomatch h
  | finish => exact nomatch h

/-- What a job keeps up, and keeps when it is closed, it keeps in every call that opens no other. -/
theorem call_upkeep {P : List Delivery → Job → δ → Prop} (h : Job.Upkeep P)
    (hclose : ∀ {w j d}, P w j d → P w j.finish.2 d) {w : List Delivery} {l : Loader δ ρ}
    (hp : P w l.job l.device) {c : LoaderCall} (hc : c.span? = none) :
    ∃ vs, P (w ++ vs) (l.call c).job (l.call c).device := by
  cases c with
  | start => exact nomatch hc
  | startPacked => exact nomatch hc
  | write storage data => exact ⟨_, h.write hp storage data⟩
  | unpack piece =>
      obtain ⟨vs, -, hunpacked⟩ := h.unpack l.unpacker hp piece
      exact ⟨vs, hunpacked⟩
  | eraseAhead => exact ⟨[], by rw [List.append_nil]; exact h.eraseAhead hp⟩
  | finish => exact ⟨[], by rw [List.append_nil]; exact hclose hp⟩

/-- Any calls keep it, if closing the job does. -/
theorem calls_upkeep {P : List Delivery → Job → δ → Prop} (h : Job.Upkeep P)
    (hclose : ∀ {w j d}, P w j d → P w j.finish.2 d) {w : List Delivery} {l : Loader δ ρ}
    (hp : P w l.job l.device) {cs : List LoaderCall} (hcs : ∀ c ∈ cs, c.span? = none) :
    ∃ vs, P (w ++ vs) (l.calls cs).job (l.calls cs).device := by
  induction cs generalizing l w with
  | nil => exact ⟨[], by rw [List.append_nil]; exact hp⟩
  | cons c cs ih =>
      obtain ⟨hc, hrest⟩ := List.forall_mem_cons.mp hcs
      obtain ⟨vs, hcall⟩ := call_upkeep h hclose hp hc
      obtain ⟨vs', hcalls⟩ := ih hcall hrest
      exact ⟨vs ++ vs', by rw [← List.append_assoc]; exact hcalls⟩

end Loader

/-! ## Plans that are used up -/

/-- A span that its job erases no more of than it has bytes for: if it is empty it begins on a
    sector, and it does not go past the last address. -/
def Erasable (offset size : UInt32) : Prop :=
  (size = 0 → offset.toNat % sectorSize = 0) ∧ offset.toNat + size.toNat ≤ 2 ^ 32

namespace Job

/-- A job for a span of which nothing is left to erase once it has all its bytes. -/
structure Spent (offset size : UInt32) (w : List Delivery) (j : Job) (_ : δ) : Prop
    extends Spans offset size (delivered w) j where
  spent : j.remaining = 0 → j.plan.isEmpty = true

namespace Spent

variable {offset size : UInt32} {w : List Delivery} {j : Job} {d : δ}

omit [FlashDevice δ] in
/-- A job that was just opened has its plan before it. -/
theorem fresh (h : Erasable offset size) (d : δ) : (fresh size offset).Spent offset size [] d where
  toSpans := spans_fresh offset size
  spent := by
    intro hremaining
    have hsize : size = 0 := hremaining
    have haligned := h.1 hsize
    rw [ErasePlan.isEmpty_iff]
    show (sectorCount offset size).toNat = 0
    rw [toNat_sectorCount, haligned, hsize]
    rfl

omit [FlashDevice δ] in
/-- An idle job has nothing to do. -/
theorem idle (d : δ) : idle.Spent 0 0 [] d where
  remaining := rfl
  cursor := rfl
  lastSector := rfl
  spent _ := rfl

/-- The sector of the last byte is the last one of the plan. -/
theorem deliver (h : j.Spent offset size w d) (haddressable : offset.toNat + size.toNat ≤ 2 ^ 32)
    {v : Delivery} (hlen : v.bytes.length ≤ j.remaining.toNat)
    (hcovers : j.plan.Covers (j.lastSectorOf v.bytes.length)) :
    (j.deliver v d).1.Spent offset size (w ++ [v]) (j.deliver v d).2 := by
  have hspans := h.toSpans.deliver v d hlen
  rw [← delivered_concat] at hspans
  refine ⟨hspans, ?_⟩
  intro hremaining
  have hall := hspans.delivered_of_complete hremaining
  rw [delivered_concat] at hall
  rw [(j.kept_deliver v d).1]
  rcases hcovers with hempty | hsector
  · exact hempty
  · have hcursor := h.toSpans.cursor
    have hlast := h.toSpans.lastSector
    have hcount : (UInt32.ofNat v.bytes.length).toNat = v.bytes.length :=
      toNat_ofNat_of_le_remaining hlen
    have hsector' := UInt32.lt_iff_toNat_lt.mp hsector
    rw [lastSectorOf, toNat_sectorIndex, toNat_satAdd, hcount, hcursor] at hsector'
    rw [ErasePlan.isEmpty_iff]
    simp only [ErasePlan.lastSector, endSector, sectorSize] at hlast hsector' ⊢
    omega

/-- A job spends its plan with its bytes. -/
theorem upkeep (offset size : UInt32) (haddressable : offset.toNat + size.toNat ≤ 2 ^ 32) :
    Upkeep (δ := δ) (Spent offset size) where
  poll h := ⟨h.toSpans, h.spent⟩
  issue := by
    intro w j d unit h hunit
    refine ⟨h.toSpans.after hunit, ?_⟩
    intro hremaining
    -- nothing is issued once the plan is empty
    have hempty := h.spent hremaining
    simp [ErasePlan.nextSize, hempty] at hunit
  deliver h _ hlen hcovers := h.deliver haddressable hlen hcovers
  note e h := ⟨h.toSpans.note e, by rw [remaining_note, plan_note]; exact h.spent⟩

omit [FlashDevice δ] in
/-- Closing a job leaves the plan alone. -/
theorem finish (h : j.Spent offset size w d) : j.finish.2.Spent offset size w d := by
  simp only [Job.finish]
  split
  · exact h
  · split
    · exact h
    · exact { h with }

end Spent
end Job

/-! ## Calls without an open job -/

/-- A device with which nothing was done but to poll it and to erase. -/
inductive OnlyErased (d : δ) : δ → Prop where
  | refl : OnlyErased d d
  | poll {d' : δ} : OnlyErased d d' → OnlyErased d (FlashDevice.poll d').2
  | issue {d' : δ} (p : ErasePlan) (size : EraseSize) :
      OnlyErased d d' → OnlyErased d (p.issue size d').2

/-- What is only erased may go on to be. -/
theorem OnlyErased.trans {d d' d'' : δ} (h : OnlyErased d d') (h' : OnlyErased d' d'') :
    OnlyErased d d'' := by
  induction h' with
  | refl => exact h
  | poll _ ih => exact ih.poll
  | issue p size _ ih => exact ih.issue p size

namespace Loader

/-- What some calls leave as it was if the job is not open: the record but for an error, which is
    kept at most by the unpacker and only if there is none yet, and the device but for erases.  Without
    a call to erase ahead, or with nothing left to erase, the device and the plan are untouched. -/
structure Rests (cs : List LoaderCall) (l l' : Loader δ) : Prop where
  active : l'.job.active = l.job.active
  cursor : l'.job.cursor = l.job.cursor
  remaining : l'.job.remaining = l.job.remaining
  error : l'.job.error = l.job.error ∨ l.job.error = none ∧ ∃ piece, .unpack piece ∈ cs
  device : OnlyErased l.device l'.device
  untouched : .eraseAhead ∉ cs ∨ l.job.plan.isEmpty = true →
    l'.device = l.device ∧ l'.job.plan = l.job.plan

namespace Rests

variable {cs cs' : List LoaderCall} {l l' l'' : Loader δ}

/-- Without a call nothing happens. -/
theorem refl (cs : List LoaderCall) (l : Loader δ) : Rests cs l l where
  active := rfl
  cursor := rfl
  remaining := rfl
  error := Or.inl rfl
  device := .refl
  untouched _ := ⟨rfl, rfl⟩

/-- What calls leave as it was, more calls may leave so. -/
theorem trans (h : Rests cs l l') (h' : Rests cs' l' l'') : Rests (cs ++ cs') l l'' where
  active := h'.active.trans h.active
  cursor := h'.cursor.trans h.cursor
  remaining := h'.remaining.trans h.remaining
  error := by
    rcases h'.error with hsame | ⟨hnone, piece, hpiece⟩
    · rcases h.error with hsame' | ⟨hnone', piece', hpiece'⟩
      · exact Or.inl (hsame.trans hsame')
      · exact Or.inr ⟨hnone', piece', List.mem_append_left _ hpiece'⟩
    · rcases h.error with hsame' | ⟨hnone', piece', hpiece'⟩
      · exact Or.inr ⟨hsame'.symm.trans hnone, piece, List.mem_append_right _ hpiece⟩
      · exact Or.inr ⟨hnone', piece', List.mem_append_left _ hpiece'⟩
  device := h.device.trans h'.device
  untouched := by
    intro hrests
    have hfirst : .eraseAhead ∉ cs ∨ l.job.plan.isEmpty = true :=
      hrests.imp_left fun hnot hmem => hnot (List.mem_append_left _ hmem)
    obtain ⟨hdevice, hplan⟩ := h.untouched hfirst
    obtain ⟨hdevice', hplan'⟩ := h'.untouched <| by
      rw [hplan]
      exact hrests.imp_left fun hnot hmem => hnot (List.mem_append_right _ hmem)
    exact ⟨hdevice'.trans hdevice, hplan'.trans hplan⟩

/-- A piece that leaves the device alone, and of the record all but the error. -/
theorem of_noted {piece : List UInt8} (hdevice : l'.device = l.device)
    (hjob : l'.job = l.job ∨ ∃ e, l'.job = l.job.note e) : Rests [.unpack piece] l l' := by
  have hplan : l'.job.plan = l.job.plan := by
    rcases hjob with hsame | ⟨e, hnote⟩
    · rw [hsame]
    · rw [hnote, Job.plan_note]
  refine ⟨?_, ?_, ?_, ?_, ?_, fun _ => ⟨hdevice, hplan⟩⟩
  · rcases hjob with hsame | ⟨e, hnote⟩
    · rw [hsame]
    · rw [hnote, Job.active_note]
  · rcases hjob with hsame | ⟨e, hnote⟩
    · rw [hsame]
    · rw [hnote, Job.cursor_note]
  · rcases hjob with hsame | ⟨e, hnote⟩
    · rw [hsame]
    · rw [hnote, Job.remaining_note]
  · rcases hjob with hsame | ⟨e, hnote⟩
    · exact Or.inl (by rw [hsame])
    · cases herror : l.job.error with
      | none => exact Or.inr ⟨rfl, piece, List.mem_singleton_self _⟩
      | some kept => exact Or.inl (by simp [hnote, Job.note, herror])
  · rw [hdevice]
    exact .refl

/-- Without bytes left to take a piece adds at most an error. -/
theorem unpack (l : Loader δ) (hremaining : l.job.remaining = 0) (piece : List UInt8) :
    Rests [.unpack piece] l (l.unpack piece) := by
  have hunpack : (l.unpack piece).device = l.device ∧
      ((l.unpack piece).job = l.job ∨ ∃ e, (l.unpack piece).job = l.job.note e) := by
    simp only [Loader.unpack, Unpacker.unpack]
    split
    · refine ⟨rfl, ?_⟩
      show (if piece.isEmpty then l.job else l.job.note .excessData) = _ ∨ ∃ e, _
      split
      · exact Or.inl rfl
      · exact Or.inr ⟨_, rfl⟩
    · -- there is no cycle, so neither a write nor an erase
      rw [Unpacking.cycleUpTo_of_stop _ (Or.inr hremaining)]
      let k : Unpacking δ := ⟨l.unpacker, l.job, l.device, piece, .needsInput, false⟩
      obtain ⟨hjob, hdevice⟩ := k.readTrailing_job
      have hsettled := k.readTrailing.settle_job
      rw [hjob] at hsettled
      exact ⟨hdevice, hsettled⟩
  exact of_noted hunpack.1 hunpack.2

/-- Erasing ahead disturbs nothing but the device. -/
theorem eraseAhead (l : Loader δ) : Rests [.eraseAhead] l l.eraseAhead.2 := by
  have herase : Job.ErasingKeeps (OnlyErased l.device) := ⟨.poll, .issue⟩
  refine ⟨rfl, rfl, rfl, Or.inl rfl, herase.eraseAhead .refl l.job, ?_⟩
  rintro (hnot | hempty)
  · exact absurd (List.mem_singleton_self _) hnot
  · have hnext : l.job.plan.nextSize = none := by simp [ErasePlan.nextSize, hempty]
    simp only [Loader.eraseAhead, Job.eraseAhead, ErasePlan.issueIfIdle, hnext]
    exact ⟨trivial, trivial⟩

/-- There is nothing left to write, and nothing to close. -/
theorem call (l : Loader δ) {c : LoaderCall} (hc : c.span? = none)
    (hactive : l.job.active = false) (hremaining : l.job.remaining = 0) :
    Rests [c] l (l.call c) := by
  cases c with
  | start => exact nomatch hc
  | startPacked => exact nomatch hc
  | write storage data =>
      have haccepted : l.job.accepted data = [] := by
        rw [Job.accepted, hremaining]
        rfl
      have hsame : l.call (.write storage data) = l := by
        simp only [Loader.call, Loader.write, Job.write_of_accepted_nil _ _ _ _ haccepted]
      rw [hsame]
      exact refl _ l
  | unpack piece => exact unpack l hremaining piece
  | eraseAhead => exact eraseAhead l
  | finish =>
      have hsame : l.call .finish = l := by
        simp [Loader.call, Loader.finish, Job.finish, hactive]
      rw [hsame]
      exact refl _ l

/-- So no calls but an opening disturb anything else. -/
theorem calls (l : Loader δ) {cs : List LoaderCall} (hcs : ∀ c ∈ cs, c.span? = none)
    (hactive : l.job.active = false) (hremaining : l.job.remaining = 0) :
    Rests cs l (l.calls cs) := by
  induction cs generalizing l with
  | nil => exact refl [] l
  | cons c cs ih =>
      obtain ⟨hc, hrest⟩ := List.forall_mem_cons.mp hcs
      have hfirst := call l hc hactive hremaining
      exact hfirst.trans (ih (l.call c) hrest (hfirst.active.trans hactive)
        (hfirst.remaining.trans hremaining))

end Rests

/-! ## Every way of not being open -/

/-- A closed job stays complete. -/
theorem closed_calls {l : Loader δ} (h : l.job.active = false → l.job.remaining = 0)
    {cs : List LoaderCall} (hcs : ∀ c ∈ cs, c.span? = none) :
    (l.calls cs).job.active = false → (l.calls cs).job.remaining = 0 := by
  have hfinish {j : Job} (h : j.active = false → j.remaining = 0) :
      j.finish.2.active = false → j.finish.2.remaining = 0 := by
    rw [j.finish_kept.2]
    simp only [Job.finish]
    split
    · exact h
    · split
      · exact h
      · rename_i hremaining
        intro _
        simpa using hremaining
  obtain ⟨-, hcalls⟩ := calls_upkeep (w := []) Job.closed_upkeep hfinish h hcs
  exact hcalls

/-- A complete job has spent its plan. -/
theorem spent_calls {l : Loader δ} {offset size : UInt32}
    (haddressable : offset.toNat + size.toNat ≤ 2 ^ 32) (h : l.job.Spent offset size [] l.device)
    {cs : List LoaderCall} (hcs : ∀ c ∈ cs, c.span? = none)
    (hremaining : (l.calls cs).job.remaining = 0) : (l.calls cs).job.plan.isEmpty = true := by
  obtain ⟨w, hcalls⟩ :=
    calls_upkeep (Job.Spent.upkeep offset size haddressable) Job.Spent.finish h hcs
  exact hcalls.spent hremaining

/-- Whichever calls led there, a job that is not open has no bytes left to take; and unless it was
    opened for a span that is not erasable, it has nothing left to erase. -/
theorem calls_cases (d : δ) (cs : List LoaderCall) :
    let l := calls { device := d } cs
    (l.job.active = false → l.job.remaining = 0) ∧
      ((l.job.remaining = 0 → l.job.plan.isEmpty = true) ∨
        ∃ before opening after size offset, cs = before ++ opening :: after ∧
          opening.span? = some (size, offset) ∧ (∀ c ∈ after, c.span? = none) ∧
          (calls { device := d } (before ++ [opening])).job = .fresh size offset ∧
          ¬Erasable offset size) := by
  intro l
  have hzero : (0 : UInt32).toNat + (0 : UInt32).toNat ≤ 2 ^ 32 := by decide
  rcases LoaderCall.last_opening cs with
    hnone | ⟨before, opening, after, size, offset, rfl, hspan, hafter⟩
  · exact ⟨closed_calls (fun _ => rfl) hnone,
      Or.inl (spent_calls hzero (Job.Spent.idle d) hnone)⟩
  · -- the calls from the last opening on decide
    let opened := calls { device := d } (before ++ [opening])
    have hsplit : l = opened.calls after := by
      show calls _ _ = calls (calls _ _) _
      simp only [calls, List.foldl_append, List.foldl_cons, List.foldl_nil]
    have hopened : opened = call (calls { device := d } before) opening := List.foldl_append
    have hjob := call_opening (calls { device := d } before) hspan
    rw [← hopened] at hjob
    rw [hsplit]
    rcases hjob with hidle | hfresh
    · refine ⟨closed_calls (fun _ => by rw [hidle]; rfl) hafter, Or.inl ?_⟩
      refine spent_calls hzero ?_ hafter
      rw [hidle]
      exact Job.Spent.idle _
    · have hclosed : opened.job.active = false → opened.job.remaining = 0 := by
        rw [hfresh]
        exact nofun
      refine ⟨closed_calls hclosed hafter, ?_⟩
      by_cases herasable : Erasable offset size
      · refine Or.inl (spent_calls herasable.2 ?_ hafter)
        rw [hfresh]
        exact Job.Spent.fresh herasable _
      · exact Or.inr ⟨before, opening, after, size, offset, rfl, hspan, hafter, hfresh, herasable⟩

/-- From every state that calls can lead to and in which the job is not open, no call but an opening
    has a byte programmed or changes the record, except that the unpacker may keep an error if there
    is none (`Rests`).  The device as a whole and the plan stay untouched, unless the last opening
    succeeded for an empty span inside a sector or for one that goes past the last address. -/
theorem calls_without_job (d : δ) (cs later : List LoaderCall)
    (hlater : ∀ c ∈ later, c.span? = none) :
    let l := calls { device := d } cs
    let l' := l.calls later
    l.job.active = false →
      Rests later l l' ∧
        ((l'.device = l.device ∧ l.job.plan.isEmpty = true ∧ l'.job.plan = l.job.plan) ∨
          ∃ before opening after size offset, cs = before ++ opening :: after ∧
            opening.span? = some (size, offset) ∧ (∀ c ∈ after, c.span? = none) ∧
            (calls { device := d } (before ++ [opening])).job = .fresh size offset ∧
            (size = 0 ∧ offset.toNat % sectorSize ≠ 0 ∨
              2 ^ 32 < offset.toNat + size.toNat)) := by
  intro l l' hactive
  obtain ⟨hclosed, hcases⟩ := calls_cases d cs
  have hremaining : l.job.remaining = 0 := hclosed hactive
  have hrests : Rests later l l' := Rests.calls l hlater hactive hremaining
  refine ⟨hrests, ?_⟩
  rcases hcases with hspent | ⟨before, opening, after, size, offset, hcs, hspan, hafter, hfresh,
    herasable⟩
  · have hempty : l.job.plan.isEmpty = true := hspent hremaining
    obtain ⟨hdevice, hplan⟩ := hrests.untouched (Or.inr hempty)
    exact Or.inl ⟨hdevice, hempty, hplan⟩
  · refine Or.inr ⟨before, opening, after, size, offset, hcs, hspan, hafter, hfresh, ?_⟩
    by_cases haddressable : offset.toNat + size.toNat ≤ 2 ^ 32
    · left
      by_cases hsize : size = 0
      · exact ⟨hsize, fun haligned => herasable ⟨fun _ => haligned, haddressable⟩⟩
      · exact absurd ⟨fun h0 => absurd h0 hsize, haddressable⟩ herasable
    · exact Or.inr (Nat.lt_of_not_le haddressable)

/-- A job that was closed with all its bytes, and an empty piece of a stream that comes late. -/
theorem calls_without_job_late_piece :
    let d : Simulator 8192 := { eraseTime := 2 }
    let l := calls { device := d } [.start 2 4095, .write .plain [1, 2], .finish]
    let later : List LoaderCall := [.write .encrypted [3], .eraseAhead, .unpack [], .finish]
    l.job.active = false ∧ Rests later l (l.calls later) ∧
      (l.calls later).job.error = some .excessData := by
  intro d l later
  obtain ⟨hrests, -⟩ := calls_without_job d [.start 2 4095, .write .plain [1, 2], .finish] later
    (by decide) (by decide +kernel)
  exact ⟨by decide +kernel, hrests, by decide +kernel⟩

/-- Three jobs that were closed, and what calls without a job change then: the sector of an empty
    span is erased, a piece of a stream leaves an error, and the erase of a sector that there is no
    address for is sent to the last one. -/
theorem closed_jobs_change :
    let d : Simulator 8192 := {}
    let empty := calls { device := d } [.start 0 100, .finish]
    let aligned := calls { device := d } [.start 0 0, .finish]
    let beyond := calls { device := d } [.start 2 0xFFFFFFFF, .write .plain [1, 2], .finish]
    (empty.job.active = false ∧
      (empty.calls [.eraseAhead]).job.plan ≠ empty.job.plan ∧
      (empty.calls [.eraseAhead]).device.calls
        = empty.device.calls ++ [DeviceCall.enableWrite, .erase 0 .sector]) ∧
    (aligned.job.active = false ∧ aligned.job.error = none ∧
      (aligned.calls [.unpack []]).job.error = some .excessData) ∧
    (beyond.job.active = false ∧
      (beyond.calls [.eraseAhead]).device.calls
        = beyond.device.calls ++ [DeviceCall.enableWrite, .erase 0xFFFFFFFF .sector]) := by
  decide +kernel

end Loader
end NorLoader
