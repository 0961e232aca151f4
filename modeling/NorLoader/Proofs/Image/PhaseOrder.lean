import Mathlib.Logic.Relation
import NorLoader.Proofs.Image.CallRecord
import NorLoader.Proofs.Image.ThroughPiece

/-!
# The order of the phases

The phase of a stream tells the host how far it is: nothing of it was taken, it is being read, it is
complete, or it was rejected.  `Session` ties the phase to the bytes that were fed and to those that
were taken, one read after the other, and from it follows what the phase is worth (`phase_one_way`):
it leads one way, and once it is settled no piece changes it or has a byte programmed.

Two things do not fit.  For an image without bytes no cycle is carried out and only the trailing read
takes bytes, which does not say that it reads, so the phase stays where nothing was taken until it is
settled.  And a stream that is rejected because it breaks off where the last announced byte was
(`CutShort`) is read on when more bytes come after all.
-/

namespace NorLoader

namespace StreamPhase

/-- One move of the phase. -/
inductive Moves : StreamPhase → StreamPhase → Prop where
  | begins : Moves waiting reading
  | ends : Moves reading complete
  | fails : Moves reading rejected

/-- Any number of moves. -/
def Leads : StreamPhase → StreamPhase → Prop := Relation.ReflTransGen Moves

/-- No move leads out of the phase. -/
def Settled (p : StreamPhase) : Prop := p = complete ∨ p = rejected

/-- A stream that is being read may come to every phase but waiting. -/
theorem leads_of_ne_waiting {p : StreamPhase} (h : p ≠ waiting) : Leads reading p := by
  cases p with
  | waiting => exact absurd rfl h
  | reading => exact .refl
  | complete => exact .single .ends
  | rejected => exact .single .fails

/-- One that waits may come to every phase. -/
theorem leads_from_waiting (p : StreamPhase) : Leads waiting p := by
  by_cases h : p = waiting
  · rw [h]
    exact .refl
  · exact .head .begins (leads_of_ne_waiting h)

/-- A settled phase leads nowhere else. -/
theorem Settled.eq_of_leads {p q : StreamPhase} (h : p.Settled) (hleads : p.Leads q) : q = p := by
  rcases Relation.ReflTransGen.cases_head hleads with heq | ⟨p', hmoves, -⟩
  · exact heq.symm
  · rcases h with rfl | rfl <;> cases hmoves

end StreamPhase

/-! ## Sessions -/

/-- A stream of which `fed` bytes were fed and `taken` bytes taken since it was opened. -/
structure Session (size packedSize : UInt32) (fed taken : Nat) (u : Unpacker) (j : Job) : Prop where
  announced : packedSize.toNat ≤ fed + u.packedLeft.toNat
  fresh : taken = 0 → u.reader = .start ∧ u.phase = .waiting ∧ j.remaining = size
  begun : 0 < taken → size ≠ 0 → u.phase ≠ .waiting
  /-- An image without bytes is complete from the start. -/
  bare : size = 0 → j.remaining = 0 ∧ u.phase ≠ .reading
  /-- Of a stream that was rejected for good nothing is left to hand over. -/
  handed : u.reader.Failed → j.remaining ≠ 0 → u.held = 0
  rejected : u.phase = .rejected → u.reader.Failed ∨ packedSize.toNat ≤ fed

namespace Session

variable {δ : Type} [FlashDevice δ] {size packedSize : UInt32} {fed taken : Nat} {u : Unpacker}
  {j j' : Job} {piece : List UInt8}

/-- A session starts with nothing fed. -/
theorem start (size packedSize offset : UInt32) (u : Unpacker) :
    Session size packedSize 0 0 (u.restart packedSize) (.fresh size offset) where
  announced := Nat.le_of_eq (Nat.zero_add _).symm
  fresh _ := ⟨rfl, rfl, rfl⟩
  begun := nofun
  bare hsize := ⟨hsize, nofun⟩
  handed _ _ := rfl
  rejected := nofun

/-- Of the job only the bytes that it still takes matter. -/
theorem job (h : Session size packedSize fed taken u j) (hj : j'.remaining = j.remaining) :
    Session size packedSize fed taken u j' where
  announced := h.announced
  fresh := by rw [hj]; exact h.fresh
  begun := h.begun
  bare := by rw [hj]; exact h.bare
  handed := by rw [hj]; exact h.handed
  rejected := h.rejected

/-- More bytes that come to nothing. -/
theorem more (h : Session size packedSize fed taken u j) (n : Nat) :
    Session size packedSize (fed + n) taken u j where
  announced := Nat.le_trans h.announced (by omega)
  fresh := h.fresh
  begun := h.begun
  bare := h.bare
  handed := h.handed
  rejected hphase := (h.rejected hphase).imp_right fun hle => Nat.le_trans hle (Nat.le_add_right _ _)

/-- A piece that is read. -/
theorem settle (h : Session size packedSize fed taken u j) (hpiece : piece ≠ []) (d : δ) :
    let k := u.readThrough j piece d
    Session size packedSize (fed + piece.length) (taken + (piece.length - k.rest.length))
      k.settle.1 k.settle.2.1 := by
  intro k
  have hsound : k.Sound packedSize (fed + piece.length) :=
    Unpacker.sound_readThrough h.announced h.handed
  have hphase := u.phase_readThrough j piece d
  have hremaining : k.settle.2.1.remaining = k.job.remaining := k.remaining_settle
  have hbegins (hnone : taken = 0) : k.rest.length < piece.length ∧
      (j.remaining ≠ 0 → k.unpacker.phase = .reading) :=
    Unpacker.readThrough_of_start (h.fresh hnone).1 hpiece
  refine job ⟨?announced, ?fresh, ?begun, ?bare, hsound.handed, ?rejected⟩ hremaining
  case announced =>
    have hannounced := hsound.announced
    show _ ≤ _ + k.unpacker.packedLeft.toNat
    omega
  case fresh =>
    -- if nothing was taken before, then something is now
    intro hnone
    have hfirst := hbegins (by omega)
    omega
  case begun =>
    intro _ hsize
    refine Unpacking.phase_settle_ne_waiting ?_
    rcases Nat.eq_zero_or_pos taken with hnone | htaken
    · rw [(hbegins hnone).2 ((h.fresh hnone).2.2 ▸ hsize)]
      exact nofun
    · exact Unpacker.phase_readThrough_ne_waiting (h.begun htaken hsize)
  case bare =>
    intro hsize
    obtain ⟨hzero, hnotReading⟩ := h.bare hsize
    have hjob : k.job = j := Unpacker.job_readThrough_of_complete hzero
    have hsame : k.unpacker.phase = u.phase := hphase.resolve_right fun hread => hread.1 hzero
    refine ⟨hjob ▸ hzero, ?_⟩
    rcases k.phase_settle with ⟨-, hend⟩ | ⟨-, hend | hend⟩ <;> rw [hend]
    · exact nofun
    · exact nofun
    · rw [hsame]
      exact hnotReading
  case rejected =>
    intro hrejected
    rcases k.phase_settle with ⟨hrejects, -⟩ | ⟨hrejects, hend | hend⟩
    · exact hsound.rejected hrejects
    · exact nomatch hend.symm.trans hrejected
    · -- the phase was this one before, but a stream that was rejected for good is rejected again
      have hbefore : u.phase = .rejected := by
        rcases hphase with hsame | ⟨-, hreading⟩
        · exact hsame.symm.trans (hend.symm.trans hrejected)
        · exact nomatch hreading.symm.trans (hend.symm.trans hrejected)
      rcases h.rejected hbefore with hfailed | hle
      · have hagain : k.status.rejects = true :=
          (Unpacker.readThrough_of_failed hfailed (h.handed hfailed) hpiece).1
        exact nomatch hagain.symm.trans hrejects
      · exact Or.inr (Nat.le_trans hle (Nat.le_add_right _ _))

/-- A piece goes on with the session. -/
theorem unpack (h : Session size packedSize fed taken u j) (piece : List UInt8) (d : δ) :
    Session size packedSize (fed + piece.length) (taken + u.taken j piece d)
      (u.unpack j piece d).1 (u.unpack j piece d).2.1 := by
  by_cases hunread : u.phase = .complete ∨ piece = []
  · obtain ⟨hnone, j', hunpack, hremaining⟩ := Unpacker.unpack_unread (j := j) (d := d) hunread
    rw [hnone, hunpack]
    exact (h.more _).job hremaining
  · obtain ⟨hgoing, hpiece⟩ := not_or.mp hunread
    rw [Unpacker.unpack_eq hgoing, Unpacker.taken, if_neg hgoing]
    exact h.settle hpiece d

/-- The phase tells whether anything was taken, but for an image without bytes only once it is
    settled. -/
theorem waiting_iff (h : Session size packedSize fed taken u j) :
    u.phase = .waiting ↔ taken = 0 ∨ size = 0 ∧ ¬u.phase.Settled := by
  constructor
  · intro hwaiting
    rcases Nat.eq_zero_or_pos taken with hnone | htaken
    · exact Or.inl hnone
    · refine Or.inr ⟨?_, ?_⟩
      · by_contra hsize
        exact h.begun htaken hsize hwaiting
      · rw [hwaiting]
        exact fun hsettled => hsettled.elim nofun nofun
  · rintro (hnone | ⟨hsize, hgoing⟩)
    · exact (h.fresh hnone).2.1
    · cases hphase : u.phase with
      | waiting => rfl
      | reading => exact absurd hphase (h.bare hsize).2
      | complete => exact absurd (Or.inl hphase) hgoing
      | rejected => exact absurd (Or.inr hphase) hgoing

end Session

/-! ## Loaders -/

namespace LoaderCall

/-- The bytes of a stream that a call hands over. -/
def packed : LoaderCall → List UInt8
  | unpack piece => piece
  | _ => []

/-- A call that goes on with a stream. -/
def isFeeding : LoaderCall → Bool
  | unpack _ => true
  | eraseAhead => true
  | finish => true
  | _ => false

/-- What feeds a session is a piece, an idle moment or the end. -/
theorem cases_of_isFeeding {c : LoaderCall} (h : c.isFeeding = true) :
    (∃ piece, c = .unpack piece) ∨ c = .eraseAhead ∨ c = .finish := by
  cases c with
  | unpack piece => exact Or.inl ⟨piece, rfl⟩
  | eraseAhead => exact Or.inr (Or.inl rfl)
  | finish => exact Or.inr (Or.inr rfl)
  | start => exact nomatch h
  | startPacked => exact nomatch h
  | write => exact nomatch h

end LoaderCall

/-- The bytes of a stream that some calls hand over. -/
def packedBytes (cs : List LoaderCall) : List UInt8 := cs.flatMap LoaderCall.packed

namespace Loader

section Counts

variable {δ ρ : Type} [StreamReader ρ] [FlashDevice δ]

/-- How many bytes of the stream are taken in a call. -/
def takes (l : Loader δ ρ) : LoaderCall → Nat
  | .unpack piece => l.unpacker.taken l.job piece l.device
  | _ => 0

/-- How many bytes of the stream are taken in some calls. -/
def taken : Loader δ ρ → List LoaderCall → Nat
  | _, [] => 0
  | l, c :: cs => l.takes c + (l.call c).taken cs

end Counts

variable {δ : Type} [FlashDevice δ]

/-- A stream that was rejected only because it breaks off. -/
def CutShort (l : Loader δ) : Prop :=
  l.unpacker.phase = .rejected ∧ ¬l.unpacker.reader.Failed

/-- Nothing more came of the stream: it is where it was, no byte counts as written, and with the
    device nothing was done but to poll it and to erase. -/
structure Stays (l l' : Loader δ) : Prop where
  unpacker : l'.unpacker = l.unpacker
  remaining : l'.job.remaining = l.job.remaining
  device : OnlyErased l.device l'.device

variable {l : Loader δ} {c : LoaderCall} {size packedSize : UInt32} {fed taken : Nat}

/-- Nothing moves without a call. -/
theorem Stays.refl (l : Loader δ) : Stays l l := ⟨rfl, rfl, .refl⟩

/-- What stays may stay on. -/
theorem Stays.trans {l l' l'' : Loader δ} (h : Stays l l') (h' : Stays l' l'') : Stays l l'' :=
  ⟨h'.unpacker.trans h.unpacker, h'.remaining.trans h.remaining, h.device.trans h'.device⟩

/-- A call goes on with the session. -/
theorem session_call (h : Session size packedSize fed taken l.unpacker l.job)
    (hc : c.isFeeding = true) :
    Session size packedSize (fed + c.packed.length) (taken + l.takes c)
      (l.call c).unpacker (l.call c).job := by
  obtain ⟨piece, rfl⟩ | rfl | rfl := LoaderCall.cases_of_isFeeding hc
  · exact h.unpack piece l.device
  · exact h.job rfl
  · exact h.job l.job.finish_kept.2

/-- So do any number of calls. -/
theorem session_calls {cs : List LoaderCall} (hcs : ∀ c ∈ cs, c.isFeeding = true)
    (h : Session size packedSize fed taken l.unpacker l.job) :
    Session size packedSize (fed + (packedBytes cs).length) (taken + l.taken cs)
      (l.calls cs).unpacker (l.calls cs).job := by
  induction cs generalizing l fed taken with
  | nil => exact h
  | cons c cs ih =>
      obtain ⟨hc, hrest⟩ := List.forall_mem_cons.mp hcs
      have hcalls := ih hrest (session_call h hc)
      rw [Nat.add_assoc, Nat.add_assoc, ← List.length_append] at hcalls
      exact hcalls

/-- A piece of a stream of which nothing more comes. -/
theorem stays_unpack (h : Session size packedSize fed taken l.unpacker l.job)
    (hsettled : l.unpacker.phase.Settled) {piece : List UInt8} (hgood : piece = [] ∨ ¬l.CutShort) :
    Stays l (l.unpack piece) := by
  by_cases hunread : l.unpacker.phase = .complete ∨ piece = []
  · obtain ⟨-, job, hunpack, hremaining⟩ :=
      Unpacker.unpack_unread (j := l.job) (d := l.device) hunread
    simp only [unpack, hunpack]
    exact ⟨rfl, hremaining, .refl⟩
  · obtain ⟨hgoing, hpiece⟩ := not_or.mp hunread
    have hphase : l.unpacker.phase = .rejected := hsettled.resolve_left hgoing
    have hfailed : l.unpacker.reader.Failed := by
      by_contra hcut
      exact hgood.resolve_left hpiece ⟨hphase, hcut⟩
    obtain ⟨hunpacker, hremaining, hdevice⟩ :=
      Unpacker.unpack_of_failed (d := l.device) hphase hfailed (h.handed hfailed) hpiece
    exact ⟨hunpacker, hremaining, hdevice⟩

/-- Once the phase is settled nothing comes of a call, unless the stream was only cut short and the
    call brings more of it. -/
theorem stays_call (h : Session size packedSize fed taken l.unpacker l.job)
    (hsettled : l.unpacker.phase.Settled) (hc : c.isFeeding = true)
    (hgood : c.packed = [] ∨ ¬l.CutShort) : Stays l (l.call c) := by
  obtain ⟨piece, rfl⟩ | rfl | rfl := LoaderCall.cases_of_isFeeding hc
  · exact stays_unpack h hsettled hgood
  · have herase : Job.ErasingKeeps (OnlyErased l.device) := ⟨.poll, .issue⟩
    exact ⟨rfl, rfl, herase.eraseAhead .refl l.job⟩
  · exact ⟨rfl, l.job.finish_kept.2, .refl⟩

/-- Nor does it of any number of calls. -/
theorem stays_calls {cs : List LoaderCall} (hcs : ∀ c ∈ cs, c.isFeeding = true)
    (h : Session size packedSize fed taken l.unpacker l.job) (hsettled : l.unpacker.phase.Settled)
    (hgood : packedBytes cs = [] ∨ ¬l.CutShort) : Stays l (l.calls cs) := by
  induction cs generalizing l fed taken with
  | nil => exact .refl l
  | cons c cs ih =>
      obtain ⟨hc, hrest⟩ := List.forall_mem_cons.mp hcs
      have hgood' := hgood.imp_left List.append_eq_nil_iff.mp
      have hcall := stays_call h hsettled hc (hgood'.imp_left And.left)
      refine hcall.trans (ih hrest (session_call h hc) ?_ ?_)
      · rw [hcall.unpacker]
        exact hsettled
      · rw [CutShort, hcall.unpacker]
        exact hgood'.imp_left And.right

/-- A stream that was begun is not waiting again. -/
theorem begun_calls {cs : List LoaderCall} (hcs : ∀ c ∈ cs, c.isFeeding = true)
    (h : l.unpacker.phase ≠ .waiting) : (l.calls cs).unpacker.phase ≠ .waiting := by
  induction cs generalizing l with
  | nil => exact h
  | cons c cs ih =>
      obtain ⟨hc, hrest⟩ := List.forall_mem_cons.mp hcs
      refine ih (l := l.call c) hrest ?_
      obtain ⟨piece, rfl⟩ | rfl | rfl := LoaderCall.cases_of_isFeeding hc
      · exact Unpacker.phase_unpack_ne_waiting h
      · exact h
      · exact h

/-- The phase moves forward only, if it stays once it is settled. -/
theorem leads_calls {cs : List LoaderCall} (hcs : ∀ c ∈ cs, c.isFeeding = true)
    (hstays : l.unpacker.phase.Settled → Stays l (l.calls cs)) :
    l.unpacker.phase.Leads (l.calls cs).unpacker.phase := by
  have hsame (hsettled : l.unpacker.phase.Settled) :
      l.unpacker.phase.Leads (l.calls cs).unpacker.phase := by
    rw [(hstays hsettled).unpacker]
    exact .refl
  cases hphase : l.unpacker.phase with
  | waiting => exact StreamPhase.leads_from_waiting _
  | reading =>
      have hbegun : l.unpacker.phase ≠ .waiting := by
        rw [hphase]
        exact nofun
      exact StreamPhase.leads_of_ne_waiting (begun_calls hcs hbegun)
  | complete => exact hphase ▸ hsame (Or.inl hphase)
  | rejected => exact hphase ▸ hsame (Or.inr hphase)

/-- While the stream of a job is fed, the phase leads one way.  Until the first byte of the stream is
    taken it is the first one, and then it is another unless the image has no bytes.  Once it is
    settled nothing more comes of the stream, unless that was rejected as breaking off and more of it
    comes than was announced. -/
theorem phase_one_way (l : Loader δ) (size packedSize offset : UInt32)
    (before after : List LoaderCall) (hopen : (l.openJob (some packedSize) size offset).1 = .ok ())
    (hbefore : ∀ c ∈ before, c.isFeeding = true) (hafter : ∀ c ∈ after, c.isFeeding = true) :
    let opened := (l.openJob (some packedSize) size offset).2
    let s := opened.calls before
    let t := s.calls after
    (s.unpacker.phase = .waiting ↔
      opened.taken before = 0 ∨ size = 0 ∧ ¬s.unpacker.phase.Settled) ∧
    (s.CutShort → packedSize.toNat ≤ (packedBytes before).length) ∧
    (¬(s.CutShort ∧ packedBytes after ≠ []) →
      s.unpacker.phase.Leads t.unpacker.phase ∧ (s.unpacker.phase.Settled → s.Stays t)) := by
  intro opened s t
  have hstart : Session size packedSize 0 0 opened.unpacker opened.job := by
    show Session size packedSize 0 0 (l.openJob (some packedSize) size offset).2.unpacker
      (l.openJob (some packedSize) size offset).2.job
    rw [openJob_ok hopen]
    exact .start size packedSize offset l.unpacker
  have hsession := session_calls hbefore hstart
  rw [Nat.zero_add, Nat.zero_add] at hsession
  refine ⟨hsession.waiting_iff, ?_, ?_⟩
  · rintro ⟨hphase, hgoing⟩
    exact (hsession.rejected hphase).resolve_left hgoing
  · intro hgood
    have hgood' : packedBytes after = [] ∨ ¬s.CutShort := by
      by_cases hmore : packedBytes after = []
      · exact Or.inl hmore
      · exact Or.inr fun hshort => hgood ⟨hshort, hmore⟩
    have hstays : s.unpacker.phase.Settled → s.Stays t := fun hsettled =>
      stays_calls hafter hsession hsettled hgood'
    exact ⟨leads_calls hafter hstays, hstays⟩

/-- A stream of ten bytes that comes in two pieces, and what comes after it. -/
theorem phase_one_way_to_the_end :
    let l : Loader (Simulator 8192) := { device := {} }
    let before : List LoaderCall :=
      [.unpack [0x78, 0x9C], .unpack [0x4B, 0x4C, 0x84, 0x01, 0x00, 0x14, 0xE1, 0x03, 0xCB]]
    let after : List LoaderCall := [.eraseAhead, .unpack [0x78], .finish, .unpack [0x9C]]
    let s := (l.openJob (some 11) 10 0).2.calls before
    s.unpacker.phase = .complete ∧ s.Stays (s.calls after) := by
  intro l before after s
  have hcomplete : s.unpacker.phase = .complete := by decide +kernel
  obtain ⟨-, -, hafter⟩ := phase_one_way l 10 11 0 before after rfl (by decide) (by decide)
  have hgood : ¬(s.CutShort ∧ packedBytes after ≠ []) := by
    rintro ⟨⟨hrejected, -⟩, -⟩
    exact nomatch hcomplete.symm.trans hrejected
  exact ⟨hcomplete, (hafter hgood).2 (Or.inl hcomplete)⟩

/-- For an image without bytes a byte is taken and the phase does not tell.  And a stream that is
    rejected because it breaks off after the two bytes that were announced is read on, and the image
    is programmed. -/
theorem phase_without_order :
    let l : Loader (Simulator 8192) := { device := {} }
    let bare := (l.openJob (some 100) 0 0).2
    let short := (l.openJob (some 2) 10 0).2.calls [.unpack [0x78, 0x9C]]
    let longer := short.calls [.unpack [0x4B, 0x4C, 0x84, 0x01, 0x00, 0x14, 0xE1, 0x03, 0xCB]]
    (bare.taken [.unpack [0x78]] = 1 ∧ (bare.calls [.unpack [0x78]]).unpacker.phase = .waiting) ∧
      short.unpacker.phase = .rejected ∧ programsOf short.device.calls.toList = [] ∧
      ¬short.unpacker.phase.Leads longer.unpacker.phase ∧
      programsOf longer.device.calls.toList = [(0, List.replicate 10 0x61)] := by
  intro l bare short longer
  have hshort : short.unpacker.phase = .rejected := by decide +kernel
  have hlonger : longer.unpacker.phase = .complete := by decide +kernel
  refine ⟨⟨by decide +kernel, by decide +kernel⟩, hshort, by decide +kernel, ?_, by decide +kernel⟩
  intro hleads
  have hsame := StreamPhase.Settled.eq_of_leads (Or.inr hshort) hleads
  exact nomatch (hlonger.symm.trans hsame).trans hshort

end Loader
end NorLoader
