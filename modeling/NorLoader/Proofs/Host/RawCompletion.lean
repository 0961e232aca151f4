import NorLoader.Proofs.Host.RawSession
import NorLoader.Proofs.Image.Surroundings

/-!
# Sessions without faults

On a device without faults, and for a span that lies on it, nothing goes wrong in a session that
takes the image as it is (`Unfailing`).  So it depends on the bytes alone how the session ends: it
can be closed once there are as many as were declared, and until then it is told that data is
missing and stays open.
-/

namespace NorLoader

namespace Controller

variable {capacity : Nat}

/-- A closed job has all its bytes. -/
theorem closed_upkeep : @SessionUpkeep capacity
    (fun _ j _ => j.active = false → j.remaining = 0) where
  toUpkeep := Job.closed_upkeep
  close _ hremaining _ := hremaining
  switch _ h := h

/-- Nothing that happens in a session reaches beyond the sectors of its span. -/
theorem surrounded_upkeep {offset size : UInt32} (was : Cells capacity)
    (hfits : Fits capacity offset.toNat size.toNat) :
    @SessionUpkeep capacity (Job.Surrounded offset size was) where
  toUpkeep := Job.Surrounded.upkeep offset size was hfits
  close h _ := { h with placed := { h.placed with } }
  switch _ h := { h with }

/-- A session for an image that comes as it is, on a device without faults: unless it was asked
    for an encryption unit that is not there, it keeps no error. -/
structure Unfailing (offset size : UInt32) (bs : List DataBlock)
    (c : Controller (Simulator capacity)) : Prop where
  raw : ∃ kind? w, RawSession offset size kind? w bs c
  faults : c.loader.device.faults = {}
  error : c.loader.device.encrypts = true ∨ (∀ b ∈ bs, b.kind ≠ .encrypted) →
    c.loader.job.error = none

namespace Unfailing

variable {offset size : UInt32} {bs : List DataBlock} {c : Controller (Simulator capacity)}

/-- A block that can be stored adds no error. -/
theorem error_write (h : Unfailing offset size bs c) (hin : Job.Inside capacity offset size)
    {storage : Storage} (hstorage : storage = .encrypted → c.loader.device.encrypts = true)
    (payload : List UInt8) :
    (c.loader.job.write storage payload c.loader.device).1.error = c.loader.job.error := by
  obtain ⟨kind?, w, hraw⟩ := h.raw
  rw [Job.error_write_eq _ _ _ h.faults, if_pos]
  by_cases ha : c.loader.job.accepted payload = []
  · exact Or.inl ha
  · -- what is accepted lies within the span
    have hlen := c.loader.job.length_accepted_le payload
    have hpos := List.length_pos_iff.mpr ha
    have hremaining := hraw.contents.placed.remaining
    have hcursor := hraw.contents.placed.cursor
    have hle := hin.inside
    have hcap := hin.addressable
    exact Or.inr ⟨hstorage, by omega⟩

/-- Without a fault no event but an opening ends it. -/
theorem after (h : Unfailing offset size bs c) (hin : Job.Inside capacity offset size) {e : Event}
    (he : e.opens = false) (hs : e.switches = false) :
    Unfailing offset size (bs ++ (c.taken? e).toList) (c.after e) := by
  obtain ⟨kind?, w, hraw⟩ := h.raw
  have hconduct := conduct_after h.faults hs
  have hfaults : (c.after e).loader.device.faults = c.loader.device.faults :=
    congrArg Simulator.Conduct.faults hconduct
  have hencrypts : (c.after e).loader.device.encrypts = c.loader.device.encrypts :=
    congrArg Simulator.Conduct.encrypts hconduct
  refine ⟨hraw.after hin.fits e he, hfaults.trans h.faults, ?_⟩
  intro hunit
  rw [hencrypts] at hunit
  cases htaken : c.taken? e with
  | none =>
      rw [htaken, Option.toList_none, List.append_nil] at hunit
      obtain ⟨-, -, -, herror, -⟩ := after_of_not_taken he htaken
      rw [herror]
      exact h.error hunit
  | some b =>
      rw [htaken, Option.toList_some] at hunit
      have hold : c.loader.job.error = none := h.error <| hunit.imp_right fun hall b' hb' =>
        hall b' (List.mem_append_left _ hb')
      obtain ⟨route, hroute, hnext⟩ := after_of_taken htaken
      rw [hraw.route] at hroute
      rw [hnext]
      cases hkind : b.kind with
      | plain =>
          have hplain : Storage.plain = .encrypted → c.loader.device.encrypts = true := nofun
          exact (h.error_write hin hplain b.payload).trans hold
      | encrypted =>
          refine (h.error_write hin ?_ b.payload).trans hold
          intro _
          rcases hunit with hunit | hall
          · exact hunit
          · exact absurd hkind (hall b (List.mem_append_right _ (List.mem_singleton_self b)))
      | deflated =>
          obtain ⟨-, ⟨-, hne⟩ | hsome⟩ := Route.taking?_image hroute
          · exact absurd hkind hne
          · exact absurd (hsome.trans (congrArg some hkind)) hraw.notDeflated

/-- What is missing is missing in the payloads. -/
theorem remaining_eq_zero_iff (h : Unfailing offset size bs c) :
    c.loader.job.remaining = 0 ↔ size.toNat ≤ (bs.flatMap DataBlock.payload).length := by
  obtain ⟨kind?, w, hraw⟩ := h.raw
  have hremaining := hraw.contents.placed.remaining
  have hlength := congrArg List.length hraw.sent
  rw [length_sent, List.length_take] at hlength
  rw [← UInt32.toNat_inj]
  show c.loader.job.remaining.toNat = 0 ↔ _
  omega

end Unfailing

/-! ## From the opening on -/

/-- Without a fault a job is opened as it was asked for. -/
theorem Opens.fresh_of_faultless {r : Request} {size offset : UInt32}
    {c c' : Controller (Simulator capacity)} (h : Opens r size offset c c')
    (hfaults : c.loader.device.faults = {}) : c'.loader.job = .fresh size offset := by
  obtain ⟨hjob, -⟩ := h.job_eq
  rw [hfaults] at hjob
  exact hjob

/-- A session that was just opened has no bytes yet. -/
theorem Unfailing.of_opens {size offset : UInt32} {c c' : Controller (Simulator capacity)}
    (h : Opens (.start size offset) size offset c c') (hfaults : c.loader.device.faults = {}) :
    Unfailing offset size [] c' := by
  obtain ⟨hjob, hroute⟩ := h.job_eq
  rw [hfaults] at hjob hroute
  exact ⟨⟨none, [], RawSession.of_opens hjob hroute⟩,
    (congrArg Simulator.Conduct.faults h.conduct).trans hfaults,
    fun _ => congrArg Job.error hjob⟩

/-- A job is not closed before it has all its bytes. -/
theorem remaining_of_closed {size offset : UInt32} {c : Controller (Simulator capacity)}
    (hfresh : c.loader.job = .fresh size offset) {session : List Event}
    (hsession : ∀ e ∈ session, e.opens = false)
    (hclosed : (c.run session).loader.job.active = false) :
    (c.run session).loader.job.remaining = 0 := by
  have hbegins : c.loader.job.active = false → c.loader.job.remaining = 0 := by
    rw [hfresh]
    exact nofun
  obtain ⟨-, hkept⟩ := closed_upkeep.run (w := []) hsession hbegins
  exact hkept hclosed

/-- Around the span of a session the cells are erased or what they were. -/
theorem Opens.surrounded {r : Request} {size offset : UInt32}
    {c c' : Controller (Simulator capacity)} (h : Opens r size offset c c')
    (hfresh : c'.loader.job = .fresh size offset) (hfits : Fits capacity offset.toNat size.toNat)
    {session : List Event} (hsession : ∀ e ∈ session, e.opens = false) :
    ∃ w, (c'.run session).loader.job.Surrounded offset size c.loader.device.cells w
      (c'.run session).loader.device := by
  refine (surrounded_upkeep _ hfits).run (w := []) hsession ?_
  rw [hfresh, ← h.cells]
  exact Job.Surrounded.fresh offset size c'.loader.device

/-- How a session ends that takes the image as it is, on a device without faults and after any run:
    it is closed with success exactly when it is still open and the payloads add up to the
    declared size, and while they do not it is told so and stays open.  With success the span
    holds the payloads in a row, cut at the declared size, and ciphered if they were of the
    encrypted kind; around it the sectors that it touches read `0xFF`, and every other cell is
    what it was before the session. -/
theorem raw_session_complete (hsectors : sectorSize ∣ capacity) (hcap : capacity ≤ 2 ^ 32)
    (d : Simulator capacity) (hfaults : d.faults = {}) (before session : List Event)
    (hsteady : ∀ e ∈ before ++ session, e.switches = false)
    (hsession : ∀ e ∈ session, e.opens = false) (size offset : UInt32) (hsize : 0 < size)
    (hin : offset.toNat + size.toNat ≤ capacity) :
    let start := (powerOn d).run before
    let opened := start.after (.request (.start size offset))
    let blocks := opened.takenIn session
    let image := blocks.flatMap DataBlock.payload
    let c := opened.run session
    let closing := c.execute .finish
    d.encrypts = true ∨ (∀ b ∈ blocks, b.kind ≠ .encrypted) →
    (closing.1 = .ack .ok ↔ c.loader.job.active = true ∧ size.toNat ≤ image.length) ∧
    (image.length < size.toNat →
      closing.1 = .ack (.failed .shortData) ∧ closing.2.loader.job.active = true) ∧
    (closing.1 = .ack .ok →
      (∃ kind, (∀ b ∈ blocks, b.kind = kind) ∧
        closing.2.loader.device.read? offset.toNat size.toNat
          = some (Simulator.ciphered (kind = .encrypted) (image.take size.toNat))) ∧
      ∀ (a : Nat) (ha : a < capacity),
        (Touches offset.toNat size.toNat a → a < offset.toNat ∨ offset.toNat + size.toNat ≤ a →
          closing.2.loader.device.cells[a].value = 0xFF) ∧
        (¬Touches offset.toNat size.toNat a →
          closing.2.loader.device.cells[a] = start.loader.device.cells[a])) := by
  intro start opened blocks image c closing hunit
  obtain ⟨hbefore, hwithin⟩ := List.forall_mem_append.mp hsteady
  have hinside : Job.Inside capacity offset size := ⟨hsectors, hcap, hin⟩
  -- the device keeps its conduct, so the job is opened
  have hconduct : start.loader.device.conduct = d.conduct :=
    conduct_run (c := powerOn d) hfaults hbefore
  have hstart : start.loader.device.faults = {} :=
    (congrArg Simulator.Conduct.faults hconduct).trans hfaults
  have hopens : Opens (.start size offset) size offset start opened := start.after_opening rfl
  have hbegins := Unfailing.of_opens hopens hstart
  have hfresh := hopens.fresh_of_faultless hstart
  -- what the session keeps up
  have hunfailing : Unfailing offset size blocks c :=
    session_induct (Q := fun e => e.opens = false ∧ e.switches = false)
      (fun _ _ _ he h => h.after hinside he.1 he.2) [] hbegins
      fun e he => ⟨hsession e he, hwithin e he⟩
  have hclosed := remaining_of_closed hfresh hsession
  obtain ⟨w, hsurrounded⟩ := hopens.surrounded hfresh hinside.fits hsession
  have herror : c.loader.job.error = none := by
    refine hunfailing.error (hunit.imp_left fun hencrypts => ?_)
    have hsame : c.loader.device.conduct = opened.loader.device.conduct :=
      conduct_run hbegins.faults hwithin
    exact (congrArg Simulator.Conduct.encrypts
      (hsame.trans (hopens.conduct.trans hconduct))).trans hencrypts
  have hok := finish_ok_iff c
  rw [hunfailing.remaining_eq_zero_iff] at hok
  refine ⟨hok.trans ⟨fun h => ⟨h.1, h.2.1⟩, fun h => ⟨h.1, h.2, herror⟩⟩, ?_, ?_⟩
  · intro hshort
    have hremaining : c.loader.job.remaining ≠ 0 := fun h0 =>
      Nat.not_le.mpr hshort (hunfailing.remaining_eq_zero_iff.mp h0)
    have hactive : c.loader.job.active = true := by
      cases h : c.loader.job.active with
      | true => rfl
      | false => exact absurd (hclosed h) hremaining
    have hclosing : closing = (.ack (.failed .shortData), c) :=
      finish_of_short c hactive hremaining
    rw [hclosing]
    exact ⟨rfl, hactive⟩
  · intro hanswer
    have hremaining := hunfailing.remaining_eq_zero_iff.mpr (hok.mp hanswer).2.1
    have hpos : 0 < size.toNat := UInt32.lt_iff_toNat_lt.mp hsize
    obtain ⟨kind?, w', hraw⟩ := hunfailing.raw
    obtain ⟨kind, -, hkinds, -, -, hread⟩ :=
      hraw.on_flash hremaining herror (UInt32.pos_iff_ne_zero.mp hsize)
    refine ⟨⟨kind, hkinds, hread⟩, ?_⟩
    intro a ha
    obtain ⟨herased, hkept⟩ := hsurrounded.around hpos hin hremaining a ha
    refine ⟨?_, hkept⟩
    intro htouches hout
    exact congrArg Cell.value (herased htouches hout)

/-- Four bytes on both sides of a sector border, with a block too much of which the last byte is
    padding; the device takes its time and an earlier session has written to it. -/
theorem raw_session_complete_padded :
    let d : Simulator 8192 := { eraseTime := 3, programTime := 2, encrypts := true }
    let block (seq : UInt32) : DataBlock := ⟨.encrypted, seq, Crc32.checksum [1, 2, 3], [1, 2, 3]⟩
    let before : List Event := [.request (.start 3 7), .request (.data (block 0)), .idle]
    let session : List Event := [.idle, .request (.data (block 0)), .request .finish,
      .request (.data (block 1)), .idle]
    let start := (powerOn d).run before
    let opened := start.after (.request (.start 4 4094))
    let c := opened.run session
    let closing := c.execute .finish
    closing.1 = .ack .ok ∧
      (∃ kind, (∀ b ∈ opened.takenIn session, b.kind = kind) ∧
        closing.2.loader.device.read? (4094 : UInt32).toNat (4 : UInt32).toNat
          = some (Simulator.ciphered (kind = .encrypted)
              (((opened.takenIn session).flatMap DataBlock.payload).take (4 : UInt32).toNat))) ∧
      ∀ (a : Nat) (ha : a < 8192),
        (Touches (4094 : UInt32).toNat (4 : UInt32).toNat a →
          a < (4094 : UInt32).toNat ∨ (4094 : UInt32).toNat + (4 : UInt32).toNat ≤ a →
          closing.2.loader.device.cells[a].value = 0xFF) ∧
        (¬Touches (4094 : UInt32).toNat (4 : UInt32).toNat a →
          closing.2.loader.device.cells[a] = start.loader.device.cells[a]) := by
  intro d block before session start opened c closing
  have hok : closing.1 = .ack .ok := by decide +kernel
  obtain ⟨-, -, hflash⟩ := @raw_session_complete 8192 ⟨2, rfl⟩ (by decide) d rfl before
    session (by decide) (by decide) 4 4094 (by decide) (by decide) (Or.inl rfl)
  exact ⟨hok, hflash hok⟩

end Controller
end NorLoader
