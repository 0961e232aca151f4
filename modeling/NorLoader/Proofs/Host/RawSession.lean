import NorLoader.Proofs.Host.Run
import NorLoader.Proofs.Image.Contents

/-!
# Sessions that take the image as it is

The blocks that such a session takes are of one kind, plain or encrypted, and each of them is
delivered as far as the job still takes bytes.  So the deliveries are the payloads in a row, cut
at the declared size (`RawSession`), and a session that closes without an error has them on the
flash.
-/

namespace NorLoader

/-- How blocks of some kind are stored, if they hold bytes of the image. -/
def BlockKind.storage? : BlockKind → Option Storage
  | plain => some .plain
  | encrypted => some .encrypted
  | deflated => none

namespace Controller

variable {capacity : Nat}

/-- A session for an image that comes as it is, after the blocks `bs` were taken. -/
structure RawSession (offset size : UInt32) (kind? : Option BlockKind) (w : List Delivery)
    (bs : List DataBlock) (c : Controller (Simulator capacity)) : Prop where
  contents : c.loader.job.Contents offset size w c.loader.device
  sent : sent w = (bs.flatMap DataBlock.payload).take size.toNat
  route : c.route = .image kind?
  notDeflated : kind? ≠ some .deflated
  kinds : ∀ b ∈ bs, kind? = some b.kind
  storages : ∀ v ∈ w, kind?.bind BlockKind.storage? = some v.storage

/-- Nothing that happens in a session spoils the contents of its span. -/
theorem contents_upkeep {offset size : UInt32} (hfits : Fits capacity offset.toNat size.toNat) :
    @SessionUpkeep capacity (Job.Contents offset size) where
  toUpkeep := Job.Contents.upkeep offset size hfits
  close h _ := { h with placed := { h.placed with } }
  switch _ h := { h with }

namespace RawSession

variable {offset size : UInt32} {kind? : Option BlockKind} {w : List Delivery}
  {bs : List DataBlock} {c : Controller (Simulator capacity)}

/-- What is cut off a payload is beyond the declared size. -/
theorem sent_append (h : RawSession offset size kind? w bs c) (payload : List UInt8) :
    NorLoader.sent w ++ c.loader.job.accepted payload
      = (bs.flatMap DataBlock.payload ++ payload).take size.toNat := by
  have hremaining := h.contents.placed.remaining
  have hlength := congrArg List.length h.sent
  rw [length_sent, List.length_take] at hlength
  rw [List.take_append, ← h.sent, Job.accepted]
  congr 2
  omega

/-- An event adds the payload that it brings, and no other. -/
theorem after (h : RawSession offset size kind? w bs c)
    (hfits : Fits capacity offset.toNat size.toNat) (e : Event) (he : e.opens = false) :
    ∃ kind? w, RawSession offset size kind? w (bs ++ (c.taken? e).toList) (c.after e) := by
  obtain ⟨vs, hvs, hcontents⟩ := (contents_upkeep hfits).after he h.contents
  cases htaken : c.taken? e with
  | none =>
      rw [htaken] at hvs
      have hvs : vs = [] := hvs
      rw [hvs, List.append_nil] at hcontents
      refine ⟨kind?, w, hcontents, ?_, ?_, h.notDeflated, ?_, h.storages⟩
      · simpa using h.sent
      · rw [(after_of_not_taken he htaken).2.1]
        exact h.route
      · simpa using h.kinds
  | some b =>
      obtain ⟨route, hroute, hnext⟩ := after_of_taken htaken
      rw [h.route] at hroute
      obtain ⟨rfl, hfixed⟩ := Route.taking?_image hroute
      -- the kind is fixed by the first block, and by no other
      have hkind : b.kind ≠ .deflated := by
        rcases hfixed with ⟨-, hne⟩ | hsome
        · exact hne
        · intro hdeflated
          exact h.notDeflated (hsome.trans (congrArg some hdeflated))
      have hagree : ∀ k, kind? = some k → k = b.kind := by
        intro k hk
        rcases hfixed with ⟨hnone, -⟩ | hsome
        · exact nomatch hnone.symm.trans hk
        · exact Option.some.inj (hk.symm.trans hsome)
      obtain ⟨storage, hstorage, hvs⟩ : ∃ storage, b.kind.storage? = some storage ∧
          vs = c.loader.job.deliveries storage b.payload := by
        rw [htaken] at hvs
        simp only [Delivers] at hvs
        cases hk : b.kind with
        | plain => exact ⟨.plain, rfl, by simpa [hk] using hvs⟩
        | encrypted => exact ⟨.encrypted, rfl, by simpa [hk] using hvs⟩
        | deflated => exact absurd hk hkind
      refine ⟨some b.kind, w ++ vs, hcontents, ?_, ?_, ?_, ?_, ?_⟩
      · show NorLoader.sent (w ++ vs) = _
        rw [NorLoader.sent, List.flatMap_append]
        show NorLoader.sent w ++ NorLoader.sent vs = _
        rw [hvs, Job.sent_deliveries, h.sent_append]
        simp
      · rw [hnext]
        exact (storePayload_route _ _ _).1
      · intro heq
        exact hkind (Option.some.inj heq)
      · intro b'' hb
        rcases List.mem_append.mp hb with hb | hb
        · rw [hagree _ (h.kinds b'' hb)]
        · rw [show b'' = b by simpa using hb]
      · intro v hv
        show b.kind.storage? = some v.storage
        rcases List.mem_append.mp hv with hv | hv
        · obtain ⟨k, hk, hkv⟩ := Option.bind_eq_some_iff.mp (h.storages v hv)
          rw [← hagree k hk]
          exact hkv
        · rw [hvs, Job.deliveries] at hv
          split at hv
          · exact absurd hv List.not_mem_nil
          · rw [List.mem_singleton.mp hv]
            exact hstorage

/-- A session that was just opened has no blocks yet. -/
theorem of_opens {c' : Controller (Simulator capacity)} (hjob : c'.loader.job = .fresh size offset)
    (hroute : c'.route = .image none) : RawSession offset size none [] [] c' where
  contents := by
    rw [hjob]
    exact Job.Contents.fresh offset size _
  sent := List.take_nil.symm
  route := hroute
  notDeflated := nofun
  kinds := nofun
  storages := nofun

/-- The kind of the blocks says how the bytes are stored. -/
theorem stored_eq (h : RawSession offset size kind? w bs c) {kind : BlockKind}
    (hkind : kind? = some kind) :
    stored w = Simulator.ciphered (kind = .encrypted) (NorLoader.sent w) := by
  have hstorages := h.storages
  rw [hkind] at hstorages
  cases kind with
  | plain =>
      exact stored_of_storage .plain fun v hv => (Option.some.inj (hstorages v hv)).symm
  | encrypted =>
      exact stored_of_storage .encrypted fun v hv => (Option.some.inj (hstorages v hv)).symm
  | deflated => exact absurd hkind h.notDeflated

/-- Once all bytes were delivered, and none of them in vain, the image is on the flash. -/
theorem on_flash (h : RawSession offset size kind? w bs c)
    (hremaining : c.loader.job.remaining = 0) (herror : c.loader.job.error = none)
    (hsize : size ≠ 0) :
    ∃ kind, kind ≠ .deflated ∧ (∀ b ∈ bs, b.kind = kind) ∧
      offset.toNat + size.toNat ≤ capacity ∧
      size.toNat ≤ (bs.flatMap DataBlock.payload).length ∧
      c.loader.device.read? offset.toNat size.toNat
        = some (Simulator.ciphered (kind = .encrypted)
            ((bs.flatMap DataBlock.payload).take size.toNat)) := by
  have hpos : 0 < size.toNat := Nat.pos_of_ne_zero fun h0 => hsize (UInt32.toNat_inj.mp h0)
  have hall := h.contents.placed.delivered_of_complete hremaining
  have hlength : (stored w).length = size.toNat := (length_stored w).trans hall
  -- something was delivered, so the session has a kind
  obtain ⟨v, hv⟩ : ∃ v, v ∈ w := List.exists_mem_of_ne_nil w fun h0 => by
    rw [h0] at hall
    exact absurd hall.symm (Nat.ne_of_gt hpos)
  obtain ⟨kind, hkind, -⟩ := Option.bind_eq_some_iff.mp (h.storages v hv)
  have hstored := h.stored_eq hkind
  have hholds := h.contents.holds herror
  have hne : stored w ≠ [] := List.ne_nil_of_length_pos (by omega)
  have hread := Simulator.read?_of_holds hholds hne
  have hrange := hholds.in_range hne
  rw [hlength] at hread hrange
  rw [hstored, h.sent] at hread
  refine ⟨kind, ?_, ?_, hrange, ?_, hread⟩
  · intro hdeflated
    exact h.notDeflated (hkind.trans (congrArg some hdeflated))
  · intro b hb
    exact Option.some.inj ((h.kinds b hb).symm.trans hkind)
  · have htake := congrArg List.length h.sent
    rw [length_sent, hall, List.length_take] at htake
    omega

end RawSession

/-- Success is never told of a session that took the image as it is unless the flash holds the
    image.  The device starts out in any state, with any latencies and with or without an
    encryption unit; any run precedes the session, and in it blocks may be refused, faults
    switched and the device polled at will.  The image is the payloads that the session took, one
    after the other, cut at the declared size; it is within the device, and it reads as it was
    sent, or ciphered if the blocks were of the encrypted kind. -/
theorem finished_session_on_flash (hblocks : blockSize ∣ capacity) (hcap : capacity < 2 ^ 32)
    (d : Simulator capacity) (before session : List Event)
    (hsession : ∀ e ∈ session, e.opens = false) (size offset : UInt32) :
    let opened := (powerOn d).run (before ++ [.request (.start size offset)])
    let blocks := opened.takenIn session
    let closing := (opened.run session).execute .finish
    closing.1 = .ack .ok → size = 0 ∨ ∃ kind, kind ≠ .deflated ∧ (∀ b ∈ blocks, b.kind = kind) ∧
      offset.toNat + size.toNat ≤ capacity ∧
      size.toNat ≤ (blocks.flatMap DataBlock.payload).length ∧
      closing.2.loader.device.read? offset.toNat size.toNat
        = some (Simulator.ciphered (kind = .encrypted)
            ((blocks.flatMap DataBlock.payload).take size.toNat)) := by
  intro opened blocks closing hok
  obtain ⟨hactive, hremaining, herror⟩ := (finish_ok_iff _).mp hok
  have hspan : (Request.start size offset).span? = some (size, offset) := rfl
  have hopens := (powerOn d).run_opening before hspan
  obtain ⟨hfresh, hroute⟩ := hopens.fresh_of_active hsession hactive
  have hfits : Fits capacity offset.toNat size.toNat := Or.inl ⟨hblocks, hcap⟩
  obtain ⟨kind?, w, hraw⟩ := session_induct
    (I := fun bs c => ∃ kind? w, RawSession offset size kind? w bs c)
    (fun bs c e he ⟨_, _, h⟩ => h.after hfits e he)
    [] ⟨none, [], RawSession.of_opens hfresh hroute⟩ hsession
  rw [List.nil_append] at hraw
  by_cases hsize : size = 0
  · exact Or.inl hsize
  · exact Or.inr (hraw.on_flash hremaining herror hsize)

/-- Three encrypted bytes on both sides of a sector border, on a device that takes its time. -/
theorem finished_session_on_flash_over_border :
    let d : Simulator 65536 := { eraseTime := 3, programTime := 2, encrypts := true }
    let block : DataBlock := ⟨.encrypted, 0, Crc32.checksum [1, 2, 3], [1, 2, 3]⟩
    let opened := (powerOn d).run ([.idle] ++ [.request (.start 3 4094)])
    let session : List Event := [.idle, .request (.data block), .request .query]
    let closing := (opened.run session).execute .finish
    closing.1 = .ack .ok ∧ ((3 : UInt32) = 0 ∨ ∃ kind, kind ≠ .deflated ∧
      (∀ b ∈ opened.takenIn session, b.kind = kind) ∧
      (4094 : UInt32).toNat + (3 : UInt32).toNat ≤ 65536 ∧
      (3 : UInt32).toNat ≤ ((opened.takenIn session).flatMap DataBlock.payload).length ∧
      closing.2.loader.device.read? (4094 : UInt32).toNat (3 : UInt32).toNat
        = some (Simulator.ciphered (kind = .encrypted)
            (((opened.takenIn session).flatMap DataBlock.payload).take (3 : UInt32).toNat))) := by
  intro d block opened session closing
  have hok : closing.1 = .ack .ok := by decide +kernel
  exact ⟨hok,
    finished_session_on_flash ⟨1, rfl⟩ (by decide) d [.idle] session (by decide) 3 4094 hok⟩

end Controller
end NorLoader
