import NorLoader.Proofs.Deflate.ReadOutput
import NorLoader.Proofs.Image.FeedSteps

/-!
# What is announced of a stream

How much of a stream is announced only tells a read whether more is to come behind its piece.  If
no more is announced than the piece holds, nothing depends on how much it is (`Overrun`): the piece
is unpacked as the last one of its stream (`Progress.unpack_overrun`), although it may go past what
was announced.
-/

namespace NorLoader

namespace Unpacker

/-- The unpacker with another number of bytes announced. -/
def announcing (u : Unpacker) (left : UInt32) : Unpacker := { u with packedLeft := left }

/-- A read of a piece behind which nothing is announced does not depend on how much is announced,
    and leaves no more announced than there is left of the piece. -/
theorem readOnce_announcing (u : Unpacker) {piece : List UInt8} (hpiece : piece.length < 2 ^ 32) :
    ∃ status consumed, ∃ v : Unpacker, ∀ left : UInt32, left.toNat ≤ piece.length →
      ∃ left' : UInt32, left'.toNat ≤ (piece.drop consumed).length ∧
        (u.announcing left).readOnce piece = (status, consumed, v.announcing left') := by
  let result := StreamReader.read u.reader piece u.window u.held false
  refine ⟨result.status, result.consumed, ⟨result.reader, result.window, result.pos, 0, u.phase⟩, ?_⟩
  intro left hleft
  refine ⟨satSub left (UInt32.ofNat result.consumed), ?_, ?_⟩
  · have hconsumed : result.consumed ≤ piece.length := LawfulStreamReader.consumed_read_le ..
    have hcount : (UInt32.ofNat result.consumed).toNat = result.consumed :=
      UInt32.toNat_ofNat_of_lt' (Nat.lt_of_le_of_lt hconsumed hpiece)
    rw [toNat_satSub, hcount, List.length_drop]
    omega
  · have hmore : decide (left.toNat > piece.length) = false := decide_eq_false (Nat.not_lt.mpr hleft)
    have hread : StreamReader.read (u.announcing left).reader piece (u.announcing left).window
        (u.announcing left).held ((u.announcing left).packedLeft.toNat > piece.length) = result :=
      congrArg (StreamReader.read u.reader piece u.window u.held) hmore
    rw [readOnce_eq, hread]
    rfl

/-- A piece without bytes changes nothing, but it may be the moment when more of the stream is
    wanted for an image that is complete. -/
theorem unpack_nil {δ ρ : Type} [StreamReader ρ] [FlashDevice δ] (u : Unpacker ρ) (j : Job) (d : δ) :
    u.unpack j [] d
      = (u, if u.phase ≠ .complete ∧ j.remaining = 0 ∧ u.packedLeft = 0
          then j.note .excessData else j, d) := by
  by_cases hphase : u.phase = .complete
  · simp [unpack, hphase]
  · have hstop : (⟨u, j, d, [], .needsInput, false⟩ : Unpacking δ ρ).canGoOn = false := rfl
    simp only [unpack, hphase, if_false]
    rw [Unpacking.cycleUpTo_of_stop _ (Or.inl hstop), Unpacking.readTrailing_of_stop hstop]
    simp [Unpacking.settle, ReadStatus.rejects, ReadStatus.goesOn, hphase]

end Unpacker

namespace Unpacking

variable {δ : Type}

/-- The unpacking with another number of bytes announced. -/
def announcing (k : Unpacking δ) (left : UInt32) : Unpacking δ :=
  { k with unpacker := k.unpacker.announcing left }

/-- Two unpackings that differ in nothing but how many bytes are announced, and for both of them
    that is no more than the piece holds. -/
inductive Overrun : Unpacking δ → Unpacking δ → Prop where
  | of (k : Unpacking δ) {left left' : UInt32} : k.rest.length < 2 ^ 32 →
      left.toNat ≤ k.rest.length → left'.toNat ≤ k.rest.length →
      Overrun (k.announcing left) (k.announcing left')

namespace Overrun

variable {k k' : Unpacking δ}

/-- They go on alike. -/
theorem canGoOn (h : Overrun k k') : k'.canGoOn = k.canGoOn := by
  cases h
  rfl

/-- They have the same job. -/
theorem job (h : Overrun k k') : k'.job = k.job := by
  cases h
  rfl

/-- They hand over alike. -/
theorem handsOver (h : Overrun k k') : k'.handsOver = k.handsOver := by
  cases h
  rfl

/-- What is left of a short piece is short. -/
theorem length_drop_lt {piece : List UInt8} (h : piece.length < 2 ^ 32) (n : Nat) :
    (piece.drop n).length < 2 ^ 32 := by
  rw [List.length_drop]
  exact Nat.lt_of_le_of_lt (Nat.sub_le _ _) h

/-- They read on alike after the image. -/
theorem readTrailing (h : Overrun k k') : Overrun k.readTrailing k'.readTrailing := by
  obtain ⟨k, hshort, hleft, hleft'⟩ := h
  by_cases hgo : (k.canGoOn && k.job.remaining = 0) = true
  · obtain ⟨status, consumed, v, hall⟩ := k.unpacker.readOnce_announcing hshort
    obtain ⟨rest, hrest, hread⟩ := hall _ hleft
    obtain ⟨rest', hrest', hread'⟩ := hall _ hleft'
    have hless := length_drop_lt hshort consumed
    have hgo' : ∀ left, ((k.announcing left).canGoOn &&
      decide ((k.announcing left).job.remaining = 0)) = true := fun _ => hgo
    simp only [Unpacking.readTrailing]
    rw [if_pos (hgo' _), if_pos (hgo' _)]
    simp only [announcing, hread, hread']
    show Overrun (if v.held > k.unpacker.held then _ else _)
      (if v.held > k.unpacker.held then _ else _)
    split
    · exact .of ⟨{ v with held := 0 }, k.job, k.device, k.rest.drop consumed, status, true⟩ hless
        hrest hrest'
    · exact .of ⟨v, k.job, k.device, k.rest.drop consumed, status, k.excess⟩ hless hrest hrest'
  · have hstop : ∀ left, (k.announcing left).readTrailing = k.announcing left := fun _ => if_neg hgo
    rw [hstop, hstop]
    exact .of k hshort hleft hleft'

variable [FlashDevice δ]

/-- They write the same when they hand over. -/
theorem handOver (h : Overrun k k') : Overrun k.handOver k'.handOver := by
  obtain ⟨k, hshort, hleft, hleft'⟩ := h
  exact .of k.handOver hshort hleft hleft'

/-- They read alike. -/
theorem afterRead (h : Overrun k k') : Overrun k.afterRead k'.afterRead := by
  obtain ⟨k, hshort, hleft, hleft'⟩ := h
  obtain ⟨status, consumed, v, hall⟩ := k.unpacker.readOnce_announcing hshort
  obtain ⟨rest, hrest, hread⟩ := hall _ hleft
  obtain ⟨rest', hrest', hread'⟩ := hall _ hleft'
  have hless := length_drop_lt hshort consumed
  simp only [Unpacking.afterRead, announcing, hread, hread']
  split
  · exact .of ⟨{ v with phase := .reading }, _, _, k.rest.drop consumed, status, k.excess⟩ hless
      hrest hrest'
  · exact .of ⟨v, _, _, k.rest.drop consumed, status, k.excess⟩ hless hrest hrest'

/-- They go alike through a cycle. -/
theorem cycle (h : Overrun k k') : Overrun k.cycle k'.cycle := by
  have hread := h.afterRead
  rw [cycle_eq, cycle_eq, hread.handsOver]
  split
  · exact hread.handOver
  · exact hread

/-- They go alike through any number of cycles. -/
theorem cycleUpTo (n : Nat) (h : Overrun k k') : Overrun (k.cycleUpTo n) (k'.cycleUpTo n) := by
  induction n generalizing k k' with
  | zero => exact h
  | succ n ih =>
      simp only [Unpacking.cycleUpTo, h.canGoOn, h.job]
      split
      · exact ih h.cycle
      · exact h

/-- A verdict does not depend on how much is announced. -/
theorem finishes {capacity : Nat} {k k' : Unpacking (Simulator capacity)} {f : Feed capacity}
    {w : List Delivery} {later : List UInt8} (h : Overrun k k') (hf : k'.Finishes f w later) :
    k.Finishes f w later := by
  cases h
  refine ⟨hf.job, hf.windowed, hf.sent, ?_⟩
  cases hf.verdict with
  | complete hstatus hright hinput herror hexcess =>
      exact .complete hstatus hright hinput herror hexcess
  | rejected hrejects hrejected hquiet => exact .rejected hrejects hrejected hquiet
  | excess hexcess hzero hless => exact .excess hexcess hzero hless

end Overrun
end Unpacking

namespace Progress

variable {capacity : Nat} {f : Feed capacity} {u : Unpacker} {j : Job} {s : Simulator capacity}

/-- The piece with which all that was announced has come, or more, is unpacked as the last one of
    the stream. -/
theorem unpack_overrun {piece : List UInt8} {left : UInt32} (hextra : f.extra = 0)
    (h : Progress f piece (u.announcing left) j s) (hshort : piece.length < 2 ^ 32)
    (hleft : u.packedLeft.toNat ≤ piece.length) :
    Progress f [] (u.unpack j piece s).1 (u.unpack j piece s).2.1 (u.unpack j piece s).2.2 := by
  rw [← List.append_nil piece] at h
  cases h with
  | complete hphase hright hinput hjob hwindowed hsent herror =>
      exact unpack (.complete hphase hright hinput hjob hwindowed hsent herror)
  | failed hfails hquiet hjob hwindowed hsent herror =>
      exact unpack (.failed hfails hquiet hjob hwindowed hsent herror)
  | midway hat hjob herror hfull hroom hempty hungry hmore =>
      have hbetween :=
        Unpacking.between_start hat hjob herror hfull hroom hempty hungry hmore
      have hoverrun : Unpacking.Overrun ⟨u, j, s, piece, .needsInput, false⟩
          ⟨u.announcing left, j, s, piece, .needsInput, false⟩ := by
        have hleft' := hat.left
        rw [List.length_nil, Nat.zero_add, List.append_nil, hextra] at hleft'
        exact .of ⟨u, j, s, piece, .needsInput, false⟩ hshort hleft (Nat.le_of_eq hleft')
      have hphase : u.phase ≠ .complete := hat.phase
      simp only [Unpacker.unpack, hphase, if_false]
      rcases hbetween.throughPiece (Unpacking.enough_reads j.remaining.toNat) with
        ⟨x', w', hread, hstop⟩ | ⟨w', hfinishes⟩
      · -- nothing is announced behind the piece, so the stream does not go on
        obtain ⟨-, -, -, habs⟩ := hread.settle hstop
        rw [hextra] at habs
        exact absurd habs (Nat.lt_irrefl 0)
      · exact ((hoverrun.cycleUpTo _).readTrailing.finishes hfinishes).settle

/-- At the end of a stream it is decided what becomes of it. -/
theorem decided (h : Progress f [] u j s) (hextra : f.extra = 0) :
    u.phase = .complete ∨ j.error ≠ none := by
  cases h with
  | midway _ _ _ _ _ _ _ hmore =>
      rw [hextra] at hmore
      exact absurd hmore (Nat.lt_irrefl 0)
  | complete hphase => exact Or.inl hphase
  | failed _ _ _ _ _ herror => exact Or.inr herror

end Progress

/-! ## Streams that turn out to be longer -/

/-- The same job with a stream that goes on to another end, and no more of it announced. -/
def Feed.upTo {capacity : Nat} (f : Feed capacity) (last : Expansion) (hends : last.next? = none) :
    Feed capacity := { f with last := last, extra := 0, ends := hends }

section Longer

variable {capacity : Nat} {f : Feed capacity} {more : List UInt8} {last : Expansion}
  {hends : last.next? = none}

/-- What fails before all of it is there fails as a whole. -/
theorem StreamEnd.Fails.upTo (h : f.Fails) (hextra : 0 < f.extra)
    (hreaches : (f.last.framed [] more).Reaches last) : (f.upTo last hends).Fails := by
  rcases h with (⟨overread, hbroken⟩ | ⟨checksum, hfinished, hne⟩ | ⟨-, hzero⟩) | hless
  · obtain rfl := hreaches.eq_of_end (Expansion.next?_of_broken hbroken)
    exact Or.inl (Or.inl ⟨overread, hbroken⟩)
  · obtain rfl := hreaches.eq_of_end (Expansion.next?_of_finished hfinished)
    exact Or.inl (Or.inr (Or.inl ⟨checksum, hfinished, hne⟩))
  · exact absurd hzero (Nat.ne_of_gt hextra)
  · have houtput : f.output <+: (f.upTo last hends).output :=
      List.IsPrefix.drop hreaches.input_output.2 windowSize
    exact Or.inr (Nat.lt_of_lt_of_le hless houtput.length_le)

/-- When more was announced, what was fed so far is the beginning of any longer stream, unless it
    is decided already that this is not a good one. -/
theorem Progress.upTo {u : Unpacker} {j : Job} {s : Simulator capacity} (h : Progress f [] u j s)
    (hends : last.next? = none) (hextra : 0 < f.extra) (hne : more ≠ []) (hshort : more.length < 2 ^ 32)
    (hreaches : (f.last.framed [] more).Reaches last) :
    (u.packedLeft.toNat = f.extra ∧
      Progress (f.upTo last hends) more (u.announcing (UInt32.ofNat more.length)) j s) ∨
    ((u.phase = .complete ∨ j.error ≠ none) ∧ ¬(f.upTo last hends).Good) := by
  cases h with
  | midway hat hjob herror hfull hroom hempty hungry _ =>
      rename_i x w
      obtain rfl := hat.reaches.eq_of_end (hungry.next? hat.input)
      have hcount : (UInt32.ofNat more.length).toNat = more.length :=
        UInt32.toNat_ofNat_of_lt' hshort
      have hleft := hat.left
      rw [List.length_nil, Nat.zero_add] at hleft
      refine Or.inl ⟨hleft, .midway (x := f.last.framed [] more) ⟨⟨hat.decoder, hat.bits, hat.near,
        hat.held_le, hat.recalls, hat.length, hat.seeded, hat.given⟩, hat.sum, hreaches, ?_, ?_,
        hat.phase⟩ hjob herror hfull hroom hempty hungry ?_⟩
      · show f.last.input ++ more = more
        rw [hat.input]
        rfl
      · show (UInt32.ofNat more.length).toNat = 0 + more.length + 0
        rw [hcount, Nat.zero_add, Nat.add_zero]
      · exact Nat.lt_of_lt_of_le (List.length_pos_iff.mpr hne) (Nat.le_add_right _ _)
  | complete hphase hright hinput =>
      obtain rfl := hreaches.eq_of_end (Expansion.next?_of_finished hright)
      refine Or.inr ⟨Or.inl hphase, fun hgood => hne ?_⟩
      exact (List.append_eq_nil_iff.mp hgood.2.2).2
  | failed hfails _ _ _ _ herror =>
      exact Or.inr ⟨Or.inr herror, (hfails.upTo hextra hreaches).not_good⟩

end Longer
end NorLoader
