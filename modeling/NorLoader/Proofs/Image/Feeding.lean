import Mathlib.Data.List.Infix
import NorLoader.Proofs.Image.Reading
import NorLoader.Proofs.Image.Windows

/-!
# Feeding a stream to a job

A stream is fed to an unpacker whose job is on a device without faults.  Between two cycles the
unpacker is at a point of the stream, everything before the window was delivered, and only full
windows were (`Between`).  A cycle leads from one such state to the next, or to a verdict on the
stream (`Finishes`): it is complete, it is rejected, or it puts out more than the image has.
Either way the job got the output of the whole stream, cut at the declared size.
-/

namespace NorLoader

/-- A stream that is fed to a job on a device, with what the window held and the length of the log
    when the job began.  `keeps` is what is to be known of the job. -/
structure Feed (capacity : Nat) extends StreamEnd where
  seed : List UInt8
  offset : UInt32
  calls : Nat
  keeps : List Delivery → Job → Simulator capacity → Prop
  seeded : seed.length = windowSize
  upkeep : Job.Upkeep keeps
  aimed : ∀ {w j s}, keeps w j s → j.Aimed offset size calls w s

namespace Feed

variable {capacity : Nat} (f : Feed capacity)

/-- None of the deliveries leaves the device. -/
def InRange (w : List Delivery) : Prop :=
  ∀ call ∈ placements f.offset.toNat w, call.Within capacity

/-- The bytes of the image that the stream puts out. -/
def image : List UInt8 := f.output.take f.size.toNat

end Feed

namespace Unpacking

variable {capacity : Nat}

/-- An unpacking whose unpacker holds the output of a stream up to some point, but for what was
    delivered, and only full windows were. -/
structure Holds (k : Unpacking (Simulator capacity)) (f : Feed capacity) (x : Expansion)
    (w : List Delivery) : Prop where
  follows : k.unpacker.Follows x (f.seed ++ sent w)
  reaches : x.Reaches f.last
  job : f.keeps w k.job k.device
  error : k.job.error = none ↔ f.InRange w
  full : ∀ v ∈ w, v.Full
  excess : k.excess = false

/-- Between two cycles the stream goes on, and unless the image is complete there is room in the
    window. -/
structure Between (k : Unpacking (Simulator capacity)) (f : Feed capacity) (x : Expansion)
    (w : List Delivery) (later : List UInt8) : Prop extends Holds k f x w where
  place : k.unpacker.At f.toStreamEnd x (f.seed ++ sent w) k.rest later
  room : k.unpacker.held < windowSize
  empty : k.job.remaining = 0 → k.unpacker.held = 0
  status : k.status = .windowFull ∨ (k.status = .needsInput ∧
    (k.rest = [] → x.Hungry ∧ 0 < later.length + f.extra))

/-- What an unpacking found out about its stream. -/
inductive Over (k : Unpacking (Simulator capacity)) (f : Feed capacity) (w : List Delivery)
    (later : List UInt8) : Prop where
  /-- The stream is complete.  What stands behind it in the piece is `k.rest`. -/
  | complete : k.status = .done → f.Right → f.last.input = k.rest ++ later →
      (k.job.error = none ↔ f.InRange w) → (k.excess = true ↔ f.size.toNat < f.output.length) →
      Over k f w later
  | rejected : k.status.rejects = true → f.Rejected →
      (later = [] ∨ k.unpacker.held = 0 ∧ k.unpacker.reader.decoder.Stuck) → Over k f w later
  /-- There is more output than the image has bytes. -/
  | excess : k.excess = true → k.job.remaining = 0 → f.size.toNat < f.output.length →
      Over k f w later

/-- An unpacking that came to a verdict.  The job got what the stream puts out of the image. -/
structure Finishes (k : Unpacking (Simulator capacity)) (f : Feed capacity) (w : List Delivery)
    (later : List UInt8) : Prop where
  job : f.keeps w k.job k.device
  windowed : Windowed w
  sent : sent w = f.image
  verdict : k.Over f w later

variable {k : Unpacking (Simulator capacity)} {f : Feed capacity} {x : Expansion}
  {w : List Delivery} {later : List UInt8}

/-! ## Handing over -/

/-- What is held and what was delivered is the output up to this point. -/
theorem Holds.sent_output (h : k.Holds f x w) :
    NorLoader.sent w ++ k.unpacker.output = x.output.drop windowSize := by
  rw [← h.follows.output, List.append_assoc, List.drop_left' f.seeded]

/-- What is delivered and what is held make up the output. -/
theorem Holds.remaining (h : k.Holds f x w) :
    delivered w + k.job.remaining.toNat = f.size.toNat ∧
      delivered w + k.unpacker.held = (x.output.drop windowSize).length := by
  refine ⟨(f.aimed h.job).remaining, ?_⟩
  rw [← h.sent_output, List.length_append, h.follows.length_output, length_sent]

/-- All that was put out up to a point is put out in the end. -/
theorem Holds.prefix_output (h : k.Holds f x w) : x.output.drop windowSize <+: f.output :=
  List.IsPrefix.drop h.reaches.input_output.2 windowSize

/-- The deliveries once the output was handed over. -/
def handed (k : Unpacking (Simulator capacity)) (w : List Delivery) : List Delivery :=
  w ++ k.job.deliveries .plain k.unpacker.output

/-- With what is handed over the image goes on as far as the job takes it. -/
theorem Holds.sent_handed (h : k.Holds f x w) :
    NorLoader.sent (k.handed w) = (x.output.drop windowSize).take f.size.toNat := by
  obtain ⟨hremaining, -⟩ := h.remaining
  have hlength := length_sent w
  rw [handed, NorLoader.sent, List.flatMap_append]
  show NorLoader.sent w ++ NorLoader.sent (k.job.deliveries .plain k.unpacker.output) = _
  rw [Job.sent_deliveries, ← h.sent_output, List.take_append, List.take_of_length_le (by omega),
    Job.accepted]
  congr 2
  omega

/-- The deliveries are complete once the output goes past the image, or at the end. -/
theorem Holds.sent_handed_eq (h : k.Holds f x w)
    (hall : x = f.last ∨ f.size.toNat ≤ (x.output.drop windowSize).length) :
    NorLoader.sent (k.handed w) = f.image := by
  rw [h.sent_handed]
  rcases hall with rfl | hle
  · rfl
  · exact List.prefix_iff_eq_take.mp
      ((List.take_prefix _ _).trans h.prefix_output) |>.trans (by
        rw [List.length_take, Nat.min_eq_left hle]
        rfl)

/-- What is handed over are whole windows, but for the last. -/
theorem Holds.windowed_handed (h : k.Holds f x w) : Windowed (k.handed w) := by
  refine Windowed.append h.full ?_
  rw [Job.deliveries]
  split
  · exact .nil
  · rename_i hne
    refine .last hne ?_
    have hlength := h.follows.length_output
    have hheld := h.follows.held_le
    rw [Job.accepted, List.length_take]
    omega

/-- Handing over keeps the job, and tells if there was too much. -/
theorem Holds.handOver (h : k.Holds f x w) :
    f.keeps (k.handed w) k.handOver.job k.handOver.device ∧
      (k.handOver.job.error = none ↔ f.InRange (k.handed w)) ∧
      k.handOver.excess = decide (k.unpacker.held > k.job.remaining.toNat) := by
  refine ⟨f.upkeep.handOver h.job, ?_, ?_⟩
  · refine ((f.aimed h.job).error_write k.unpacker.output).trans ?_
    rw [h.error, Feed.InRange, Feed.InRange, handed, placements_append]
    exact List.forall_mem_append.symm
  · show (k.excess || decide (k.unpacker.held > k.job.remaining.toNat)) = _
    rw [h.excess, Bool.false_or]

/-- What is missing after the output was handed over. -/
theorem Holds.remaining_handOver (h : k.Holds f x w) :
    (NorLoader.sent (k.handed w)).length + k.handOver.job.remaining.toNat = f.size.toNat := by
  rw [length_sent]
  exact (f.aimed h.handOver.1).remaining

/-! ## Cycles -/

/-- Behind a full window the unpacker is where it was, with nothing held. -/
theorem Holds.handOver_full (h : k.Holds f x w)
    (hplace : k.unpacker.At f.toStreamEnd x (f.seed ++ NorLoader.sent w) k.rest later)
    (hfull : k.unpacker.held = windowSize) (hroom : windowSize ≤ k.job.remaining.toNat) :
    k.handOver.Holds f x (k.handed w) ∧
      k.handOver.unpacker.At f.toStreamEnd x (f.seed ++ NorLoader.sent (k.handed w)) k.rest
        later ∧ k.handOver.job.remaining.toNat + windowSize = k.job.remaining.toNat := by
  obtain ⟨hjob, herror, hexcess⟩ := h.handOver
  obtain ⟨hremaining, hheld⟩ := h.remaining
  have hleft := h.remaining_handOver
  have hsent := h.sent_handed
  rw [List.take_of_length_le (by omega)] at hsent
  rw [hsent] at hleft
  -- the seed and all deliveries are the whole output
  have hgiven : f.seed ++ NorLoader.sent (k.handed w) = x.output := by
    rw [hsent, ← h.sent_output, ← List.append_assoc]
    exact h.follows.output
  have hfollows : k.handOver.unpacker.Follows x (f.seed ++ NorLoader.sent (k.handed w)) := by
    have hrecalls := h.follows.recalls
    rw [hfull] at hrecalls
    refine ⟨h.follows.decoder, h.follows.bits, h.follows.near, Nat.zero_le _, hrecalls.wrap, ?_,
      ?_, ?_⟩
    · exact congrArg List.length hgiven.symm
    · rw [List.length_append, f.seeded]
      exact Nat.le_add_right _ _
    · rw [hgiven]
  refine ⟨⟨hfollows, h.reaches, hjob, herror, ?_, ?_⟩, ⟨hfollows, hplace.sum, hplace.reaches,
    hplace.input, hplace.left, hplace.phase⟩, by omega⟩
  · refine List.forall_mem_append.mpr ⟨h.full, ?_⟩
    intro v hv
    have hall : k.job.accepted k.unpacker.output = k.unpacker.output := by
      refine List.take_of_length_le ?_
      rw [h.follows.length_output]
      omega
    rw [Job.deliveries, hall] at hv
    split at hv
    · exact absurd hv List.not_mem_nil
    · rw [List.mem_singleton.mp hv]
      exact ⟨rfl, h.follows.length_output.trans hfull⟩
  · rw [hexcess, decide_eq_false_iff_not]
    omega

/-- A full window is delivered, or it is more than the image has. -/
theorem Holds.handOver_window (h : k.Holds f x w)
    (hplace : k.unpacker.At f.toStreamEnd x (f.seed ++ NorLoader.sent w) k.rest later)
    (hfull : k.unpacker.held = windowSize)
    (hstatus : k.status = .windowFull ∨ (k.status = .needsInput ∧
      (k.rest = [] → x.Hungry ∧ 0 < later.length + f.extra))) :
    (k.handOver.Between f x (k.handed w) later ∧
      k.handOver.job.remaining.toNat + windowSize = k.job.remaining.toNat) ∨
    k.handOver.Finishes f (k.handed w) later := by
  by_cases hroom : windowSize ≤ k.job.remaining.toNat
  · obtain ⟨hholds, hat, hless⟩ := h.handOver_full hplace hfull hroom
    exact Or.inl ⟨⟨hholds, hat, Nat.zero_lt_succ _, fun _ => rfl, hstatus⟩, hless⟩
  · obtain ⟨hjob, -, hexcess⟩ := h.handOver
    obtain ⟨hremaining, hheld⟩ := h.remaining
    have hleft := h.remaining_handOver
    have hsent := h.sent_handed
    have hlength := congrArg List.length hsent
    rw [List.length_take, Nat.min_eq_left (by omega)] at hlength
    have hle := h.prefix_output.length_le
    refine Or.inr ⟨hjob, h.windowed_handed, h.sent_handed_eq (Or.inr (by omega)),
      .excess ?_ (UInt32.toNat_inj.mp ?_) (by omega)⟩
    · rw [hexcess, decide_eq_true_iff]
      omega
    · show k.handOver.job.remaining.toNat = 0
      omega

/-- The first part of a cycle goes on to another point of the stream. -/
theorem Between.afterRead (h : k.Between f x w later) :
    ∃ x', k.afterRead.Holds f x' w ∧
      Unpacker.ReadEnds f.toStreamEnd (f.seed ++ NorLoader.sent w) k.afterRead.rest later
        k.afterRead.unpacker x' k.afterRead.status := by
  obtain ⟨x', -, hread⟩ := h.place.readOnce
  have hends : Unpacker.ReadEnds f.toStreamEnd (f.seed ++ NorLoader.sent w) k.afterRead.rest later
      k.afterRead.unpacker x' k.afterRead.status := by
    show Unpacker.ReadEnds f.toStreamEnd _ _ later (if (k.unpacker.readOnce k.rest).2.1 > 0
      then { (k.unpacker.readOnce k.rest).2.2 with phase := .reading }
      else (k.unpacker.readOnce k.rest).2.2) x' _
    split
    · exact hread.reading
    · exact hread
  exact ⟨x', ⟨hends.follows, hends.reaches, f.upkeep.eraseAhead h.job, h.error, h.full, h.excess⟩,
    hends⟩

/-- A cycle delivers a full window, uses up the piece or comes to a verdict. -/
theorem Between.cycle (h : k.Between f x w later) (hpos : k.job.remaining ≠ 0) :
    (∃ x' w', k.cycle.Between f x' w' later ∧
      (k.cycle.job.remaining.toNat + windowSize = k.job.remaining.toNat ∨
        k.cycle.canGoOn = false)) ∨
    ∃ w', k.cycle.Finishes f w' later := by
  obtain ⟨x', hholds, hends⟩ := h.afterRead
  have hsame : k.afterRead.job.remaining = k.job.remaining := rfl
  rw [cycle_eq]
  generalize hk : k.afterRead = k' at hholds hends hsame ⊢
  generalize hs : k'.status = status at hends
  rw [← hsame] at hpos ⊢
  -- a window that is full is handed over whatever the reader wants
  have hwindow : ∀ (hat : k'.unpacker.At f.toStreamEnd x' (f.seed ++ NorLoader.sent w) k'.rest
      later), k'.unpacker.held = windowSize → (k'.status = .windowFull ∨ (k'.status = .needsInput ∧
        (k'.rest = [] → x'.Hungry ∧ 0 < later.length + f.extra))) →
      (∃ x'' w', k'.handOver.Between f x'' w' later ∧
        (k'.handOver.job.remaining.toNat + windowSize = k'.job.remaining.toNat ∨
          k'.handOver.canGoOn = false)) ∨ ∃ w', k'.handOver.Finishes f w' later := by
    intro hat hfull hstatus
    rcases hholds.handOver_window hat hfull hstatus with ⟨hnext, hless⟩ | hfinishes
    · exact Or.inl ⟨x', _, hnext, Or.inl hless⟩
    · exact Or.inr ⟨_, hfinishes⟩
  cases hends with
  | windowFull hat hfull =>
      have hover : k'.handsOver = true := by simp [handsOver, hs, ReadStatus.goesOn, hfull]
      rw [if_pos hover]
      exact hwindow hat hfull (Or.inl hs)
  | needsInput hat hrest hungry hmore =>
      -- the piece is used up, and the window may be full just then
      have hstatus : k'.status = .windowFull ∨ (k'.status = .needsInput ∧
          (k'.rest = [] → x'.Hungry ∧ 0 < later.length + f.extra)) :=
        Or.inr ⟨hs, fun _ => ⟨hungry, hmore⟩⟩
      by_cases hfull : k'.unpacker.held = windowSize
      · have hover : k'.handsOver = true := by simp [handsOver, hfull]
        rw [if_pos hover]
        exact hwindow hat hfull hstatus
      · have hover : ¬k'.handsOver = true := by
          simp [handsOver, hs, ReadStatus.goesOn, hfull]
        rw [if_neg hover]
        exact Or.inl ⟨x', w, ⟨hholds, hat, Nat.lt_of_le_of_ne hholds.follows.held_le hfull,
          fun hzero => absurd hzero hpos, hstatus⟩,
          Or.inr (canGoOn_of_rest_nil hrest (fun hwindow => nomatch hs.symm.trans hwindow))⟩
  | done hat hright =>
      have hover : k'.handsOver = true := by simp [handsOver, hs, ReadStatus.goesOn]
      rw [if_pos hover]
      obtain ⟨hjob, herror, hexcess⟩ := hholds.handOver
      obtain ⟨hremaining, hheld⟩ := hholds.remaining
      have hlength : f.output.length = (f.last.output.drop windowSize).length := rfl
      refine Or.inr ⟨_, hjob, hholds.windowed_handed, hholds.sent_handed_eq (Or.inl rfl),
        .complete hs hright hat.input herror ?_⟩
      rw [hexcess, decide_eq_true_iff]
      omega
  | rejected hrejects hfollows hrejected hstuck =>
      have hover : k'.handsOver = true := by
        simp [handsOver, hs, ReadStatus.stops_of_rejects hrejects]
      rw [if_pos hover]
      refine Or.inr ⟨_, hholds.handOver.1, hholds.windowed_handed,
        hholds.sent_handed_eq (Or.inl rfl), .rejected ?_ hrejected ?_⟩
      · exact (congrArg ReadStatus.rejects hs).trans hrejects
      · exact hstuck.imp_right fun hdecoder => ⟨rfl, hdecoder⟩

/-! ## All cycles of a piece -/

/-- Nothing more is delivered after a verdict. -/
theorem Over.stops (h : k.Over f w later) : k.canGoOn = false ∨ k.job.remaining = 0 := by
  cases h with
  | complete hstatus => exact Or.inl (by simp [canGoOn, hstatus, ReadStatus.goesOn])
  | rejected hrejects =>
      exact Or.inl (by simp [canGoOn, ReadStatus.stops_of_rejects hrejects])
  | excess _ hzero => exact Or.inr hzero

/-- There are as many cycles as it takes to use up the piece or to deliver the image. -/
theorem Between.cycleUpTo (n : Nat) (h : k.Between f x w later)
    (hn : k.job.remaining.toNat < n * windowSize) :
    (∃ x' w', (k.cycleUpTo n).Between f x' w' later ∧
      ((k.cycleUpTo n).canGoOn = false ∨ (k.cycleUpTo n).job.remaining = 0)) ∨
    ∃ w', (k.cycleUpTo n).Finishes f w' later := by
  induction n generalizing k x w with
  | zero => omega
  | succ n ih =>
      by_cases hstop : k.canGoOn = false ∨ k.job.remaining = 0
      · rw [cycleUpTo_of_stop _ hstop]
        exact Or.inl ⟨x, w, h, hstop⟩
      · obtain ⟨hgo, hpos⟩ := not_or.mp hstop
        have hgo : k.canGoOn = true := by simpa using hgo
        have hleft : k.job.remaining > 0 := UInt32.pos_iff_ne_zero.mpr hpos
        simp only [Unpacking.cycleUpTo, hgo, hleft, decide_true, Bool.and_true, if_true]
        rcases h.cycle hpos with ⟨x', w', hnext, hless | hstops⟩ | ⟨w', hfinishes⟩
        · refine ih hnext ?_
          rw [Nat.succ_mul] at hn
          omega
        · rw [cycleUpTo_of_stop n (Or.inl hstops)]
          exact Or.inl ⟨x', w', hnext, Or.inl hstops⟩
        · rw [cycleUpTo_of_stop n hfinishes.verdict.stops]
          exact Or.inr ⟨w', hfinishes⟩

/-! ## Reading on -/

/-- Reading on changes nothing about a verdict. -/
theorem Finishes.readTrailing (h : k.Finishes f w later) : k.readTrailing.Finishes f w later := by
  by_cases hgo : k.canGoOn = true
  · -- only a verdict of excess leaves something to read, and it stays one
    obtain ⟨hjob, hdevice⟩ := k.readTrailing_job
    cases h.verdict with
    | complete hstatus => simp [canGoOn, hstatus, ReadStatus.goesOn] at hgo
    | rejected hrejects => simp [canGoOn, ReadStatus.stops_of_rejects hrejects] at hgo
    | excess hexcess hzero hless =>
        refine ⟨by rw [hjob, hdevice]; exact h.job, h.windowed, h.sent,
          .excess ?_ (by rw [hjob]; exact hzero) hless⟩
        simp only [Unpacking.readTrailing, hgo, hzero, decide_true, Bool.and_true, if_true]
        split
        · rfl
        · exact hexcess
  · rw [readTrailing_of_stop (Bool.not_eq_true _ ▸ hgo)]
    exact h

/-- The reader goes on to the end of the piece or to a verdict. -/
theorem Between.readTrailing (h : k.Between f x w later)
    (hstop : k.canGoOn = false ∨ k.job.remaining = 0) :
    (∃ x', k.readTrailing.Between f x' w later ∧ k.readTrailing.canGoOn = false) ∨
    k.readTrailing.Finishes f w later := by
  by_cases hgo : k.canGoOn = true
  · have hzero : k.job.remaining = 0 := hstop.resolve_left (fun hfalse => by simp [hgo] at hfalse)
    have hbefore := h.empty hzero
    obtain ⟨x', -, hends⟩ := h.place.readOnce
    -- all of the image was delivered
    have hread : Holds ⟨(k.unpacker.readOnce k.rest).2.2, k.job, k.device,
        k.rest.drop (k.unpacker.readOnce k.rest).2.1, (k.unpacker.readOnce k.rest).1, k.excess⟩
        f x' w := ⟨hends.follows, hends.reaches, h.job, h.error, h.full, h.excess⟩
    obtain ⟨hremaining, hheld⟩ := hread.remaining
    have hall : delivered w = f.size.toNat := by
      rw [hzero] at hremaining
      exact hremaining
    have hsent : NorLoader.sent w = f.image := by
      have hprefix : NorLoader.sent w <+: f.output :=
        (List.prefix_append _ _).trans (hread.sent_output ▸ hread.prefix_output)
      rw [Feed.image, ← hall, ← length_sent]
      exact List.prefix_iff_eq_take.mp hprefix
    have hlength := hread.prefix_output.length_le
    have htrailing : k.readTrailing = if (k.unpacker.readOnce k.rest).2.2.held > k.unpacker.held
        then ⟨{ (k.unpacker.readOnce k.rest).2.2 with held := 0 }, k.job, k.device,
          k.rest.drop (k.unpacker.readOnce k.rest).2.1, (k.unpacker.readOnce k.rest).1, true⟩
        else ⟨(k.unpacker.readOnce k.rest).2.2, k.job, k.device,
          k.rest.drop (k.unpacker.readOnce k.rest).2.1, (k.unpacker.readOnce k.rest).1,
          k.excess⟩ := by
      simp only [Unpacking.readTrailing, hgo, hzero, decide_true, Bool.and_true, if_true]
    rw [htrailing, hbefore]
    by_cases hmore : (k.unpacker.readOnce k.rest).2.2.held > 0
    · -- any more output is excess
      rw [if_pos hmore]
      exact Or.inr ⟨h.job, Windowed.of_full h.full, hsent, .excess rfl hzero (by
        have hheld : delivered w + (k.unpacker.readOnce k.rest).2.2.held = _ := hheld
        omega)⟩
    · rw [if_neg hmore]
      have hnone : (k.unpacker.readOnce k.rest).2.2.held = 0 := by omega
      generalize hs : (k.unpacker.readOnce k.rest).1 = status at hends hread ⊢
      cases hends with
      | windowFull hat hfull => exact absurd (hnone.symm.trans hfull) (by decide)
      | needsInput hat hrest hungry hneeds =>
          have hroom : (k.unpacker.readOnce k.rest).2.2.held < windowSize := by
            rw [hnone]
            exact Nat.zero_lt_succ _
          exact Or.inl ⟨x', ⟨hread, hat, hroom, fun _ => hnone,
            Or.inr ⟨rfl, fun _ => ⟨hungry, hneeds⟩⟩⟩,
            canGoOn_of_rest_nil hrest ReadStatus.noConfusion⟩
      | done hat hright =>
          refine Or.inr ⟨h.job, Windowed.of_full h.full, hsent,
            .complete rfl hright hat.input h.error ?_⟩
          have hheld : delivered w + (k.unpacker.readOnce k.rest).2.2.held = f.output.length :=
            hheld
          have hquiet : ¬f.size.toNat < f.output.length := by omega
          exact iff_of_false (by rw [h.excess]; exact Bool.false_ne_true) hquiet
      | rejected hrejects _ hrejected hstuck =>
          exact Or.inr ⟨h.job, Windowed.of_full h.full, hsent, .rejected hrejects hrejected
            (hstuck.imp_right fun hdecoder => ⟨hnone, hdecoder⟩)⟩
  · have hstop : k.canGoOn = false := Bool.not_eq_true _ ▸ hgo
    rw [readTrailing_of_stop hstop]
    exact Or.inl ⟨x, h, hstop⟩

/-- Unpacking a piece goes on to its end or comes to a verdict. -/
theorem Between.throughPiece {n : Nat} (h : k.Between f x w later)
    (hn : k.job.remaining.toNat < n * windowSize) :
    (∃ x' w', (k.cycleUpTo n).readTrailing.Between f x' w' later ∧
      (k.cycleUpTo n).readTrailing.canGoOn = false) ∨
    ∃ w', (k.cycleUpTo n).readTrailing.Finishes f w' later := by
  rcases h.cycleUpTo n hn with ⟨x', w', hcycled, hstop⟩ | ⟨w', hfinishes⟩
  · rcases hcycled.readTrailing hstop with ⟨x'', hread, hstop⟩ | hfinishes
    · exact Or.inl ⟨x'', w', hread, hstop⟩
    · exact Or.inr ⟨w', hfinishes⟩
  · exact Or.inr ⟨w', hfinishes.readTrailing⟩

end Unpacking
end NorLoader
