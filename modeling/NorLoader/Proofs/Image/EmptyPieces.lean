import NorLoader.Proofs.Image.PhaseOrder
import NorLoader.Proofs.Image.Stopping

/-!
# Pieces without bytes

A piece without bytes is not read, but it is settled like any other, and that goes by how much of the
stream is announced and not by what was read of it.  When does it find fault with a stream?  Not after
a piece with bytes: with the last announced byte such a piece leaves a stream that is complete, or it
keeps an error (`Unpacker.unpack_decided`), since a read that wants more input was told of more
(`Unpacker.readOnce_goesOn`).  So only where no stream was announced and none has begun, and the image
has all its bytes without one, a piece without bytes counts as one byte too many.
-/

namespace NorLoader

/-! ## Through a piece -/

namespace Unpacking

variable {δ : Type} [FlashDevice δ] {k : Unpacking δ}

/-- Nothing is wanted of the stream any more, or the image is complete, or more is announced. -/
def Judged (k : Unpacking δ) : Prop :=
  k.status.goesOn = false ∨ k.job.remaining = 0 ∨ k.unpacker.packedLeft ≠ 0

/-- Enough cycles judge a piece that has work in it. -/
theorem judged_cycleUpTo (n : Nat) (hheld : k.unpacker.held ≤ windowSize)
    (hwork : k.canGoOn = true ∨ k.Judged) (henough : k.job.remaining.toNat ≤ n * windowSize) :
    (k.cycleUpTo n).Judged := by
  induction n generalizing k with
  | zero =>
      refine Or.inr (Or.inl (UInt32.toNat_inj.mp ?_))
      rw [Nat.zero_mul] at henough
      exact Nat.le_zero.mp henough
  | succ n ih =>
      by_cases hgo : (k.canGoOn && decide (k.job.remaining > 0)) = true
      · rw [cycleUpTo, if_pos hgo]
        by_cases hstop : k.cycle.status.goesOn = true
        · rcases cycle_goesOn hheld hstop with ⟨hfull, hremaining⟩ | ⟨hneeds, hmore, hrest⟩
          · refine ih (Nat.le_of_lt (held_cycle_lt hheld)) (Or.inl ?_) ?_
            · simp [canGoOn, hfull, ReadStatus.goesOn]
            · rw [Nat.succ_mul] at henough
              rw [hremaining]
              omega
          · have hend : k.cycle.canGoOn = false := by
              refine canGoOn_of_rest_nil hrest ?_
              rw [hneeds]
              decide
            rw [cycleUpTo_of_stop _ (Or.inl hend)]
            exact Or.inr (Or.inr hmore)
        · have hstop : k.cycle.status.goesOn = false := Bool.eq_false_iff.mpr hstop
          have hend : k.cycle.canGoOn = false := by
            rw [canGoOn, hstop, Bool.false_and]
          rw [cycleUpTo_of_stop _ (Or.inl hend)]
          exact Or.inl hstop
      · rw [cycleUpTo, if_neg hgo]
        rcases hwork with hcan | hjudged
        · refine Or.inr (Or.inl ?_)
          by_contra hne
          rw [hcan, decide_eq_true (UInt32.pos_iff_ne_zero.mpr hne)] at hgo
          exact hgo rfl
        · exact hjudged

omit [FlashDevice δ] in
/-- Reading on after the image is judged as well. -/
theorem Judged.readTrailing (h : k.Judged) : k.readTrailing.Judged := by
  by_cases hgo : (k.canGoOn && decide (k.job.remaining = 0)) = true
  · rw [Bool.and_eq_true, decide_eq_true_iff] at hgo
    refine Or.inr (Or.inl ?_)
    rw [k.readTrailing_job.1]
    exact hgo.2
  · rw [Unpacking.readTrailing, if_neg hgo]
    exact h

omit [FlashDevice δ] in
/-- What is settled with all announced is complete, or an error is kept. -/
theorem Judged.settle (h : k.Judged) (hleft : k.settle.1.packedLeft = 0) :
    k.settle.1.phase = .complete ∨ k.settle.2.1.error ≠ none := by
  have hleft : k.unpacker.packedLeft = 0 := hleft
  by_cases hdone : k.status = .done
  · exact Or.inl (by simp [Unpacking.settle, hdone])
  refine Or.inr ?_
  cases hgo : k.status.goesOn with
  | false =>
      have hrejects : k.status.rejects = true := by simp [ReadStatus.rejects, hgo, hdone]
      simp only [Unpacking.settle, hrejects, if_true]
      exact Job.error_note_ne_none _ _
  | true =>
      have hzero : k.job.remaining = 0 := by
        rcases h with hstop | hzero | hmore
        · exact Bool.noConfusion (hgo.symm.trans hstop)
        · exact hzero
        · exact absurd hleft hmore
      have hoverdue : k.settle.2.1 = k.job.note .excessData := by
        simp [Unpacking.settle, ReadStatus.rejects, hgo, hdone, hzero, hleft]
      rw [hoverdue]
      exact Job.error_note_ne_none _ _

end Unpacking

namespace Unpacker

variable {δ : Type} [FlashDevice δ] {u : Unpacker}

/-- A piece with the last of what was announced leaves a stream that is complete, or an error. -/
theorem unpack_decided (hheld : u.held ≤ windowSize) {piece : List UInt8} (hpiece : piece ≠ [])
    (j : Job) (d : δ) (hleft : (u.unpack j piece d).1.packedLeft = 0) :
    (u.unpack j piece d).1.phase = .complete ∨ (u.unpack j piece d).2.1.error ≠ none := by
  by_cases hcomplete : u.phase = .complete
  · rw [unpack, if_pos hcomplete]
    exact Or.inl hcomplete
  · rw [unpack_eq hcomplete] at hleft ⊢
    have hjudged : (u.readThrough j piece d).Judged :=
      (Unpacking.judged_cycleUpTo _ hheld (Or.inl (Unpacking.canGoOn_piece u j d hpiece))
        (Nat.le_of_lt (Unpacking.enough_reads j.remaining.toNat))).readTrailing
    exact hjudged.settle hleft

end Unpacker

/-! ## Sessions -/

namespace Loader

variable {δ : Type} [FlashDevice δ]

/-- Where a stream stands of which some bytes were fed. -/
structure Fed (packedSize : UInt32) (bytes : List UInt8) (l : Loader δ) : Prop where
  held : l.unpacker.held < windowSize
  /-- Until bytes are fed the stream is as it was opened. -/
  untouched : bytes = [] → l.unpacker.phase = .waiting ∧ l.unpacker.packedLeft = packedSize
  decided : bytes ≠ [] → l.unpacker.packedLeft = 0 →
    l.unpacker.phase = .complete ∨ l.job.error ≠ none

/-- An unpacker that was just restarted was fed nothing. -/
theorem fed_openJob {l : Loader δ} {packed : Option UInt32} {size offset : UInt32}
    (hopen : (l.openJob packed size offset).1 = .ok ()) :
    (l.openJob packed size offset).2.Fed (packed.getD 0) [] := by
  rw [openJob_ok hopen]
  exact ⟨Nat.zero_lt_succ _, fun _ => ⟨rfl, rfl⟩, fun hne => absurd rfl hne⟩

namespace Fed

variable {packedSize : UInt32} {bytes : List UInt8} {l : Loader δ}

omit [FlashDevice δ] in
/-- A call that leaves the stream alone. -/
theorem aside {l' : Loader δ} (h : l.Fed packedSize bytes) (hunpacker : l'.unpacker = l.unpacker)
    (herror : l.job.error ≠ none → l'.job.error ≠ none) : l'.Fed packedSize bytes where
  held := by rw [hunpacker]; exact h.held
  untouched := by rw [hunpacker]; exact h.untouched
  decided hne := by
    rw [hunpacker]
    exact fun hleft => (h.decided hne hleft).imp_right herror

/-- A call feeds the bytes that it brings. -/
theorem call (h : l.Fed packedSize bytes) {c : LoaderCall} (hc : c.span? = none) :
    (l.call c).Fed packedSize (bytes ++ c.packed) := by
  have herror : l.job.error ≠ none → (l.call c).job.error ≠ none := by
    intro herror
    obtain ⟨-, hkept⟩ := call_upkeep Job.error_upkeep (w := [])
      (by
        intro w j d hj
        rw [j.finish_kept.1]
        exact hj) herror hc
    exact hkept
  cases c with
  | start => exact nomatch hc
  | startPacked => exact nomatch hc
  | write storage data =>
      show Fed packedSize (bytes ++ []) _
      rw [List.append_nil]
      exact h.aside rfl herror
  | eraseAhead =>
      show Fed packedSize (bytes ++ []) _
      rw [List.append_nil]
      exact h.aside rfl herror
  | finish =>
      show Fed packedSize (bytes ++ []) _
      rw [List.append_nil]
      exact h.aside rfl herror
  | unpack piece =>
      by_cases hpiece : piece = []
      · subst hpiece
        show Fed packedSize (bytes ++ []) _
        rw [List.append_nil]
        refine h.aside ?_ herror
        show (l.unpacker.unpack l.job [] l.device).1 = l.unpacker
        rw [Unpacker.unpack_nil]
      · have hne : bytes ++ piece ≠ [] := List.append_ne_nil_of_right_ne_nil _ hpiece
        exact ⟨Unpacker.held_unpack_lt h.held _ _ _, fun hnone => absurd hnone hne,
          fun _ hleft => Unpacker.unpack_decided (Nat.le_of_lt h.held) hpiece _ _ hleft⟩

/-- So do any number of calls. -/
theorem calls (h : l.Fed packedSize bytes) {cs : List LoaderCall} (hcs : ∀ c ∈ cs, c.span? = none) :
    (l.calls cs).Fed packedSize (bytes ++ packedBytes cs) := by
  induction cs generalizing l bytes with
  | nil =>
      rw [packedBytes, List.flatMap_nil, List.append_nil]
      exact h
  | cons c cs ih =>
      obtain ⟨hc, hrest⟩ := List.forall_mem_cons.mp hcs
      rw [packedBytes, List.flatMap_cons, ← List.append_assoc]
      exact ih (h.call hc) hrest

omit [FlashDevice δ] in
/-- A piece without bytes finds fault with a stream exactly if none was announced and none has begun. -/
theorem faulted_iff (h : l.Fed packedSize bytes) (herror : l.job.error = none) :
    l.unpacker.phase ≠ .complete ∧ l.unpacker.packedLeft = 0 ↔ packedSize = 0 ∧ bytes = [] := by
  constructor
  · rintro ⟨hphase, hleft⟩
    by_cases hnone : bytes = []
    · exact ⟨(h.untouched hnone).2.symm.trans hleft, hnone⟩
    · rcases h.decided hnone hleft with hcomplete | hkept
      · exact absurd hcomplete hphase
      · exact absurd herror hkept
  · rintro ⟨hsize, hnone⟩
    obtain ⟨hphase, hleft⟩ := h.untouched hnone
    rw [hphase, hleft]
    exact ⟨nofun, hsize⟩

end Fed

/-- The image has all its bytes and keeps no error, although no stream was announced and no byte of one
    has come. -/
def WithoutStream (packed : Option UInt32) (before : List LoaderCall) (l : Loader δ) : Prop :=
  packed.getD 0 = 0 ∧ packedBytes before = [] ∧ l.job.remaining = 0 ∧ l.job.error = none

/-- A piece without bytes is not read but judged: it is excess if the image has all its bytes and
    none of the stream are still announced, and the stream is not at its end. -/
theorem unpack_nil (l : Loader δ) : l.unpack [] = { l with
    job := if l.unpacker.phase ≠ .complete ∧ l.job.remaining = 0 ∧ l.unpacker.packedLeft = 0
      then l.job.note .excessData else l.job } := by
  rw [unpack, Unpacker.unpack_nil]

/-- What a piece without bytes does after some calls. -/
theorem unpack_nil_after {l : Loader δ} {packed : Option UInt32} {before : List LoaderCall}
    (h : l.Fed (packed.getD 0) (packedBytes before)) :
    (l.WithoutStream packed before → l.unpack [] = { l with job := l.job.note .excessData }) ∧
    (¬l.WithoutStream packed before → l.unpack [] = l) := by
  rw [unpack_nil]
  constructor
  · rintro ⟨hsize, hnone, hzero, herror⟩
    obtain ⟨hphase, hleft⟩ := (h.faulted_iff herror).mpr ⟨hsize, hnone⟩
    rw [if_pos ⟨hphase, hzero, hleft⟩]
  · intro hstream
    split
    · rename_i hfault
      obtain ⟨hphase, hzero, hleft⟩ := hfault
      -- the fault changes nothing if an error is kept already
      by_cases herror : l.job.error = none
      · obtain ⟨hsize, hnone⟩ := (h.faulted_iff herror).mp ⟨hphase, hleft⟩
        exact absurd ⟨hsize, hnone, hzero, herror⟩ hstream
      · obtain ⟨e, he⟩ := Option.ne_none_iff_exists'.mp herror
        have hnoted : l.job.note .excessData = l.job := by rw [Job.note, he]
        rw [hnoted]
    · rfl

/-- Pieces without bytes can be left out where none of them finds fault. -/
theorem calls_without_empty {l : Loader δ} {packed : Option UInt32}
    (hopened : l.Fed (packed.getD 0) []) (before : List LoaderCall) (cs : List LoaderCall)
    (hcalls : ∀ c ∈ before ++ cs, c.span? = none)
    (hstream : ∀ earlier later, cs = earlier ++ .unpack [] :: later →
      ¬(l.calls (before ++ earlier)).WithoutStream packed (before ++ earlier)) :
    (l.calls before).calls cs = (l.calls before).calls (cs.filter (· ≠ .unpack [])) := by
  induction cs generalizing before with
  | nil => rfl
  | cons c cs ih =>
      have hnext := ih (before ++ [c]) (by rw [List.append_assoc]; exact hcalls) (by
        intro earlier later hsplit
        rw [List.append_assoc]
        exact hstream (c :: earlier) later (congrArg (c :: ·) hsplit))
      rw [calls_concat] at hnext
      by_cases hempty : c = .unpack []
      · have hbefore : ∀ c ∈ before, c.span? = none := fun c hc =>
          hcalls c (List.mem_append_left _ hc)
        have hquiet := hstream [] cs (congrArg (· :: cs) hempty)
        rw [List.append_nil] at hquiet
        have hsame : (l.calls before).call c = l.calls before := by
          rw [hempty]
          exact (unpack_nil_after (hopened.calls hbefore)).2 hquiet
        rw [List.filter_cons_of_neg (by simpa using hempty)]
        rw [hsame] at hnext
        exact (congrArg (fun m : Loader δ => m.calls cs) hsame).trans hnext
      · rw [List.filter_cons_of_pos (by simpa using hempty)]
        exact hnext

/-- A piece without bytes leaves device and stream alone, and it changes nothing at all unless no stream
    was announced, none has begun, and the image has all its bytes without a fault: then it is kept as
    an error that there was too much.  So it changes what closing the job tells exactly if no stream was
    announced, none has begun and the job would be closed with success; and where no piece without bytes
    comes at such a moment, all of them can be left out. -/
theorem empty_piece_changes_iff (l : Loader δ) (packed : Option UInt32) (size offset : UInt32)
    (cs : List LoaderCall) (hopen : (l.openJob packed size offset).1 = .ok ())
    (hcs : ∀ c ∈ cs, c.span? = none) :
    let opened := (l.openJob packed size offset).2
    let s := opened.calls cs
    let t := s.unpack []
    (t.device = s.device ∧ t.unpacker = s.unpacker) ∧
    (t = s ↔ ¬s.WithoutStream packed cs) ∧
    (s.WithoutStream packed cs → t = { s with job := s.job.note .excessData }) ∧
    (t.finish.1 = s.finish.1 ↔
      ¬(packed.getD 0 = 0 ∧ packedBytes cs = [] ∧ s.finish.1 = .ok ())) ∧
    ((∀ before after, cs = before ++ .unpack [] :: after →
        ¬(opened.calls before).WithoutStream packed before) →
      s = opened.calls (cs.filter (· ≠ .unpack []))) := by
  intro opened s t
  have hopened : opened.Fed (packed.getD 0) [] := fed_openJob hopen
  obtain ⟨hfault, hquiet⟩ := unpack_nil_after (hopened.calls hcs)
  have hnil : t = s.unpack [] := rfl
  refine ⟨?_, ⟨?_, hquiet⟩, hfault, ?_, ?_⟩
  · rw [hnil, unpack_nil]
    exact ⟨rfl, rfl⟩
  · intro hsame hstream
    have hnoted : (s.job.note .excessData).error = s.job.error :=
      congrArg (fun m : Loader δ => m.job.error) ((hfault hstream).symm.trans hsame)
    exact Job.error_note_ne_none _ _ (hnoted.trans hstream.2.2.2)
  · have hok (m : Loader δ) : m.finish.1 = .ok () ↔
        m.job.active = true ∧ m.job.remaining = 0 ∧ m.job.error = none := m.job.finish_ok_iff
    by_cases hstream : s.WithoutStream packed cs
    · have ht : t = { s with job := s.job.note .excessData } := hfault hstream
      constructor
      · rintro hsame ⟨-, -, hs⟩
        have hnone := ((hok t).mp (hsame.trans hs)).2.2
        rw [ht] at hnone
        exact Job.error_note_ne_none _ _ hnone
      · intro hnot
        have hclosed : s.job.active = false := by
          refine Bool.eq_false_iff.mpr fun hactive => hnot ⟨hstream.1, hstream.2.1, ?_⟩
          exact (hok s).mpr ⟨hactive, hstream.2.2⟩
        have hclosed' : (s.job.note .excessData).active = false := (s.job.active_note _).trans hclosed
        rw [ht]
        show (s.job.note .excessData).finish.1 = s.job.finish.1
        simp only [Job.finish, hclosed, hclosed', Bool.not_false, if_true]
    · have ht : t = s := hquiet hstream
      rw [ht]
      refine iff_of_true rfl ?_
      rintro ⟨hsize, hnone, hs⟩
      exact hstream ⟨hsize, hnone, ((hok s).mp hs).2⟩
  · intro hstream
    exact calls_without_empty hopened [] cs hcs hstream

/-- A stream of ten bytes with pieces without bytes before it, in it and behind it. -/
theorem empty_piece_changes_nothing :
    let l : Loader (Simulator 8192) := { device := {} }
    let opened := (l.openJob (some 11) 10 0).2
    let start : List UInt8 := [0x78, 0x9C]
    let rest : List UInt8 := [0x4B, 0x4C, 0x84, 0x01, 0x00, 0x14, 0xE1, 0x03, 0xCB]
    let s := opened.calls [.unpack [], .unpack start, .unpack [], .eraseAhead, .unpack rest, .unpack []]
    s = opened.calls [.unpack start, .eraseAhead, .unpack rest] ∧ s.unpack [] = s ∧
      s.finish.1 = .ok () := by
  intro l opened start rest s
  have hannounced (before : List LoaderCall) (m : Loader (Simulator 8192)) :
      ¬m.WithoutStream (some 11) before := fun hstream => absurd hstream.1 (by decide)
  obtain ⟨-, hsame, -, -, hleft⟩ := empty_piece_changes_iff l (some 11) 10 0
    [.unpack [], .unpack start, .unpack [], .eraseAhead, .unpack rest, .unpack []] rfl (by decide)
  exact ⟨hleft fun before _ _ => hannounced before _, hsame.mpr (hannounced _ _), by decide +kernel⟩

/-- An image without bytes that comes as a stream without bytes, and an image of one byte that was
    written as it is: closed now either job ends well, but after a piece without bytes it is told that
    there was too much. -/
theorem empty_piece_too_much :
    let l : Loader (Simulator 8192) := { device := {} }
    let bare := (l.openJob (some 0) 0 0).2
    let plain := (l.openJob none 1 0).2.calls [.write .plain [0x2A]]
    (bare.job.active = true ∧ bare.finish.1 = .ok () ∧
      (bare.unpack []).job.error = some .excessData ∧
      (bare.unpack []).finish.1 = .error .excessData) ∧
    (plain.job.active = true ∧ plain.finish.1 = .ok () ∧
      (plain.unpack []).job.error = some .excessData ∧
      (plain.unpack []).finish.1 = .error .excessData) := by
  decide +kernel

end Loader
end NorLoader
