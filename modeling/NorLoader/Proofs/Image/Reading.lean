import NorLoader.Image.Unpacker
import NorLoader.Proofs.Deflate.Tracking
import NorLoader.Proofs.Image.Upkeep

/-!
# Reading a stream in pieces

An unpacker that is fed the pieces of a stream stays at a point of the stream's expansion
(`Unpacker.At`), however the pieces are cut: its window holds the end of the output, and what it
handed over is the output before that.  One read goes on to a point further on.  It ends because
the piece is used up, because the window is full, or at the end of the expansion, where the stream
is either complete or rejected (`At.readOnce`).
-/

namespace NorLoader

/-- A stream that is fed to an unpacker, as told by the end of its expansion.  Behind what is fed
    `extra` more bytes are announced. -/
structure StreamEnd where
  last : Expansion
  extra : Nat
  /-- How many bytes the image is declared to have. -/
  size : UInt32
  ends : last.next? = none

namespace StreamEnd

variable (e : StreamEnd)

/-- All that the stream puts out. -/
def output : List UInt8 := e.last.output.drop windowSize

/-- The stream is complete and declares the checksum of its output. -/
def Right : Prop := e.last.decoder.demand = .finished (Adler32.empty.addBytes e.output).value

/-- The stream is corrupt, or it is complete and declares another checksum, or it breaks off with
    nothing more announced. -/
def Rejected : Prop :=
  (∃ overread, e.last.decoder.demand = .broken overread) ∨
    (∃ checksum, e.last.decoder.demand = .finished checksum ∧
      checksum ≠ (Adler32.empty.addBytes e.output).value) ∨
    e.last.Hungry ∧ e.extra = 0

variable {e}

/-- What is rejected is not right. -/
theorem Rejected.not_right (h : e.Rejected) : ¬e.Right := by
  intro hright
  rcases h with ⟨_, hbroken⟩ | ⟨checksum, hfinished, hne⟩ | ⟨hungry, -⟩
  · exact nomatch hbroken.symm.trans hright
  · exact hne (DecoderDemand.finished.inj (hfinished.symm.trans hright))
  · exact hungry.not_finished _ hright

end StreamEnd

/-- A reader that rejects a stream does not go on. -/
theorem ReadStatus.stops_of_rejects {status : ReadStatus} (h : status.rejects = true) :
    status.goesOn = false := by
  simp only [rejects, Bool.and_eq_true, Bool.not_eq_true'] at h
  exact h.1

/-- Whatever input there is, the decoder does not go on. -/
def Decoder.Stuck (d : Decoder) : Prop :=
  (∃ checksum, d.demand = .finished checksum) ∨ ∃ overread, d.demand = .broken overread

namespace Unpacker

/-- An unpacker at a point of an expansion, with the bytes `given`, which begin with the seed,
    before what it holds. -/
structure Follows (u : Unpacker) (x : Expansion) (given : List UInt8) : Prop where
  decoder : u.reader.decoder = x.decoder
  bits : u.reader.bits = x.bits
  near : x.decoder.Near
  held_le : u.held ≤ windowSize
  recalls : Window.Recalls u.window u.held x.output
  length : x.output.length = given.length + u.held
  seeded : windowSize ≤ given.length
  given : given <+: x.output

/-- An unpacker on the way to the end of a stream: `rest` of a piece is at hand and the pieces
    that are yet to come hold `later`. -/
structure At (u : Unpacker) (e : StreamEnd) (x : Expansion) (given rest later : List UInt8) :
    Prop extends Follows u x given where
  sum : u.reader.sum = Adler32.empty.addBytes (x.output.drop windowSize)
  reaches : x.Reaches e.last
  input : x.input = rest ++ later
  left : u.packedLeft.toNat = rest.length + later.length + e.extra
  phase : u.phase ≠ .complete

/-- How a read ends, and at which point of the expansion the unpacker is then. -/
inductive ReadEnds (e : StreamEnd) (given rest later : List UInt8) :
    Unpacker → Expansion → ReadStatus → Prop where
  | windowFull {u x} : u.At e x given rest later → u.held = windowSize →
      ReadEnds e given rest later u x .windowFull
  | needsInput {u x} : u.At e x given rest later → rest = [] → x.Hungry →
      0 < later.length + e.extra → ReadEnds e given rest later u x .needsInput
  | done {u} : u.At e e.last given rest later → e.Right →
      ReadEnds e given rest later u e.last .done
  | rejected {u status} : ReadStatus.rejects status = true → u.Follows e.last given →
      e.Rejected → (later = [] ∨ u.reader.decoder.Stuck) →
      ReadEnds e given rest later u e.last status

variable {u : Unpacker} {e : StreamEnd} {x : Expansion} {given rest later : List UInt8}

/-- What was handed over and what is held make up the output. -/
theorem Follows.output (h : u.Follows x given) : given ++ u.output = x.output := by
  have hlength := h.length
  have hheld := Window.Recalls.take_eq h.recalls h.held_le (by omega)
  rw [Unpacker.output, hheld, show x.output.length - u.held = given.length by omega]
  exact List.prefix_iff_eq_append.mp h.given

/-- As much is held as is put out. -/
theorem Follows.length_output (h : u.Follows x given) : u.output.length = u.held := by
  have hlength := congrArg List.length h.output
  rw [List.length_append, h.length] at hlength
  omega

namespace ReadEnds

variable {status : ReadStatus}

/-- The unpacker follows the stream to where the read ends. -/
theorem follows (h : ReadEnds e given rest later u x status) : u.Follows x given := by
  cases h with
  | windowFull hat => exact hat.toFollows
  | needsInput hat => exact hat.toFollows
  | done hat => exact hat.toFollows
  | rejected _ hfollows => exact hfollows

/-- The stream goes on from there to its end. -/
theorem reaches (h : ReadEnds e given rest later u x status) : x.Reaches e.last := by
  cases h with
  | windowFull hat => exact hat.reaches
  | needsInput hat => exact hat.reaches
  | done => exact .refl _
  | rejected => exact .refl _

/-- It makes no difference that the phase moves on. -/
theorem reading (h : ReadEnds e given rest later u x status) :
    ReadEnds e given rest later { u with phase := .reading } x status := by
  have hfollows {x : Expansion} (h : u.Follows x given) :
      Follows { u with phase := .reading } x given := { h with }
  have hat {x : Expansion} (h : u.At e x given rest later) :
      At { u with phase := .reading } e x given rest later :=
    ⟨hfollows h.toFollows, h.sum, h.reaches, h.input, h.left, nofun⟩
  cases h with
  | windowFull h hfull => exact .windowFull (hat h) hfull
  | needsInput h hrest hungry hmore => exact .needsInput (hat h) hrest hungry hmore
  | done h hright => exact .done (hat h) hright
  | rejected hrejects h hrejected hstuck =>
      exact .rejected hrejects (hfollows h) hrejected hstuck

end ReadEnds

/-- The run that a read carries out. -/
def runOn (u : Unpacker) (piece : List UInt8) : DecoderRun :=
  ⟨u.reader.decoder, u.reader.bits, piece, u.window, u.held, u.reader.sum⟩

/-- The unpacker after a run, with the checksum and the number of bytes taken as a read has it. -/
def afterRun (u : Unpacker) (r : DecoderRun) (sum : Adler32) (taken : Nat) : Unpacker :=
  { u with
    reader := ⟨r.decoder, r.bits, sum⟩
    window := r.window
    held := r.pos
    packedLeft := satSub u.packedLeft (UInt32.ofNat taken) }

/-- A read leaves what its run leaves. -/
theorem readOnce_of_read {u : Unpacker} {piece : List UInt8} (status : ReadStatus)
    (r : DecoderRun) (sum : Adler32) (taken : Nat)
    (h : StreamReader.read u.reader piece u.window u.held (u.packedLeft.toNat > piece.length)
      = ⟨status, ⟨r.decoder, r.bits, sum⟩, r.window, r.pos, taken⟩) :
    u.readOnce piece = (status, taken, u.afterRun r sum taken) := by
  rw [readOnce_eq, h]
  rfl

/-- A run from a point of the expansion stops at another one.  It took its bytes from the front of
    the piece and left the rest of the stream alone. -/
theorem At.run (h : u.At e x given rest later) :
    ∃ x', x.Reaches x' ∧ x'.Reaches e.last ∧
      (u.runOn rest).run.2.Follows x' later given.length ∧
      DecoderRun.Halts (u.runOn rest).run.1 (u.runOn rest).run.2 x' ∧
      (u.runOn rest).run.2.input <:+ rest := by
  have hfollows : (u.runOn rest).Follows x later given.length :=
    ⟨h.decoder, h.bits, h.input, h.held_le, h.length, h.seeded, h.recalls, h.sum, h.near⟩
  obtain ⟨x', hfrom, hreaches, hrun, hhalts⟩ := hfollows.run h.reaches e.ends
  refine ⟨x', hfrom, hreaches, hrun, hhalts, ?_⟩
  have hinput := hfrom.input_output.1
  rw [h.input, hrun.input] at hinput
  exact List.suffix_append_self_iff.mp hinput

/-- What is held after a run belongs to the point where the run stopped. -/
theorem Follows.afterRun (h : u.Follows x given) {x' : Expansion} {r : DecoderRun}
    (hfrom : x.Reaches x') (hrun : r.Follows x' later given.length) (sum : Adler32)
    (taken : Nat) : (u.afterRun r sum taken).Follows x' given :=
  ⟨hrun.decoder, hrun.bits, hrun.near, hrun.pos_le, hrun.recalls, hrun.length, h.seeded,
    h.given.trans hfrom.input_output.2⟩

/-- A run leaves the unpacker at the point where it stopped, if the checksum goes along. -/
theorem At.afterRun (h : u.At e x given rest later) {x' : Expansion} {r : DecoderRun}
    (hfrom : x.Reaches x') (hreaches : x'.Reaches e.last)
    (hrun : r.Follows x' later given.length) (hsuffix : r.input <:+ rest) :
    (u.afterRun r r.sum (rest.length - r.input.length)).At e x' given
      (rest.drop (rest.length - r.input.length)) later := by
  have hdrop : r.input = rest.drop (rest.length - r.input.length) :=
    List.suffix_iff_eq_drop.mp hsuffix
  have hle : r.input.length ≤ rest.length := hsuffix.length_le
  have hleft := h.left
  have hcount : (UInt32.ofNat (rest.length - r.input.length)).toNat
      = rest.length - r.input.length :=
    UInt32.toNat_ofNat_of_lt' (by have := u.packedLeft.toNat_lt; show _ < 2 ^ 32; omega)
  refine ⟨h.toFollows.afterRun hfrom hrun _ _, hrun.sum, hreaches, ?_, ?_, h.phase⟩
  · rw [← hdrop]
    exact hrun.input
  · rw [← hdrop]
    show (satSub u.packedLeft (UInt32.ofNat (rest.length - r.input.length))).toNat = _
    rw [toNat_satSub, hcount]
    omega

/-- A read takes an unpacker on to another point of the stream. -/
theorem At.readOnce (h : u.At e x given rest later) :
    ∃ x', x.Reaches x' ∧ ReadEnds e given (rest.drop (u.readOnce rest).2.1) later
      (u.readOnce rest).2.2 x' (u.readOnce rest).1 := by
  obtain ⟨x', hfrom, hreaches, hrun, hhalts, hsuffix⟩ := h.run
  have hat := h.afterRun hfrom hreaches hrun hsuffix
  have hfollows := h.toFollows.afterRun hfrom hrun
  generalize hstop : (u.runOn rest).run = result at hrun hhalts hsuffix hat hfollows
  obtain ⟨halt, r⟩ := result
  have hstop' : DecoderRun.run ⟨u.reader.decoder, u.reader.bits, rest, u.window, u.held,
    u.reader.sum⟩ = (halt, r) := hstop
  refine ⟨x', hfrom, ?_⟩
  cases hhalts with
  | full hpos =>
      rw [readOnce_of_read .windowFull r r.sum (rest.length - r.input.length)
        (by simp only [StreamReader.read, ZlibReader.read, hstop'])]
      exact .windowFull hat hpos
  | corrupt hbroken =>
      -- nothing comes after the place where the stream is corrupt
      rename_i overread
      obtain rfl := hreaches.eq_of_end (Expansion.next?_of_broken hbroken)
      rw [readOnce_of_read .corrupt r u.reader.sum
        (rest.length - r.input.length - (r.bits.length + overread) / 8)
        (by simp only [StreamReader.read, ZlibReader.read, hstop'])]
      exact .rejected rfl (hfollows _ _) (Or.inl ⟨overread, hbroken⟩)
        (Or.inr (Or.inr ⟨overread, (congrArg Decoder.demand hrun.decoder).trans hbroken⟩))
  | finished hfinished =>
      rename_i checksum
      obtain rfl := hreaches.eq_of_end (Expansion.next?_of_finished hfinished)
      by_cases hright : r.sum.value = checksum
      · rw [readOnce_of_read .done r r.sum (rest.length - r.input.length)
          (by simp only [StreamReader.read, ZlibReader.read, hstop', hright, if_true])]
        refine .done hat ?_
        rw [StreamEnd.Right, hfinished, ← hright, hrun.sum]
        rfl
      · rw [readOnce_of_read .badChecksum r r.sum (rest.length - r.input.length)
          (by simp only [StreamReader.read, ZlibReader.read, hstop', hright, if_false])]
        refine .rejected rfl (hfollows _ _) (Or.inr (Or.inl ⟨checksum, hfinished, ?_⟩))
          (Or.inr (Or.inl ⟨checksum, (congrArg Decoder.demand hrun.decoder).trans hfinished⟩))
        rintro rfl
        exact hright (congrArg Adler32.value hrun.sum)
  | starved hinput hungry =>
      have hrest : rest.drop (rest.length - r.input.length) = [] := by
        rw [← List.suffix_iff_eq_drop.mp hsuffix, hinput]
      have hleft := h.left
      by_cases hmore : u.packedLeft.toNat > rest.length
      · have hpos : 0 < later.length + e.extra := by omega
        -- a run that wants input reports a full window first, unless only the checksum is left
        by_cases hfull : (decide (r.pos = windowSize) && !r.decoder.inChecksum) = true
        · rw [readOnce_of_read .windowFull r r.sum (rest.length - r.input.length)
            (by simp only [StreamReader.read, ZlibReader.read, hstop', decide_eq_true hmore, if_true, hfull])]
          rw [Bool.and_eq_true, decide_eq_true_iff] at hfull
          exact .windowFull hat hfull.1
        · rw [readOnce_of_read .needsInput r r.sum (rest.length - r.input.length)
            (by simp only [StreamReader.read, ZlibReader.read, hstop', decide_eq_true hmore, if_true, hfull,
              if_false, Bool.false_eq_true])]
          exact .needsInput hat hrest hungry hpos
      · -- no more was announced, so the stream breaks off here
        have hlater : later = [] := List.length_eq_zero_iff.mp (by omega)
        have hnone : x'.input = [] := by rw [hrun.input, hinput, hlater, List.append_nil]
        obtain rfl := hreaches.eq_of_end (hungry.next? hnone)
        rw [readOnce_of_read .cutShort r u.reader.sum (rest.length - r.input.length)
          (by simp only [StreamReader.read, ZlibReader.read, hstop', decide_eq_false hmore, if_false,
            Bool.false_eq_true])]
        exact .rejected rfl (hfollows _ _) (Or.inr (Or.inr ⟨hungry, by omega⟩)) (Or.inl hlater)

end Unpacker
end NorLoader
