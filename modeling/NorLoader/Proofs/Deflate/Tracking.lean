import NorLoader.Deflate.ZlibReader
import NorLoader.Proofs.Deflate.Distance
import NorLoader.Proofs.Deflate.Expansion

/-!
# Runs follow the expansion

A run of the decoder has a piece of the stream before it and a window behind it.  `Follows` ties
it to the expansion of the whole stream: the window holds the end of the output, around its own
end, and that is as far back as a match can look.  What the window held before the stream began
counts as output that came before, the seed, so there is always something for a match to repeat.
A run takes the steps of the expansion one by one and stops only for want of input, for want of
room, at the end of the stream, or where the stream is corrupt.
-/

namespace NorLoader

/-! ## The window as the end of the output -/

/-- A window that was written up to `pos` holds the last bytes of some output. -/
def Window.Recalls (window : Window) (pos : Nat) (output : List UInt8) : Prop :=
  ∀ distance, 0 < distance → distance ≤ windowSize → distance ≤ output.length →
    window[(pos + windowSize - distance) % windowSize]? = output[output.length - distance]?

namespace Window.Recalls

variable {window : Window} {pos : Nat} {output : List UInt8}

/-- A window that nothing was written to holds the seed. -/
theorem seed (window : Window) : window.Recalls 0 window.toList := by
  intro distance hpos hwindow _
  rw [Vector.length_toList, Nat.zero_add, Nat.mod_eq_of_lt (by omega)]
  exact (Vector.getElem?_toList ..).symm

/-- A byte that is stored is recalled, and so are the others. -/
theorem put (h : window.Recalls pos output) (byte : UInt8) (hroom : pos < windowSize) :
    Window.Recalls (window.set pos byte hroom) (pos + 1) (output ++ [byte]) := by
  intro distance hpos hwindow hle
  rw [List.length_append, List.length_singleton] at hle ⊢
  have hlt : (pos + 1 + windowSize - distance) % windowSize < windowSize :=
    Nat.mod_lt _ (by decide)
  rw [Vector.getElem?_eq_getElem hlt, Vector.getElem_set]
  by_cases hone : distance = 1
  · -- the byte that was just put
    have hindex : pos = (pos + 1 + windowSize - distance) % windowSize := by
      rw [hone, Nat.add_right_comm, Nat.add_sub_cancel, Nat.add_mod_right, Nat.mod_eq_of_lt hroom]
    rw [if_pos hindex, hone, Nat.add_sub_cancel, List.getElem?_append_right (Nat.le_refl _),
      Nat.sub_self]
    rfl
  · -- a byte that was one nearer before; the new one is in its place only after a whole window
    have hsame : pos + 1 + windowSize - distance = pos + windowSize - (distance - 1) := by omega
    have hother : ¬pos = (pos + 1 + windowSize - distance) % windowSize := by
      simp only [windowSize] at hroom hwindow ⊢
      omega
    rw [if_neg hother, ← Vector.getElem?_eq_getElem hlt]
    rw [hsame, h (distance - 1) (by omega) (by omega) (by omega),
      List.getElem?_append_left (by omega)]
    congr 1
    omega

/-- Behind a full window the next byte goes to its start. -/
theorem wrap (h : window.Recalls windowSize output) : window.Recalls 0 output := by
  intro distance hpos hwindow hle
  rw [← h distance hpos hwindow hle, Nat.zero_add, Nat.add_sub_assoc hwindow, Nat.add_mod_left]

/-- What was written since the start of the window are the last bytes of the output. -/
theorem take_eq (h : window.Recalls pos output) (hpos : pos ≤ windowSize)
    (hle : pos ≤ output.length) : window.toList.take pos = output.drop (output.length - pos) := by
  refine List.ext_getElem? ?_
  intro i
  rw [List.getElem?_drop]
  by_cases hi : i < pos
  · rw [List.getElem?_take_of_lt hi]
    have hback := h (pos - i) (by omega) (by omega) (by omega)
    rw [show output.length - (pos - i) = output.length - pos + i by omega] at hback
    rw [← hback, show pos + windowSize - (pos - i) = i + windowSize by omega, Nat.add_mod_right,
      Nat.mod_eq_of_lt (Nat.lt_of_lt_of_le hi hpos)]
    exact Vector.getElem?_toList ..
  · rw [List.getElem?_take_eq_none (Nat.not_lt.mp hi), List.getElem?_eq_none (by omega)]

end Window.Recalls

/-! ## Runs -/

namespace DecoderRun

/-- A run does what the expansion does, with the rest of the stream, `later`, not yet at hand, and
    with all of the output in the window but for the first `given` bytes, which begin with the
    seed. -/
structure Follows (r : DecoderRun) (x : Expansion) (later : List UInt8) (given : Nat) : Prop where
  decoder : r.decoder = x.decoder
  bits : r.bits = x.bits
  input : x.input = r.input ++ later
  pos_le : r.pos ≤ windowSize
  length : x.output.length = given + r.pos
  seeded : windowSize ≤ given
  recalls : r.window.Recalls r.pos x.output
  sum : r.sum = Adler32.empty.addBytes (x.output.drop windowSize)
  near : x.decoder.Near

/-- Why a run stops that follows an expansion. -/
inductive Halts : RunHalt → DecoderRun → Expansion → Prop where
  | full {r x} : r.pos = windowSize → Halts .full r x
  | starved {r x} : r.input = [] → x.Hungry → Halts .starved r x
  | finished {r x checksum} : x.decoder.demand = .finished checksum →
      Halts (.finished checksum) r x
  | corrupt {r x overread} : x.decoder.demand = .broken overread → Halts (.corrupt overread) r x

/-- What one step does next to the expansion: it either takes the same step or stops. -/
inductive Steps (later : List UInt8) (given : Nat) (r : DecoderRun) (x : Expansion) : Prop where
  | on {r' x'} : r.step = (none, r') → x.next? = some x' → r'.Follows x' later given →
      Steps later given r x
  | halt {halt} : r.step = (some halt, r) → Halts halt r x → Steps later given r x

variable {r r' : DecoderRun} {x x' y : Expansion} {later : List UInt8}
  {given : Nat}

/-- The output begins with a whole window. -/
theorem Follows.seed_le (h : r.Follows x later given) : windowSize ≤ x.output.length := by
  have hlength := h.length
  have hseeded := h.seeded
  omega

/-- A byte that the run stores is a byte that the expansion puts out. -/
theorem Follows.put (h : r.Follows x later given) (byte : UInt8) (hroom : r.pos < windowSize) :
    ∃ r', r.put byte = (none, r') ∧ r'.Follows (x.emit byte) later given := by
  refine ⟨⟨r.decoder.delivered, r.bits, r.input, r.window.set r.pos byte hroom, r.pos + 1,
    r.sum.addByte byte⟩, ?_, ?_⟩
  · simp only [DecoderRun.put, dif_pos hroom]
  · refine ⟨by rw [h.decoder]; rfl, h.bits, h.input, hroom, ?_, h.seeded,
      h.recalls.put byte hroom, ?_, Decoder.near_delivered h.near⟩
    · show (x.output ++ [byte]).length = given + (r.pos + 1)
      rw [List.length_append, h.length]
      rfl
    · show r.sum.addByte byte = Adler32.empty.addBytes ((x.output ++ [byte]).drop windowSize)
      rw [List.drop_append_of_le_length h.seed_le, Adler32.addBytes_append, ← h.sum]
      rfl

/-- Where both put out a byte, the step is followed. -/
theorem Follows.steps_put (h : r.Follows x later given) (byte : UInt8) (hstep : r.step = r.put byte)
    (hnext : x.next? = some (x.emit byte)) : Steps later given r x := by
  by_cases hroom : r.pos < windowSize
  · obtain ⟨r', hput, hfollows⟩ := h.put byte hroom
    exact .on (hstep.trans hput) hnext hfollows
  · refine .halt (hstep.trans ?_) (.full (Nat.le_antisymm h.pos_le (Nat.not_lt.mp hroom)))
    simp only [DecoderRun.put, dif_neg hroom]

/-- Where both read a byte, the step is followed as long as one is at hand. -/
theorem Follows.steps_takeByte (h : r.Follows x later given) (hstep : r.step = r.readByteStart)
    (hnext : x.next? = x.takeByte) (hungry : x.Hungry) : Steps later given r x := by
  cases hi : r.input with
  | nil =>
      refine .halt (hstep.trans ?_) (.starved hi hungry)
      simp only [readByteStart, hi]
  | cons byte rest =>
      have hx : x.input = byte :: (rest ++ later) := by rw [h.input, hi, List.cons_append]
      let taken : DecoderRun := { r with
        decoder := r.decoder.bit (firstBit byte)
        bits := laterBits byte
        input := rest }
      let fed : Expansion := { x with
        decoder := x.decoder.bit (firstBit byte)
        bits := laterBits byte
        input := rest ++ later }
      have htaken : r.readByteStart = (none, taken) := by simp only [readByteStart, hi, taken]
      have hfed : x.takeByte = some fed := by simp only [Expansion.takeByte, hx, fed]
      refine .on (hstep.trans htaken) (hnext.trans hfed) ?_
      exact ⟨by simp only [taken, fed, h.decoder], rfl, rfl, h.pos_le, h.length, h.seeded,
        h.recalls, h.sum, Decoder.near_bit h.near _⟩

/-- A byte that is moved to the output is read and put out, and for both there has to be one. -/
theorem Follows.steps_moveByte (h : r.Follows x later given) (hd : x.decoder.demand = .moveByte) :
    Steps later given r x := by
  have hstep : r.step = r.moveByte := by simp only [step, h.decoder, hd]
  by_cases hroom : r.pos < windowSize
  · cases hi : r.input with
    | nil =>
        refine .halt (hstep.trans ?_) (.starved hi (Or.inr (Or.inr hd)))
        simp only [DecoderRun.moveByte, if_pos hroom, hi]
    | cons byte rest =>
        have hx : x.input = byte :: (rest ++ later) := by rw [h.input, hi, List.cons_append]
        have hrest : DecoderRun.Follows { r with input := rest }
            { x with input := rest ++ later } later given := { h with input := rfl }
        obtain ⟨r', hput, hfollows⟩ := hrest.put byte hroom
        refine .on (hstep.trans ?_) ?_ hfollows
        · simp only [DecoderRun.moveByte, if_pos hroom, hi, hput]
        · simp only [Expansion.next?, hd, hx]
  · refine .halt (hstep.trans ?_) (.full (Nat.le_antisymm h.pos_le (Nat.not_lt.mp hroom)))
    simp only [DecoderRun.moveByte, if_neg hroom]

/-- What the expansion repeats is there, and it is what the run finds in its window. -/
theorem Follows.lookBack (h : r.Follows x later given) {distance : Nat}
    (hd : x.decoder.demand = .copy distance) : distance ≤ x.output.length ∧
      x.output[x.output.length - distance]? = some (r.lookBack distance) := by
  obtain ⟨hpos, hwindow⟩ := Decoder.near_copy h.near hd
  have hle : distance ≤ x.output.length := Nat.le_trans hwindow h.seed_le
  refine ⟨hle, ?_⟩
  rw [← h.recalls distance hpos hwindow hle]
  exact Vector.getElem?_eq_getElem (Nat.mod_lt _ (by decide))

/-- There is a step or a reason to stop. -/
theorem Follows.steps (h : r.Follows x later given) : Steps later given r x := by
  cases hd : x.decoder.demand with
  | bit =>
      cases hb : x.bits with
      | nil =>
          refine h.steps_takeByte ?_ ?_ (Or.inl ⟨hd, hb⟩)
          · simp only [step, h.decoder, hd, readBit, h.bits, hb]
          · simp only [Expansion.next?, hd, hb]
      | cons b bits =>
          have hstep : r.step = (none, { r with decoder := r.decoder.bit b, bits := bits }) := by
            simp only [step, h.decoder, hd, readBit, h.bits, hb]
          have hnext : x.next? = some { x with decoder := x.decoder.bit b, bits := bits } := by
            simp only [Expansion.next?, hd, hb]
          refine .on hstep hnext ?_
          exact ⟨by rw [h.decoder], rfl, h.input, h.pos_le, h.length, h.seeded, h.recalls,
            h.sum, Decoder.near_bit h.near _⟩
  | byteStart =>
      refine h.steps_takeByte ?_ ?_ (Or.inr (Or.inl hd))
      · simp only [step, h.decoder, hd]
      · simp only [Expansion.next?, hd]
  | literal byte =>
      refine h.steps_put byte ?_ ?_
      · simp only [step, h.decoder, hd]
      · simp only [Expansion.next?, hd]
  | copy distance =>
      obtain ⟨hle, hbyte⟩ := h.lookBack hd
      refine h.steps_put (r.lookBack distance) ?_ ?_
      · simp only [step, h.decoder, hd]
      · simp only [Expansion.next?, hd, if_pos hle, hbyte, Option.map_some]
  | moveByte => exact h.steps_moveByte hd
  | finished checksum =>
      refine .halt ?_ (.finished hd)
      simp only [step, h.decoder, hd]
  | broken overread =>
      refine .halt ?_ (.corrupt hd)
      simp only [step, h.decoder, hd]

/-- A run goes on after a step. -/
theorem run_on (h : r.step = (none, r')) : r.run = r'.run := by
  rw [run]
  split
  · rename_i r'' hstep
    rw [h] at hstep
    cases hstep
    rfl
  · rename_i halt r'' hstep
    rw [h] at hstep
    cases hstep

/-- It ends where a step stops it. -/
theorem run_halt {halt : RunHalt} (h : r.step = (some halt, r')) : r.run = (halt, r') := by
  rw [run]
  split
  · rename_i r'' hstep
    rw [h] at hstep
    cases hstep
  · rename_i halt' r'' hstep
    rw [h] at hstep
    cases hstep
    rfl

/-- A run stops somewhere on the way of the expansion to its end. -/
theorem Follows.run (h : r.Follows x later given) (hy : x.Reaches y) (hends : y.next? = none) :
    ∃ x', x.Reaches x' ∧ x'.Reaches y ∧ r.run.2.Follows x' later given ∧
      Halts r.run.1 r.run.2 x' := by
  -- the expansion has a finite way to its end, and a run goes it as far as it can
  induction hy generalizing r with
  | refl x =>
      cases h.steps with
      | on _ hnext _ => exact nomatch hends.symm.trans hnext
      | halt hstep hhalts =>
          rw [run_halt hstep]
          exact ⟨x, .refl x, .refl x, h, hhalts⟩
  | step hnext hy ih =>
      rename_i x x' y
      cases h.steps with
      | on hstep hnext' hfollows =>
          cases hnext.symm.trans hnext'
          rw [run_on hstep]
          obtain ⟨z, hxz, hzy, hz⟩ := ih hfollows hends
          exact ⟨z, .step hnext hxz, hzy, hz⟩
      | halt hstep hhalts =>
          rw [run_halt hstep]
          exact ⟨x, .refl x, .step hnext hy, h, hhalts⟩

end DecoderRun
end NorLoader
