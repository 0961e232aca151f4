import Mathlib.Data.List.ReduceOption
import NorLoader.Host.Receiver

/-!
# Frames on the line

The line is a stream of bytes that the delimiters cut into frames, and it is handed out in packets
that have nothing to do with the frames.  The receiver's state is spread over a packet and a frame,
and a look ends in the middle of a packet as soon as a request is complete.  All of this is told
by how much of the stream was looked at: the requests found so far are those in its complete
frames, and the receiver holds what `kept` leaves of its open one (`LookedAt`).  One call of `scan`
keeps this up (`LookedAt.scan`), so every sequence of looks does (`looks_lookedAt`), and the packets
no longer appear in what comes out.
-/

namespace NorLoader

/-- The bytes that the line gives in some reads. -/
def streamOf (reads : List LineRead) : List UInt8 := reads.flatMap LineRead.bytes

/-- The frames that end in a stream, without their delimiters. -/
def completeFrames (stream : List UInt8) : List (List UInt8) :=
  (stream.splitOn Cobs.delimiter).dropLast

/-- What follows the last delimiter of a stream. -/
def openFrame (stream : List UInt8) : List UInt8 := (stream.splitOn Cobs.delimiter).getLastD []

/-- The request that a frame holds, if it holds one that the board has room for. -/
def requestIn [Platform] (frame : List UInt8) : Option Request :=
  (Request.ofFrame (some maxPayload) frame).toOption

/-! ## Cutting a stream -/

/-- Without a delimiter all of a stream is an open frame. -/
theorem frames_of_open {p : List UInt8} (hp : Cobs.delimiter ∉ p) :
    completeFrames p = [] ∧ openFrame p = p := by
  simp [completeFrames, openFrame, List.splitOn_eq_singleton hp]

/-- A delimiter ends the first frame. -/
theorem frames_of_frame {p : List UInt8} (hp : Cobs.delimiter ∉ p) (s : List UInt8) :
    completeFrames (p ++ Cobs.delimiter :: s) = p :: completeFrames s ∧
      openFrame (p ++ Cobs.delimiter :: s) = openFrame s := by
  have hne := List.splitOn_ne_nil Cobs.delimiter s
  simp only [completeFrames, openFrame, List.splitOn_append_cons_self_of_not_mem hp]
  refine ⟨List.dropLast_cons_of_ne_nil hne, ?_⟩
  rw [List.getLastD_eq_getLast?, List.getLastD_eq_getLast?, List.getLast?_cons_of_ne_nil hne]

/-- A stream is an open frame, or a frame and a stream after it. -/
theorem stream_induct {P : List UInt8 → Prop} (tail : ∀ p, Cobs.delimiter ∉ p → P p)
    (frame : ∀ p s, Cobs.delimiter ∉ p → P s → P (p ++ Cobs.delimiter :: s))
    (stream : List UInt8) : P stream := by
  induction hn : stream.length using Nat.strongRecOn generalizing stream with
  | ind n ih =>
      by_cases hmem : Cobs.delimiter ∈ stream
      · obtain ⟨p, s, rfl, hp⟩ := List.eq_append_cons_of_mem hmem
        refine frame p s hp (ih _ ?_ s rfl)
        rw [← hn, List.length_append, List.length_cons]
        omega
      · exact tail stream hmem

/-- More of a stream goes on in its open frame. -/
theorem frames_append (s t : List UInt8) :
    completeFrames (s ++ t) = completeFrames s ++ completeFrames (openFrame s ++ t) ∧
      openFrame (s ++ t) = openFrame (openFrame s ++ t) := by
  induction s using stream_induct with
  | tail p hp =>
      obtain ⟨hframes, hopen⟩ := frames_of_open hp
      rw [hframes, hopen]
      exact ⟨rfl, rfl⟩
  | frame p s hp ih =>
      obtain ⟨hframes, hopen⟩ := frames_of_frame hp s
      obtain ⟨hframes', hopen'⟩ := frames_of_frame hp (s ++ t)
      rw [List.append_assoc, List.cons_append, hframes', hopen', hframes, hopen, ih.1, ih.2]
      exact ⟨rfl, rfl⟩

/-- Behind a delimiter nothing is open yet. -/
theorem openFrame_of_delimiter (s : List UInt8) : openFrame (s ++ [Cobs.delimiter]) = [] := by
  induction s using stream_induct with
  | tail p hp => exact (frames_of_frame hp []).2
  | frame p s hp ih =>
      rw [List.append_assoc, List.cons_append, (frames_of_frame hp _).2]
      exact ih

/-- An open frame has no delimiter. -/
theorem delimiter_not_mem_openFrame (s : List UInt8) : Cobs.delimiter ∉ openFrame s := by
  induction s using stream_induct with
  | tail p hp => rwa [(frames_of_open hp).2]
  | frame p s hp ih => rwa [(frames_of_frame hp s).2]

namespace Receiver

/-! ## The frame that is being received -/

/-- What the receiver has of a frame at its end.  A byte for which there is no room drops all that
    was received of the frame, and itself. -/
def kept (frame : List UInt8) : List UInt8 :=
  frame.drop (frame.length / (frameCapacity + 1) * (frameCapacity + 1))

/-- Whenever the buffer has no room for a byte, all is dropped, and that byte too. -/
theorem length_kept (p : List UInt8) : (kept p).length = p.length % (frameCapacity + 1) := by
  have hdiv := Nat.div_add_mod' p.length (frameCapacity + 1)
  simp only [kept, List.length_drop]
  omega

/-- A frame that fits is kept as a whole. -/
theorem kept_of_fits {frame : List UInt8} (h : frame.length ≤ frameCapacity) :
    kept frame = frame := by
  rw [kept, Nat.div_eq_of_lt (Nat.lt_succ_of_le h), Nat.zero_mul, List.drop_zero]

/-- One more byte of a frame. -/
theorem kept_concat (p : List UInt8) (b : UInt8) :
    kept (p ++ [b]) = if (kept p).length < frameCapacity then kept p ++ [b] else [] := by
  have hmod : p.length % (frameCapacity + 1) < frameCapacity + 1 := Nat.mod_lt _ (by decide)
  have hdiv := Nat.div_add_mod' p.length (frameCapacity + 1)
  rw [length_kept]
  simp only [kept, List.length_append, List.length_singleton]
  split
  · rename_i hroom
    have hsame : (p.length + 1) / (frameCapacity + 1) = p.length / (frameCapacity + 1) := by
      simp only [frameCapacity] at *
      omega
    rw [hsame, List.drop_append_of_le_length (by omega)]
  · -- the byte is the first past the room, so the part that is dropped ends with it
    refine List.drop_eq_nil_of_le ?_
    simp only [List.length_append, List.length_singleton, frameCapacity] at *
    omega

section Looks

variable [Platform]

/-! ## Looking at the stream -/

/-- What holds of a receiver after some bytes of the stream: it has what is left of the open frame,
    and the requests that it found are those in what is left of the complete frames. -/
structure LookedAt (seen : List UInt8) (found : List Request) (frame : Array UInt8) : Prop where
  frame_eq : frame = (kept (openFrame seen)).toArray
  found_eq : found = (completeFrames seen).filterMap fun f => requestIn (kept f)

/-- Before the first byte nothing was looked at. -/
theorem lookedAt_nil : LookedAt [] [] #[] := ⟨rfl, rfl⟩

namespace LookedAt

variable {seen : List UInt8} {found : List Request} {frame : Array UInt8}

/-- Nothing more was looked at. -/
theorem unmoved (h : LookedAt seen found frame) : LookedAt (seen ++ []) (found ++ []) frame := by
  rw [List.append_nil, List.append_nil]
  exact h

/-- A byte of a frame is kept, or drops the frame for which there is no room. -/
theorem byte (h : LookedAt seen found frame) {b : UInt8} (hb : b ≠ Cobs.delimiter) :
    LookedAt (seen ++ [b]) found (if frame.size < frameCapacity then frame.push b else #[]) := by
  have hmem : Cobs.delimiter ∉ openFrame seen ++ [b] := by
    simp [delimiter_not_mem_openFrame, Ne.symm hb]
  obtain ⟨hframes, hopen⟩ := frames_append seen [b]
  obtain ⟨hframes', hopen'⟩ := frames_of_open hmem
  constructor
  · rw [h.frame_eq, hopen, hopen', kept_concat]
    split <;> rename_i hroom <;> simp only [List.size_toArray] at hroom
    · rw [if_pos hroom]
      simp
    · rw [if_neg hroom]
  · rw [h.found_eq, hframes, hframes', List.append_nil]

/-- A delimiter ends the open frame. -/
theorem delimiter (h : LookedAt seen found frame) :
    LookedAt (seen ++ [Cobs.delimiter]) (found ++ (requestIn frame.toList).toList) #[] := by
  obtain ⟨hframes, hopen⟩ := frames_append seen [Cobs.delimiter]
  obtain ⟨hframes', hopen'⟩ := frames_of_frame (delimiter_not_mem_openFrame seen) []
  constructor
  · rw [hopen, hopen']
    rfl
  · rw [hframes, hframes', List.filterMap_append, h.found_eq, h.frame_eq]
    cases hq : requestIn (kept (openFrame seen)) <;> simp [hq, completeFrames]

end LookedAt

/-! ## One look -/

/-- A byte of a frame is added if there is room for it. -/
theorem scan_byte (frame : Array UInt8) {b : UInt8} (hb : b ≠ Cobs.delimiter)
    (rest : List UInt8) : scan frame (b :: rest)
      = scan (if frame.size < frameCapacity then frame.push b else #[]) rest := by
  rw [scan, if_neg hb]
  split <;> rfl

/-- A frame without a request is skipped, an empty one included. -/
theorem scan_delimiter_of_none {frame : Array UInt8} (h : requestIn frame.toList = none)
    (rest : List UInt8) : scan frame (Cobs.delimiter :: rest) = scan #[] rest := by
  rw [scan, if_pos rfl]
  split
  · rename_i hempty
    rw [Array.isEmpty_iff.mp hempty]
  · rw [requestIn] at h
    cases hq : Request.ofFrame (some maxPayload) frame.toList with
    | ok q =>
        rw [hq] at h
        exact absurd h (Option.some_ne_none q)
    | error e => rfl

/-- A scan ends right behind the first frame with a request in it. -/
theorem scan_delimiter_of_some {frame : Array UInt8} {q : Request}
    (h : requestIn frame.toList = some q) (rest : List UInt8) :
    scan frame (Cobs.delimiter :: rest) = (some q, ⟨#[], rest⟩) := by
  have hne : frame.isEmpty = false := by
    cases hempty : frame.isEmpty with
    | false => rfl
    | true =>
        have hnone : requestIn frame.toList = none := by
          rw [Array.isEmpty_iff.mp hempty]
          rfl
        exact absurd (h.symm.trans hnone) (Option.some_ne_none q)
  rw [scan, if_pos rfl, if_neg (by simp [hne])]
  rw [requestIn] at h
  cases hq : Request.ofFrame (some maxPayload) frame.toList with
  | ok q' =>
      rw [hq] at h
      cases h
      rfl
  | error e =>
      rw [hq] at h
      exact absurd h.symm (Option.some_ne_none q)

/-- How a look at some bytes ends: all of them were looked at but those that are left unread, and
    with a request it ends right behind the delimiter of the request's frame. -/
def LookEnds (seen : List UInt8) (found : List Request) (bytes : List UInt8)
    (out : Option Request × Receiver) : Prop :=
  ∃ more, bytes = more ++ out.2.unread ∧
    LookedAt (seen ++ more) (found ++ out.1.toList) out.2.frame ∧
    (out.1.isSome → ∃ before, seen ++ more = before ++ [Cobs.delimiter])

/-- A look that goes on after its first byte. -/
theorem LookEnds.cons {seen : List UInt8} {found : List Request} {b : UInt8} {rest : List UInt8}
    {out : Option Request × Receiver} (h : LookEnds (seen ++ [b]) found rest out) :
    LookEnds seen found (b :: rest) out := by
  obtain ⟨more, hrest, hlooked, hsome⟩ := h
  rw [List.append_assoc] at hlooked hsome
  exact ⟨b :: more, congrArg (b :: ·) hrest, hlooked, hsome⟩

/-- A scan goes on with what was looked at before. -/
theorem LookedAt.scan {seen : List UInt8} {found : List Request} {frame : Array UInt8}
    (h : LookedAt seen found frame) (bytes : List UInt8) :
    LookEnds seen found bytes (scan frame bytes) := by
  induction bytes generalizing seen found frame with
  | nil => exact ⟨[], rfl, h.unmoved, nofun⟩
  | cons b rest ih =>
      by_cases hb : b = Cobs.delimiter
      · subst hb
        have hended := h.delimiter
        cases hq : requestIn frame.toList with
        | none =>
            rw [scan_delimiter_of_none hq]
            simp only [hq, Option.toList_none, List.append_nil] at hended
            exact (ih hended).cons
        | some q =>
            rw [scan_delimiter_of_some hq]
            rw [hq] at hended
            exact ⟨[Cobs.delimiter], rfl, hended, fun _ => ⟨seen, rfl⟩⟩
      · rw [scan_byte frame hb]
        exact (ih (h.byte hb)).cons

/-! ## Any number of looks -/

/-- What at most `n` looks give, and what is left after them. -/
def looks : Nat → Receiver → List LineRead →
    List (Option Request) × Receiver × List LineRead
  | 0, r, reads => ([], r, reads)
  | n + 1, r, reads =>
      match r.look reads with
      | none => ([], r, reads)
      | some (found, r, reads) =>
          let later := looks n r reads
          (found :: later.1, later.2)

/-- A look sees what is left of the last packet, or the next one if nothing is. -/
theorem look_eq_some {r r' : Receiver} {reads reads' : List LineRead} {found : Option Request}
    (h : r.look reads = some (found, r', reads')) :
    ∃ bytes, r.unread ++ streamOf reads = bytes ++ streamOf reads' ∧
      scan r.frame bytes = (found, r') := by
  unfold look at h
  split at h
  · rename_i hwants
    have hunread : r.unread = [] := List.isEmpty_iff.mp hwants
    cases reads with
    | nil => exact nomatch h
    | cons read reads =>
        simp only [Option.some.injEq, Prod.mk.injEq] at h
        obtain ⟨rfl, rfl, rfl⟩ := h
        exact ⟨read.bytes, by rw [hunread]; rfl, rfl⟩
  · simp only [Option.some.injEq, Prod.mk.injEq] at h
    obtain ⟨rfl, rfl, rfl⟩ := h
    exact ⟨r.unread, rfl, rfl⟩

/-- There is always another look while bytes are left. -/
theorem look_eq_none {r : Receiver} {reads : List LineRead} (h : r.look reads = none) :
    r.unread = [] ∧ reads = [] := by
  unfold look at h
  split at h
  · rename_i hwants
    cases reads with
    | nil => exact ⟨List.isEmpty_iff.mp hwants, rfl⟩
    | cons => exact nomatch h
  · exact nomatch h

/-- Where no look was made, nothing was looked at. -/
theorem looks_of_nil {n : Nat} {r : Receiver} {reads : List LineRead}
    (h : (looks n r reads).1 = []) : (looks n r reads).2 = (r, reads) := by
  cases n with
  | zero => rfl
  | succ n =>
      cases hlook : r.look reads with
      | none => simp only [looks, hlook]
      | some out =>
          simp only [looks, hlook] at h
          exact nomatch h

/-- Looks go on in the stream, whatever packets it comes in.  A request is found right behind the
    delimiter of its frame. -/
theorem looks_lookedAt (n : Nat) {seen : List UInt8} {found : List Request} {r : Receiver}
    (h : LookedAt seen found r.frame) (reads : List LineRead) :
    let l := looks n r reads
    ∃ more, r.unread ++ streamOf reads = more ++ (l.2.1.unread ++ streamOf l.2.2) ∧
      LookedAt (seen ++ more) (found ++ l.1.reduceOption) l.2.1.frame ∧
      ∀ q, l.1.getLast? = some (some q) → ∃ before, seen ++ more = before ++ [Cobs.delimiter] := by
  induction n generalizing seen found r reads with
  | zero => exact ⟨[], rfl, h.unmoved, nofun⟩
  | succ n ih =>
      cases hlook : r.look reads with
      | none =>
          simp only [looks, hlook]
          exact ⟨[], rfl, h.unmoved, nofun⟩
      | some out =>
          obtain ⟨q, r', reads'⟩ := out
          obtain ⟨bytes, hbytes, hscan⟩ := look_eq_some hlook
          obtain ⟨more, hmore, hlooked, hends⟩ := hscan ▸ h.scan bytes
          obtain ⟨later, hlater, hlooked', hends'⟩ := ih hlooked reads'
          simp only [looks, hlook]
          refine ⟨more ++ later, ?_, ?_, ?_⟩
          · rw [hbytes, hmore, List.append_assoc, List.append_assoc, hlater]
          · rw [← List.append_assoc]
            cases q <;> simpa [List.reduceOption_cons_of_none, List.reduceOption_cons_of_some]
              using hlooked'
          · intro q' hlast
            rw [← List.append_assoc]
            cases hrest : (looks n r' reads').1 with
            | nil =>
                -- this look was the last one, so nothing was looked at after it
                rw [hrest] at hlast
                cases hlast
                rw [looks_of_nil hrest] at hlater
                rw [List.self_eq_append_left.mp hlater, List.append_nil]
                exact hends rfl
            | cons next rest =>
                rw [hrest, List.getLast?_cons_cons] at hlast
                rw [hrest] at hends'
                exact hends' q' hlast

/-- Enough looks use up all that the line gives. -/
theorem looks_use_up {n : Nat} {r : Receiver} {reads : List LineRead} (h : r.pending reads ≤ n) :
    (looks n r reads).2.1.unread = [] ∧ (looks n r reads).2.2 = [] := by
  induction n generalizing r reads with
  | zero =>
      cases hlook : r.look reads with
      | none => exact look_eq_none hlook
      | some out =>
          obtain ⟨q, r', reads'⟩ := out
          have := pending_look_lt hlook
          omega
  | succ n ih =>
      cases hlook : r.look reads with
      | none =>
          simp only [looks, hlook]
          exact look_eq_none hlook
      | some out =>
          obtain ⟨q, r', reads'⟩ := out
          have := pending_look_lt hlook
          simp only [looks, hlook]
          exact ih (by omega)

/-! ## What is received -/

/-- Frames that fit are received as they are cut out of the stream, whatever packets it comes in:
    any number of looks gives the requests in the frames that it got to, in their order.  Frames
    without bytes or without a request are skipped, and what is left of a packet when a request is
    found begins the next frame. -/
theorem requests_of_frames (reads : List LineRead)
    (hfits : ∀ f ∈ completeFrames (streamOf reads), f.length ≤ frameCapacity) (n : Nat) :
    let l := looks n {} reads
    ∃ seen, streamOf reads = seen ++ (l.2.1.unread ++ streamOf l.2.2) ∧
      l.1.reduceOption = ((completeFrames seen).filter (· ≠ [])).filterMap requestIn ∧
      (∀ q, l.1.getLast? = some (some q) →
        l.2.1.frame = #[] ∧ ∃ before, seen = before ++ [Cobs.delimiter]) ∧
      (({} : Receiver).pending reads ≤ n → seen = streamOf reads) := by
  intro l
  obtain ⟨seen, hstream, hlooked, hends⟩ := looks_lookedAt n lookedAt_nil (r := {}) reads
  rw [List.nil_append] at hlooked
  refine ⟨seen, hstream, ?_, ?_, ?_⟩
  · have hseen : ∀ f ∈ completeFrames seen, kept f = f := by
      intro f hf
      have hstream' : streamOf reads = seen ++ (l.2.1.unread ++ streamOf l.2.2) := hstream
      refine kept_of_fits (hfits f ?_)
      rw [hstream', (frames_append _ _).1]
      exact List.mem_append_left _ hf
    rw [List.filterMap_filter]
    refine hlooked.found_eq.trans (List.filterMap_congr fun f hf => ?_)
    rw [hseen f hf]
    by_cases hempty : f = []
    · rw [hempty]
      rfl
    · simp [hempty]
  · intro q hlast
    obtain ⟨before, hbefore⟩ := hends q hlast
    rw [List.nil_append] at hbefore
    refine ⟨hlooked.frame_eq.trans ?_, before, hbefore⟩
    rw [hbefore, openFrame_of_delimiter]
    rfl
  · intro hn
    obtain ⟨hunread, hreads⟩ := looks_use_up hn
    rw [hunread, hreads] at hstream
    exact (hstream.trans (List.append_nil seen)).symm

end Looks

/-- A stream whose second packet ends inside a frame, with an empty frame, one that holds nothing
    and moments without a packet in between. -/
theorem requests_of_frames_split :
    let _ : Platform := .board
    let reads : List LineRead := [.packet [2], .nothing, .packet [5, 0, 0, 3], .packet [],
      .packet [1, 0, 2, 4, 0, 2], .nothing]
    (∀ f ∈ completeFrames (streamOf reads), f.length ≤ frameCapacity) ∧
      (looks 20 {} reads).1.reduceOption = [.reboot, .finish] := by
  intro board reads
  have hfits : ∀ f ∈ completeFrames (streamOf reads), f.length ≤ frameCapacity := by decide
  obtain ⟨seen, -, hfound, -, hall⟩ := requests_of_frames reads hfits 20
  refine ⟨hfits, hfound.trans ?_⟩
  rw [hall (by decide)]
  decide +kernel

/-! ## Frames that are too long -/

/-- The requests that are received in all that the line gives. -/
def received [Platform] (reads : List LineRead) : List Request :=
  (looks (({} : Receiver).pending reads) {} reads).1.reduceOption

/-- Every frame is received by itself, as what the receiver has of it at its end. -/
theorem received_eq [Platform] (reads : List LineRead) :
    received reads = (completeFrames (streamOf reads)).filterMap fun f => requestIn (kept f) := by
  obtain ⟨seen, hstream, hlooked, -⟩ :=
    looks_lookedAt (({} : Receiver).pending reads) lookedAt_nil (r := {}) reads
  obtain ⟨hunread, hreads⟩ := looks_use_up (Nat.le_refl (({} : Receiver).pending reads))
  rw [hunread, hreads] at hstream
  obtain rfl : streamOf reads = seen := hstream.trans (List.append_nil seen)
  exact hlooked.found_eq

/-- Values that one function leaves out of another's are missed as soon as there are any. -/
theorem filterMap_eq_iff_of_left_out {α β : Type} {g h : α → Option β} {l : List α}
    (hout : ∀ a ∈ l, h a = g a ∨ h a = none) :
    l.filterMap g = l.filterMap h ↔ ∀ a ∈ l, g a = h a := by
  refine ⟨?_, List.filterMap_congr⟩
  induction l with
  | nil => exact fun _ => nofun
  | cons a l ih =>
      intro heq
      obtain ⟨ha, hl⟩ := List.forall_mem_cons.mp hout
      cases hga : g a with
      | none =>
          have hha : h a = none := by
            rcases ha with ha | ha
            · rw [ha, hga]
            · exact ha
          rw [List.filterMap_cons_none hga, List.filterMap_cons_none hha] at heq
          exact List.forall_mem_cons.mpr ⟨hga.trans hha.symm, ih hl heq⟩
      | some b =>
          rcases ha with ha | ha
          · have hha : h a = some b := ha.trans hga
            rw [List.filterMap_cons_some hga, List.filterMap_cons_some hha] at heq
            exact List.forall_mem_cons.mpr ⟨ha.symm, ih hl (List.cons.inj heq).2⟩
          · -- a value that is left out makes the list shorter, and nothing makes up for it
            have hle : (l.filterMap h).length ≤ (l.filterMap g).length := by
              rw [List.length_filterMap_eq_countP, List.length_filterMap_eq_countP]
              refine List.countP_mono_left fun x hx hsome => ?_
              rcases hl x hx with hx | hx
              · rwa [← hx]
              · rw [hx] at hsome
                exact nomatch hsome
            have hlength := congrArg List.length heq
            rw [List.filterMap_cons_some hga, List.filterMap_cons_none ha,
              List.length_cons] at hlength
            omega

/-- Frames that are too long are left out of what is received exactly if what the receiver has of
    them at their end holds no request.  That is the bytes after the last one for which there was no
    room, so it may hold one. -/
theorem oversized_left_out_iff [Platform] (reads : List LineRead) :
    let frames := completeFrames (streamOf reads)
    received reads = (frames.filter (·.length ≤ frameCapacity)).filterMap requestIn ↔
      ∀ f ∈ frames, frameCapacity < f.length → requestIn (kept f) = none := by
  intro frames
  have hshort : ∀ f : List UInt8, (if f.length ≤ frameCapacity then requestIn f else none)
      = if f.length ≤ frameCapacity then requestIn (kept f) else none := by
    intro f
    split
    · rename_i hfits
      rw [kept_of_fits hfits]
    · rfl
  rw [received_eq, List.filterMap_filter]
  simp only [decide_eq_true_eq, hshort]
  rw [filterMap_eq_iff_of_left_out]
  · refine forall₂_congr fun f _ => ?_
    by_cases hfits : f.length ≤ frameCapacity
    · simp [hfits, Nat.not_lt.mpr hfits]
    · simp only [if_neg hfits, Nat.lt_of_not_le hfits, true_imp_iff]
  · intro f _
    by_cases hfits : f.length ≤ frameCapacity
    · exact Or.inl (if_pos hfits)
    · exact Or.inr (if_neg hfits)

/-- A frame of 2051 bytes whose last two ask for a reboot. -/
theorem oversized_frame_received :
    let _ : Platform := .board
    let reads : List LineRead := List.replicate 32 (.packet (List.replicate 64 0x11))
      ++ [.packet [0x11, 0x02, 0x05, 0x00]]
    completeFrames (streamOf reads) = [List.replicate 2049 0x11 ++ [0x02, 0x05]] ∧
      received reads = [.reboot] := by
  decide +kernel

end Receiver
end NorLoader
