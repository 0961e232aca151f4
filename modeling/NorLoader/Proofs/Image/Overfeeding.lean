import Mathlib.Data.List.DropRight
import NorLoader.Proofs.Image.Announced

/-!
# More of a stream than was announced

A job for a stream counts down what was announced of it, and the count stops at zero, so more may
come than was announced.  What becomes of it depends on the pieces.  As soon as all that was
announced has come it is decided what becomes of the stream (`expecting_or_decided`), and any byte
after that is an error; but the piece with which it comes is read as far as it goes.  So the job
closes with success exactly if what is too much comes with the last bytes of a good stream
(`overfed_accepted_iff`).
-/

namespace NorLoader

/-- A zlib stream that stands for an image in front of what a window holds, which its matches may
    repeat as well. -/
def Window.Unpacks (window : Window) (packed image : List UInt8) : Prop :=
  ∃ y, (window.expansion packed).Reaches y ∧ y.input = [] ∧ y.output = window.toList ++ image ∧
    y.decoder.demand = .finished (Adler32.empty.addBytes image).value

/-- A stream that stands for an image does so in front of any window. -/
theorem Packs.unpacks {packed image : List UInt8} (h : Packs packed image) (window : Window) :
    window.Unpacks packed image := by
  obtain ⟨y, hreaches, hinput, rfl, hfinished⟩ := h
  refine ⟨y.framed window.toList [], hreaches.behind window, ?_, rfl, hfinished⟩
  show y.input ++ [] = []
  rw [hinput]
  rfl

/-- A stream is good if it stands for an image of the declared size. -/
theorem StreamEnd.good_iff {e : StreamEnd} {window : Window} {packed : List UInt8}
    (hreaches : (window.expansion packed).Reaches e.last) :
    e.Good ↔ ∃ image, window.Unpacks packed image ∧ image.length = e.size.toNat := by
  have hseeded : window.toList.length = windowSize := Vector.length_toList
  constructor
  · rintro ⟨hright, hlength, hinput⟩
    obtain ⟨image, himage⟩ := hreaches.input_output.2
    have himage : e.last.output = window.toList ++ image := himage.symm
    have houtput : e.output = image := by
      rw [StreamEnd.output, himage, List.drop_left' hseeded]
    rw [houtput] at hlength
    rw [StreamEnd.Right, houtput] at hright
    exact ⟨image, ⟨e.last, hreaches, hinput, himage, hright⟩, hlength⟩
  · rintro ⟨image, ⟨y, hy, hinput, himage, hright⟩, hlength⟩
    obtain rfl := hy.end_unique hreaches (Expansion.next?_of_finished hright) e.ends
    have houtput : e.output = image := by
      rw [StreamEnd.output, himage, List.drop_left' hseeded]
    exact ⟨by rw [StreamEnd.Right, houtput]; exact hright, by rw [houtput]; exact hlength, hinput⟩

namespace Loader

variable {capacity : Nat} {l : Loader (Simulator capacity)}

/-! ## Errors and ends -/

/-- It is decided what becomes of the stream: it is complete, or an error is kept. -/
def Decided (l : Loader (Simulator capacity)) : Prop :=
  l.unpacker.phase = .complete ∨ l.job.error ≠ none

/-- A piece does not clear an error. -/
theorem error_unpack (h : l.job.error ≠ none) (piece : List UInt8) :
    (l.unpack piece).job.error ≠ none := by
  obtain ⟨-, -, hstays⟩ :=
    (Job.error_upkeep (δ := Simulator capacity)).unpack l.unpacker (w := []) h piece
  exact hstays

/-- An error that is kept is kept to the end. -/
theorem error_unpackAll (steps : List FeedStep) (h : l.job.error ≠ none) :
    (l.unpackAll steps).job.error ≠ none := by
  induction steps generalizing l with
  | nil => exact h
  | cons step steps ih =>
      cases step with
      | piece bytes => exact ih (l := l.unpack bytes) (error_unpack h bytes)
      | eraseAhead => exact ih (l := l.eraseAhead.2) h

/-- Every byte that comes after the end of the stream is an error. -/
theorem Decided.error_unpack (h : l.Decided) {piece : List UInt8} (hne : piece ≠ []) :
    (l.unpack piece).job.error ≠ none := by
  rcases h with hphase | herror
  · have hexcess : (l.unpack piece).job = l.job.note .excessData := by
      simp [Loader.unpack, Unpacker.unpack, hphase, hne]
    rw [hexcess]
    exact Job.error_note_ne_none _ _
  · exact Loader.error_unpack herror piece

/-- What is decided stays so. -/
theorem Decided.unpack (h : l.Decided) (piece : List UInt8) : (l.unpack piece).Decided := by
  rcases h with hphase | herror
  · refine Or.inl ?_
    simp [Loader.unpack, Unpacker.unpack, hphase]
  · exact Or.inr (Loader.error_unpack herror piece)

/-- Steps may be taken in two rows. -/
theorem unpackAll_append (l : Loader (Simulator capacity)) (steps steps' : List FeedStep) :
    l.unpackAll (steps ++ steps') = (l.unpackAll steps).unpackAll steps' :=
  List.foldl_append

/-! ## Pieces -/

/-- Their bytes go one behind the other. -/
theorem fedBytes_append (steps steps' : List FeedStep) :
    fedBytes (steps ++ steps') = fedBytes steps ++ fedBytes steps' :=
  List.flatMap_append

/-- Pieces that hold any bytes have a last one that does. -/
theorem exists_last_piece {steps : List FeedStep} (h : fedBytes steps ≠ []) :
    ∃ before last after, steps = before ++ .piece last :: after ∧ last ≠ [] ∧
      fedBytes after = [] := by
  induction steps with
  | nil => exact absurd rfl h
  | cons step steps ih =>
      by_cases hrest : fedBytes steps = []
      · cases step with
        | piece bytes =>
            refine ⟨[], bytes, steps, rfl, ?_, hrest⟩
            rintro rfl
            exact h hrest
        | eraseAhead => exact absurd hrest h
      · obtain ⟨before, last, after, rfl, hne, hafter⟩ := ih hrest
        exact ⟨step :: before, last, after, rfl, hne, hafter⟩

/-- A step that brings no bytes. -/
def isIdle (step : FeedStep) : Bool := step.bytes.isEmpty

/-- The steps before the last piece that holds any bytes. -/
def beforeLast (steps : List FeedStep) : List FeedStep := (steps.rdropWhile isIdle).dropLast

/-- The last step with bytes is found from the end. -/
theorem beforeLast_eq {last : List UInt8} (hne : last ≠ []) {after : List FeedStep}
    (hafter : fedBytes after = []) (before : List FeedStep) :
    beforeLast (before ++ .piece last :: after) = before := by
  have hidle : ∀ step ∈ after.reverse, isIdle step := fun step hmem =>
    List.isEmpty_iff.mpr (List.flatMap_eq_nil_iff.mp hafter step (List.mem_reverse.mp hmem))
  have hlast : ¬isIdle (.piece last) := fun h =>
    hne (List.isEmpty_iff.mp h)
  rw [beforeLast, List.rdropWhile, List.reverse_append, List.reverse_cons, List.append_assoc,
    List.dropWhile_append_of_pos hidle, List.singleton_append, List.dropWhile_cons_of_neg hlast,
    List.reverse_cons, List.reverse_reverse, List.dropLast_concat]

/-- Whether more of a stream is expected after some pieces: less has come than was announced, or
    nothing was announced and nothing came.  For an image without bytes a piece is the end even if
    it has none itself. -/
def Expecting (size packedSize : UInt32) (before : List FeedStep) : Prop :=
  (fedBytes before).length < packedSize.toNat ∨
    packedSize = 0 ∧ fedBytes before = [] ∧ (size = 0 → .piece [] ∉ before)

/-- Whether more is expected is a comparison. -/
instance (size packedSize : UInt32) (before : List FeedStep) :
    Decidable (Expecting size packedSize before) := inferInstanceAs (Decidable (_ ∨ _))

/-- Without a byte of the stream nothing happens but that the device is erased ahead. -/
theorem unpackAll_of_no_bytes {P : Job → Simulator capacity → Prop}
    (hahead : ∀ {j s}, P j s → P (j.eraseAhead s).2.1 (j.eraseAhead s).2.2)
    {steps : List FeedStep} (hbytes : fedBytes steps = [])
    (hopen : l.job.remaining = 0 → .piece [] ∉ steps) (hp : P l.job l.device) :
    (l.unpackAll steps).unpacker = l.unpacker ∧
      P (l.unpackAll steps).job (l.unpackAll steps).device := by
  induction steps generalizing l with
  | nil => exact ⟨rfl, hp⟩
  | cons step steps ih =>
      have hrest : l.job.remaining = 0 → .piece [] ∉ steps := fun hzero hmem =>
        hopen hzero (List.mem_cons_of_mem _ hmem)
      cases step with
      | eraseAhead => exact ih (l := l.eraseAhead.2) hbytes hrest (hahead hp)
      | piece bytes =>
          obtain ⟨rfl, hbytes⟩ := List.append_eq_nil_iff.mp hbytes
          have hpos : l.job.remaining ≠ 0 := fun hzero => hopen hzero List.mem_cons_self
          have hsame : l.unpack [] = l := by
            simp [Loader.unpack, Unpacker.unpack_nil, hpos]
          show ((l.unpack []).unpackAll steps).unpacker = l.unpacker ∧
            P ((l.unpack []).unpackAll steps).job ((l.unpack []).unpackAll steps).device
          rw [hsame]
          exact ih hbytes hrest hp

/-! ## The piece with which it is too much -/

section Job

variable (l : Loader (Simulator capacity)) (hfaults : l.device.faults = {})
  (packedSize offset : UInt32)

include hfaults in
/-- If all that was announced has come with a piece, and more of the stream was expected before, the
    piece is unpacked as the last one, unless the stream cannot be good any more. -/
theorem unpack_passing {e : StreamEnd} (hextra : e.extra = 0) {before : List FeedStep}
    (hexpecting : Expecting e.size packedSize before) {piece : List UInt8} (hne : piece ≠ [])
    (hshort : piece.length < 2 ^ 32)
    (hpassed : packedSize.toNat ≤ (fedBytes before).length + piece.length)
    (hreaches : (l.unpacker.window.expansion (fedBytes before ++ piece)).Reaches e.last) :
    let fed := ((l.startPacked e.size packedSize offset).2.unpackAll before).unpack piece
    Progress (l.feedOf e offset) [] fed.unpacker fed.job fed.device ∨
      (fed.job.error ≠ none ∧ ¬e.Good) := by
  obtain ⟨ending, extra, size, hends⟩ := e
  obtain rfl : extra = 0 := hextra
  intro fed
  rcases hexpecting with hless | ⟨rfl, hbytes, hopen⟩
  · -- what came before is fed as the beginning of the stream
    obtain ⟨last, hlast, hlastends⟩ := (l.unpacker.window.expansion (fedBytes before)).exists_last
    let e' : StreamEnd := ⟨last, packedSize.toNat - (fedBytes before).length, size, hlastends⟩
    have hmore : 0 < e'.extra := Nat.sub_pos_of_lt hless
    have hsum : packedSize.toNat = (fedBytes before).length + e'.extra :=
      (Nat.add_sub_cancel' (Nat.le_of_lt hless)).symm
    have hfed := l.progress_feedOf hfaults e' offset hlast hsum (Nat.add_pos_right _ hmore) rfl
    have hlonger : (last.framed [] piece).Reaches ending :=
      (hlast.framed [] piece).on_to_end hreaches hends
    rcases hfed.upTo hends hmore hne hshort hlonger with ⟨hleft, hgoes⟩ | ⟨hdecided, hbad⟩
    · refine Or.inl (hgoes.unpack_overrun rfl hshort (Nat.le_trans (Nat.le_of_eq hleft) ?_))
      exact Nat.sub_le_iff_le_add'.mpr hpassed
    · exact Or.inr ⟨Decided.error_unpack hdecided hne, hbad⟩
  · -- nothing came before, and the device was erased ahead at most
    let f : Feed capacity := l.feedOf ⟨ending, 0, size, hends⟩ offset
    have hcount : (UInt32.ofNat piece.length).toNat = piece.length :=
      UInt32.toNat_ofNat_of_lt' hshort
    rw [hbytes, List.nil_append] at hreaches
    have hbegins := progress_start (f := f) rfl hreaches (hcount.trans (Nat.add_zero _).symm)
      (List.length_pos_iff.mpr hne) (aimed_opened offset size hfaults) rfl
    have hopened := startPacked_ok l hfaults size 0 offset
    let c := (l.startPacked size 0 offset).2.unpackAll before
    obtain ⟨hunpacker, hgoes⟩ := unpackAll_of_no_bytes (l := (l.startPacked size 0 offset).2)
      (P := fun j s => Progress f piece (l.unpacker.restart (UInt32.ofNat piece.length)) j s)
      Progress.eraseAhead hbytes (by rw [hopened]; exact hopen) (by rw [hopened]; exact hbegins)
    have hstart : c.unpacker = l.unpacker.restart 0 := by
      rw [hunpacker, hopened]
    have hannounced : Progress f piece (c.unpacker.announcing (UInt32.ofNat piece.length)) c.job
        c.device := by
      rw [hstart]
      exact hgoes
    have hnone : c.unpacker.packedLeft.toNat ≤ piece.length := by
      rw [hstart]
      exact Nat.zero_le _
    exact Or.inl (hannounced.unpack_overrun rfl hshort hnone)

include hfaults in
/-- If nothing was announced and the image has no bytes, the first piece is the end of the stream,
    even if it has no bytes either. -/
theorem decided_of_empty_piece {before : List FeedStep} (hbytes : fedBytes before = [])
    (hopen : .piece [] ∉ before) :
    (((l.startPacked 0 0 offset).2.unpackAll before).unpack []).Decided := by
  have hopened := startPacked_ok l hfaults 0 0 offset
  let c := (l.startPacked 0 0 offset).2.unpackAll before
  obtain ⟨hunpacker, hzero⟩ := unpackAll_of_no_bytes (l := (l.startPacked 0 0 offset).2)
    (P := fun j _ => j.remaining = 0) id hbytes (fun _ => hopen) (by rw [hopened]; rfl)
  have hstart : c.unpacker = l.unpacker.restart 0 := by
    rw [hunpacker, hopened]
  have hphase : c.unpacker.phase ≠ .complete := by
    rw [hstart]
    nofun
  have hleft : c.unpacker.packedLeft = 0 := by
    rw [hstart]
    rfl
  have hnoted : (c.unpack []).job = c.job.note .excessData := by
    simp only [Loader.unpack, Unpacker.unpack_nil]
    exact if_pos ⟨hphase, hzero, hleft⟩
  refine Or.inr ?_
  show (c.unpack []).job.error ≠ none
  rw [hnoted]
  exact Job.error_note_ne_none _ _

include hfaults in
/-- Up to any moment more of the stream is expected, or it is decided what becomes of it. -/
theorem expecting_or_decided (size : UInt32) {steps : List FeedStep}
    (hshort : ∀ step ∈ steps, step.bytes.length < 2 ^ 32) :
    Expecting size packedSize steps ∨
      ((l.startPacked size packedSize offset).2.unpackAll steps).Decided := by
  induction steps using List.reverseRecOn with
  | nil =>
      by_cases hzero : packedSize = 0
      · exact Or.inl (Or.inr ⟨hzero, rfl, fun _ => List.not_mem_nil⟩)
      · refine Or.inl (Or.inl ?_)
        exact UInt32.pos_iff_ne_zero.mpr hzero
  | append_singleton steps step ih =>
      have hbefore := fun step hmem => hshort step (List.mem_append_left _ hmem)
      have hlast := hshort step (List.mem_append_right _ List.mem_cons_self)
      rw [unpackAll_append]
      by_cases hstill : Expecting size packedSize (steps ++ [step])
      · exact Or.inl hstill
      refine Or.inr ?_
      have hfed := fedBytes_append steps [step]
      rcases ih hbefore with hexpecting | hdecided
      · -- the step is the first one after which no more is expected
        cases step with
        | eraseAhead =>
            refine absurd ?_ hstill
            rw [Expecting, hfed, show fedBytes [.eraseAhead] = [] from rfl, List.append_nil]
            simpa [Expecting] using hexpecting
        | piece bytes =>
            rw [show fedBytes [.piece bytes] = bytes from List.append_nil bytes] at hfed
            by_cases hempty : bytes = []
            · subst hempty
              rw [List.append_nil] at hfed
              rcases hexpecting with hless | ⟨rfl, hbytes, hopen⟩
              · exact absurd (Or.inl (hfed ▸ hless)) hstill
              · by_cases hsize : size = 0
                · subst hsize
                  exact decided_of_empty_piece l hfaults offset hbytes (hopen rfl)
                · exact absurd (Or.inr ⟨rfl, hfed.trans hbytes, (absurd · hsize)⟩) hstill
            · obtain ⟨last, hreaches, hends⟩ :=
                (l.unpacker.window.expansion (fedBytes steps ++ bytes)).exists_last
              have hpassed : packedSize.toNat ≤ (fedBytes steps).length + bytes.length := by
                rw [← List.length_append, ← hfed]
                exact Nat.le_of_not_lt fun hless => hstill (Or.inl hless)
              rcases unpack_passing l hfaults packedSize offset (e := ⟨last, 0, size, hends⟩) rfl
                hexpecting hempty hlast hpassed hreaches with hgoes | ⟨herror, -⟩
              · exact hgoes.decided rfl
              · exact Or.inr herror
      · cases step with
        | eraseAhead => exact hdecided
        | piece bytes => exact hdecided.unpack bytes

include hfaults in
/-- If more of the stream was expected before the piece with which all that was announced has come,
    and no byte comes after it, nothing depends on how much was announced: the job closes with
    success if the stream is good and its windows lie on the device. -/
theorem finish_ok_iff_of_expecting (size : UInt32) {before after : List FeedStep}
    {piece : List UInt8} (hexpecting : Expecting size packedSize before) (hne : piece ≠ [])
    (hshort : piece.length < 2 ^ 32)
    (hpassed : packedSize.toNat ≤ (fedBytes before).length + piece.length)
    (hafter : fedBytes after = []) :
    let closed := ((l.startPacked size packedSize offset).2.unpackAll
      (before ++ .piece piece :: after)).finish
    closed.1 = .ok () ↔
      (∃ image, l.unpacker.window.Unpacks (fedBytes before ++ piece) image ∧
        image.length = size.toNat) ∧
      WindowsWithin capacity offset.toNat size.toNat := by
  obtain ⟨last, hreaches, hends⟩ :=
    (l.unpacker.window.expansion (fedBytes before ++ piece)).exists_last
  let e : StreamEnd := ⟨last, 0, size, hends⟩
  let fed := ((l.startPacked size packedSize offset).2.unpackAll before).unpack piece
  rw [← e.good_iff hreaches, unpackAll_append]
  show (fed.unpackAll after).job.finish.1 = .ok () ↔ e.Good ∧ _
  rcases unpack_passing l hfaults packedSize offset (e := e) rfl hexpecting hne hshort hpassed
    hreaches with hgoes | ⟨herror, hbad⟩
  · have hall := progress_unpackAll (f := l.feedOf e offset) after (l := fed) (hafter ▸ hgoes)
    exact hall.finish_ok_iff rfl
  · have herror := error_unpackAll after herror
    exact iff_of_false (fun h => herror ((Job.finish_ok_iff _).mp h).2.2) fun h => hbad h.1

include hfaults in
/-- A job that was fed more than was announced of its stream, in whatever pieces, closes with
    success exactly if the last piece with any bytes is the one with which it came to be too much,
    all the bytes together are one complete zlib stream with the right checksum and nothing behind
    it, the image has the declared size, and no part of it was programmed outside the device. -/
theorem overfed_accepted_iff (size : UInt32) {steps : List FeedStep}
    (hshort : ∀ step ∈ steps, step.bytes.length < 2 ^ 32)
    (hover : packedSize.toNat < (fedBytes steps).length) :
    let closed := ((l.startPacked size packedSize offset).2.unpackAll steps).finish
    closed.1 = .ok () ↔ Expecting size packedSize (beforeLast steps) ∧
      (∃ image, l.unpacker.window.Unpacks (fedBytes steps) image ∧ image.length = size.toNat) ∧
      WindowsWithin capacity offset.toNat size.toNat := by
  obtain ⟨before, piece, after, rfl, hne, hafter⟩ :=
    exists_last_piece (List.length_pos_iff.mp (Nat.zero_lt_of_lt hover))
  have hbytes : fedBytes (before ++ .piece piece :: after) = fedBytes before ++ piece := by
    rw [fedBytes_append]
    show fedBytes before ++ (piece ++ fedBytes after) = _
    rw [hafter, List.append_nil]
  have hpiece := hshort (.piece piece) (List.mem_append_right _ List.mem_cons_self)
  rw [hbytes, List.length_append] at hover
  rw [hbytes, beforeLast_eq hne hafter]
  intro closed
  by_cases hexpecting : Expecting size packedSize before
  · rw [and_iff_right hexpecting]
    exact finish_ok_iff_of_expecting l hfaults packedSize offset size hexpecting hne hpiece
      (Nat.le_of_lt hover) hafter
  · -- it was decided before the last piece, so that one is an error
    have hdecided := (expecting_or_decided l hfaults packedSize offset size fun step hmem =>
      hshort step (List.mem_append_left _ hmem)).resolve_left hexpecting
    have herror := error_unpackAll after (hdecided.error_unpack hne)
    refine iff_of_false (fun hok => ?_) fun h => hexpecting h.1
    have hkept := ((Job.finish_ok_iff _).mp hok).2.2
    rw [unpackAll_append] at hkept
    exact herror hkept

end Job

/-- Eleven bytes of a stream of which five were announced, cut where the five end. -/
theorem overfed_rejected_when_cut :
    let l : Loader (Simulator 12288) := { device := {} }
    let steps : List FeedStep := [.piece [120, 156, 75, 76, 132], .piece [1, 0, 20, 225, 3, 203]]
    let closed := ((l.startPacked 10 5 4090).2.unpackAll steps).finish
    (∀ step ∈ steps, step.bytes.length < 2 ^ 32) ∧
      (5 : UInt32).toNat < (fedBytes steps).length ∧ closed.1 ≠ .ok () := by
  intro l steps
  have hshort : ∀ step ∈ steps, step.bytes.length < 2 ^ 32 := by decide
  have hover : (5 : UInt32).toNat < (fedBytes steps).length := by decide
  have hcut : ¬Expecting 10 5 (beforeLast steps) := by decide
  refine ⟨hshort, hover, fun hok => hcut ?_⟩
  exact ((overfed_accepted_iff l rfl 5 4090 10 hshort hover).mp hok).1

/-- The same bytes in one piece. -/
theorem overfed_accepted_in_one_piece :
    let l : Loader (Simulator 12288) := { device := {} }
    let steps : List FeedStep := [.piece [120, 156, 75, 76, 132, 1, 0, 20, 225, 3, 203]]
    let closed := ((l.startPacked 10 5 4090).2.unpackAll steps).finish
    (5 : UInt32).toNat < (fedBytes steps).length ∧ closed.1 = .ok () := by
  intro l steps closed
  have hpacks : Packs [120, 156, 75, 76, 132, 1, 0, 20, 225, 3, 203] (List.replicate 10 97) :=
    ⟨_, Expansion.reaches_advance 200 _, by decide +kernel, by decide +kernel, by decide +kernel⟩
  have hgood : ∃ image, l.unpacker.window.Unpacks (fedBytes steps) image ∧
      image.length = (10 : UInt32).toNat := ⟨_, hpacks.unpacks _, rfl⟩
  have hinside : WindowsWithin 12288 (4090 : UInt32).toNat (10 : UInt32).toNat :=
    (windowsWithin_iff (by decide) _ _).mpr (Or.inr (by decide))
  have hexpecting : Expecting 10 5 [] := by decide
  refine ⟨by decide, ?_⟩
  exact (finish_ok_iff_of_expecting l rfl 5 4090 10 hexpecting (List.cons_ne_nil _ _) (by decide)
    (by decide) rfl).mpr ⟨hgood, hinside⟩

end Loader
end NorLoader
