import NorLoader.Proofs.Host.Run

/-!
# The order of the blocks

A session takes the blocks with the numbers `0, 1, …`, each of them intact, and all of one kind,
which the attempt to open the job has settled as far as streams go (`InOrder`).  Everything else
that a host sends as data, and every query, is ignored: the controller is the same afterwards, so
a run may be freed of such events without a trace (`run_kept`).
-/

namespace NorLoader

/-- What a route says about the blocks that were taken since it was set. -/
def Route.Carries : Route → List DataBlock → Prop
  | nothing, bs => bs = []
  | image kind?, bs => kind? ≠ some .deflated ∧ ∀ b ∈ bs, kind? = some b.kind
  | stream, bs => ∀ b ∈ bs, b.kind = .deflated

/-- A block that is taken is of the kind of those before it, and makes no stream out of an
    image. -/
theorem Route.Carries.concat {route route' : Route} {bs : List DataBlock} {b : DataBlock}
    (h : route.Carries bs) (htaking : route.taking? b.kind = some route') :
    route'.Carries (bs ++ [b]) ∧ route' ≠ .nothing ∧ (route' = .stream ↔ route = .stream) := by
  cases route with
  | nothing => exact nomatch htaking
  | stream =>
      obtain ⟨hkind, rfl⟩ := taking?_stream htaking
      refine ⟨?_, nofun, Iff.rfl⟩
      intro b' hb'
      rcases List.mem_append.mp hb' with hold | hnew
      · exact h b' hold
      · rw [List.mem_singleton.mp hnew]
        exact hkind
  | image kind? =>
      obtain ⟨rfl, hfixed⟩ := taking?_image htaking
      obtain ⟨hnot, hkinds⟩ := h
      refine ⟨⟨?_, ?_⟩, nofun, ⟨nofun, nofun⟩⟩
      · rintro hdeflated
        rcases hfixed with ⟨-, hne⟩ | hsome
        · exact hne (Option.some.inj hdeflated)
        · exact hnot (hsome.trans hdeflated)
      · intro b' hb'
        rcases List.mem_append.mp hb' with hold | hnew
        · -- a kind that was fixed is the kind of this block
          rcases hfixed with ⟨hnone, -⟩ | hsome
          · exact nomatch hnone.symm.trans (hkinds b' hold)
          · rw [← hsome]
            exact hkinds b' hold
        · rw [List.mem_singleton.mp hnew]

/-- The loader once the payload of a block was written in the way of its kind. -/
def Loader.stored {δ : Type} [FlashDevice δ] (l : Loader δ) (b : DataBlock) : Loader δ :=
  match b.kind with
  | .plain => l.write .plain b.payload
  | .encrypted => l.write .encrypted b.payload
  | .deflated => l.unpack b.payload

namespace Controller

variable {capacity : Nat}

/-- A block that is taken is written, once and at the event that brings it. -/
theorem stored_of_taken {c : Controller (Simulator capacity)} {e : Event} {b : DataBlock}
    (h : c.taken? e = some b) : e = .request (.data b) ∧ (c.after e).loader = c.loader.stored b := by
  obtain ⟨route, -, hnext⟩ := after_of_taken h
  refine ⟨event_of_taken h, ?_⟩
  rw [hnext]
  obtain ⟨kind, seq, crc, payload⟩ := b
  cases kind <;> rfl

/-! ## The blocks of a session -/

/-- The blocks `bs` that a session took which a request began. -/
structure InOrder (r : Request) (bs : List DataBlock) (c : Controller (Simulator capacity)) :
    Prop where
  /-- As long as the count does not wrap. -/
  numbers : bs.length < 2 ^ 32 → c.taken.toNat = bs.length ∧
    bs.map (fun b => b.seq.toNat) = List.range bs.length
  intact : ∀ b ∈ bs, b.isIntact = true
  carries : c.route.Carries bs
  stream_iff : c.route ≠ .nothing → (c.route = .stream ↔ r.route = .stream)

namespace InOrder

variable {r : Request} {bs : List DataBlock} {c : Controller (Simulator capacity)}

/-- A job that was just opened has taken nothing. -/
theorem of_opens {size offset : UInt32} {c' : Controller (Simulator capacity)}
    (h : Opens r size offset c c') (hspan : r.span? = some (size, offset)) : InOrder r [] c' := by
  refine ⟨?_, nofun, ?_, ?_⟩
  · intro _
    rw [h.taken]
    exact ⟨rfl, rfl⟩
  · rcases h.job with ⟨-, -, hroute⟩ | ⟨-, -, hroute⟩
    · rw [hroute]
      rfl
    · rw [hroute]
      cases r with
      | start => exact ⟨nofun, nofun⟩
      | startPacked => exact nofun
      | _ => exact nomatch hspan
  · intro hne
    rcases h.job with ⟨-, -, hroute⟩ | ⟨-, -, hroute⟩
    · exact absurd hroute hne
    · rw [hroute]

/-- What one event adds. -/
theorem after (h : InOrder r bs c) (e : Event) (he : e.opens = false) :
    InOrder r (bs ++ (c.taken? e).toList) (c.after e) := by
  cases htaken : c.taken? e with
  | none =>
      obtain ⟨hcount, hroute, -⟩ := after_of_not_taken he htaken
      rw [Option.toList_none, List.append_nil]
      refine ⟨?_, h.intact, ?_, ?_⟩
      · rw [hcount]
        exact h.numbers
      · rw [hroute]
        exact h.carries
      · rw [hroute]
        exact h.stream_iff
  | some b =>
      obtain ⟨hseq, hintact⟩ := checked_of_taken htaken
      obtain ⟨route, hroute, hnext⟩ := after_of_taken htaken
      obtain ⟨hroute', htaken'⟩ :=
        storePayload_route { c with taken := c.taken + 1, route := route } b.kind b.payload
      have hopen : c.route ≠ .nothing := by
        intro hnothing
        rw [hnothing] at hroute
        exact nomatch hroute
      obtain ⟨hcarries, -, hstream⟩ := h.carries.concat hroute
      rw [Option.toList_some]
      refine ⟨?_, ?_, ?_, ?_⟩
      · intro hlength
        rw [List.length_append, List.length_singleton] at hlength
        obtain ⟨hcount, hnumbers⟩ := h.numbers (by omega)
        refine ⟨?_, ?_⟩
        · rw [hnext, htaken', UInt32.toNat_add, hcount, List.length_append]
          exact Nat.mod_eq_of_lt hlength
        · rw [List.map_append, hnumbers, List.length_append, List.length_singleton,
            List.range_succ, List.map_singleton, hseq, hcount]
      · intro b' hb'
        rcases List.mem_append.mp hb' with hold | hnew
        · exact h.intact b' hold
        · rw [List.mem_singleton.mp hnew]
          exact hintact
      · rw [hnext, hroute']
        exact hcarries
      · rw [hnext, hroute']
        intro _
        exact hstream.trans (h.stream_iff hopen)

/-- All blocks of a session are of one kind, and it is that of streams if the session was opened
    for one. -/
theorem one_kind (h : InOrder r bs c) :
    ∃ kind, (∀ b ∈ bs, b.kind = kind) ∧ (kind = .deflated ↔ r.route = .stream) := by
  cases hroute : c.route with
  | nothing =>
      have hnil : bs = [] := by
        have hcarries := h.carries
        rw [hroute] at hcarries
        exact hcarries
      rw [hnil]
      by_cases hstream : r.route = .stream
      · exact ⟨.deflated, nofun, ⟨fun _ => hstream, fun _ => rfl⟩⟩
      · exact ⟨.plain, nofun, ⟨nofun, fun habs => absurd habs hstream⟩⟩
  | stream =>
      have hcarries := h.carries
      have hiff := h.stream_iff
      rw [hroute] at hcarries hiff
      exact ⟨.deflated, hcarries, ⟨fun _ => (hiff nofun).mp rfl, fun _ => rfl⟩⟩
  | image kind? =>
      have hcarries := h.carries
      have hiff := h.stream_iff
      rw [hroute] at hcarries hiff
      obtain ⟨hnot, hkinds⟩ := hcarries
      have hnostream : r.route ≠ .stream := fun habs => nomatch (hiff nofun).mpr habs
      cases kind? with
      | none =>
          refine ⟨.plain, ?_, ⟨nofun, fun habs => absurd habs hnostream⟩⟩
          intro b hb
          exact nomatch hkinds b hb
      | some kind =>
          refine ⟨kind, ?_, ⟨?_, fun habs => absurd habs hnostream⟩⟩
          · intro b hb
            exact (Option.some.inj (hkinds b hb)).symm
          · intro hdeflated
            exact absurd (congrArg some hdeflated) hnot

end InOrder

/-! ## What is ignored -/

/-- Whether an event is a query or a block that is not taken. -/
def ignores (c : Controller (Simulator capacity)) : Event → Bool
  | .request .query => true
  | .request (.data b) => (c.taken? (.request (.data b))).isNone
  | _ => false

/-- An event that is ignored leaves everything as it is, the device included. -/
theorem after_of_ignores {c : Controller (Simulator capacity)} {e : Event}
    (h : c.ignores e = true) : c.after e = c := by
  cases e with
  | idle => exact nomatch h
  | switch => exact nomatch h
  | request r =>
      cases r with
      | query => rfl
      | data b => exact execute_data_refused (Option.isNone_iff_eq_none.mp h)
      | _ => exact nomatch h

/-- The entries of a list that are not marked `false`. -/
def kept {α : Type} : List Bool → List α → List α
  | true :: marks, x :: xs => x :: kept marks xs
  | false :: marks, _ :: xs => kept marks xs
  | _, xs => xs

/-- Events that are ignored when they come may be left out: the run ends in the same state, and
    the host is told the same at the events that are left. -/
theorem run_kept (c : Controller (Simulator capacity)) (es : List Event) (marks : List Bool)
    (h : ∀ n e, es[n]? = some e → marks[n]? = some false →
      (c.run (es.take n)).ignores e = true) :
    c.run (kept marks es) = c.run es ∧
      c.answers (kept marks es) = kept marks (c.answers es) := by
  induction es generalizing c marks with
  | nil => cases marks with
    | nil => exact ⟨rfl, rfl⟩
    | cons mark marks => cases mark <;> exact ⟨rfl, rfl⟩
  | cons e es ih =>
      cases marks with
      | nil => exact ⟨rfl, rfl⟩
      | cons mark marks =>
          -- the events after the first are ignored in the run that begins after it
          have hrest : ∀ n e', es[n]? = some e' → marks[n]? = some false →
              ((c.after e).run (es.take n)).ignores e' = true := by
            intro n e' hplace hmark
            exact h (n + 1) e' hplace hmark
          obtain ⟨hrun, hanswers⟩ := ih (c.after e) marks hrest
          cases mark with
          | true =>
              refine ⟨hrun, ?_⟩
              show c.answer? e :: (c.after e).answers (kept marks es) = _
              rw [hanswers]
              rfl
          | false =>
              have hsame : c.after e = c := after_of_ignores (h 0 e rfl rfl)
              rw [hsame] at hrun hanswers
              refine ⟨?_, ?_⟩
              · rw [run_cons, hsame]
                exact hrun
              · show c.answers (kept marks es) = kept marks ((c.after e).answers es)
                rw [hsame]
                exact hanswers

/-- Blocks are taken once, in order, intact and of one kind, whatever the device, the run before
    and the session: their numbers count up from zero to the number of blocks taken, and they are
    pieces of a stream if and only if the session was opened for one.  What a block that is taken does
    to the loader is that its payload is written in the way of its kind.  A query, or a block that is
    not taken, leaves the controller as it is, so that any of them can be left out of a run: the
    run ends in the same state and the host gets the same answers to what is left. -/
theorem blocks_taken_in_order (d : Simulator capacity) :
    (∀ (before : List Event) (opening : Event) (session : List Event), opening.opens = true →
      (∀ e ∈ session, e.opens = false) →
      let opened := (powerOn d).run (before ++ [opening])
      let blocks := opened.takenIn session
      (blocks.length < 2 ^ 32 → (opened.run session).taken.toNat = blocks.length ∧
        blocks.map (fun b => b.seq.toNat) = List.range blocks.length) ∧
      (∀ b ∈ blocks, b.isIntact = true) ∧
      ∃ kind, (∀ b ∈ blocks, b.kind = kind) ∧
        (kind = .deflated ↔
          ∃ size packedSize offset, opening = .request (.startPacked size packedSize offset))) ∧
    (∀ (es : List Event) (e : Event) (b : DataBlock), ((powerOn d).run es).taken? e = some b →
      e = .request (.data b) ∧
        (((powerOn d).run es).after e).loader = ((powerOn d).run es).loader.stored b) ∧
    (∀ (es : List Event) (e : Event), ((powerOn d).run es).ignores e = true →
      ((powerOn d).run es).after e = (powerOn d).run es) ∧
    ∀ (es : List Event) (marks : List Bool),
      (∀ n e, es[n]? = some e → marks[n]? = some false →
        ((powerOn d).run (es.take n)).ignores e = true) →
      (powerOn d).run (kept marks es) = (powerOn d).run es ∧
        (powerOn d).answers (kept marks es) = kept marks ((powerOn d).answers es) := by
  refine ⟨?_, fun _ _ _ => stored_of_taken, fun _ _ => after_of_ignores, (powerOn d).run_kept⟩
  intro before opening session hopening hsession opened blocks
  obtain ⟨r, size, offset, rfl, hspan⟩ := opening.opens_iff.mp hopening
  have hbegins : InOrder r [] opened :=
    InOrder.of_opens ((powerOn d).run_opening before hspan) hspan
  have horder : InOrder r blocks (opened.run session) :=
    session_induct (I := InOrder r) (fun _ _ e he h => h.after e he) [] hbegins hsession
  obtain ⟨kind, hkinds, hkind⟩ := horder.one_kind
  refine ⟨horder.numbers, horder.intact, kind, hkinds, hkind.trans ?_⟩
  -- only a request that announces a stream sets the route for one
  constructor
  · intro hstream
    cases r with
    | startPacked => exact ⟨_, _, _, rfl⟩
    | _ => exact nomatch hstream
  · rintro ⟨_, _, _, heq⟩
    cases heq
    rfl

/-- A session that gets a block twice, a block of the wrong kind, a damaged block and a query; these
    four are left out of the run. -/
theorem blocks_taken_in_order_repeated :
    let d : Simulator 65536 := { eraseTime := 2 }
    let opening : Event := .request (.startPacked 5 9 4094)
    let first : DataBlock := ⟨.deflated, 0, Crc32.checksum [0x78, 0x01], [0x78, 0x01]⟩
    let wrong : DataBlock := ⟨.plain, 1, Crc32.checksum [7], [7]⟩
    let damaged : DataBlock := ⟨.deflated, 1, 0, [0x03]⟩
    let second : DataBlock := ⟨.deflated, 1, Crc32.checksum [0x03], [0x03]⟩
    let session : List Event := [.request (.data first), .request (.data first),
      .request (.data wrong), .idle, .request (.data damaged), .request .query,
      .request (.data second)]
    let marks := [true, true, false, false, true, false, false, true]
    let opened := (powerOn d).run [opening]
    let blocks := opened.takenIn session
    blocks.length = 2 ∧ (opened.run session).taken.toNat = blocks.length ∧
      blocks.map (fun b => b.seq.toNat) = List.range blocks.length ∧
      (∀ b ∈ blocks, b.isIntact = true) ∧
      (opened.after (.request (.data first))).loader = opened.loader.unpack [0x78, 0x01] ∧
      (powerOn d).run (kept marks (opening :: session)) = (powerOn d).run (opening :: session) ∧
      (powerOn d).answers (kept marks (opening :: session))
        = kept marks ((powerOn d).answers (opening :: session)) := by
  intro d opening first wrong damaged second session marks opened blocks
  have hlength : blocks.length = 2 := by decide +kernel
  obtain ⟨horder, hstored, -, hkept⟩ := blocks_taken_in_order d
  obtain ⟨hnumbers, hintact, -⟩ := horder [] opening session rfl (by decide)
  obtain ⟨hcount, hseqs⟩ := hnumbers (by
    show blocks.length < _
    rw [hlength]
    decide)
  have htaken : opened.taken? (.request (.data first)) = some first := by decide +kernel
  have hwritten : (opened.after (.request (.data first))).loader = opened.loader.stored first :=
    (hstored [opening] _ first htaken).2
  refine ⟨hlength, hcount, hseqs, hintact, hwritten, hkept (opening :: session) marks ?_⟩
  intro n e hplace hmark
  have hlt : n < 8 := (List.getElem?_eq_some_iff.mp hplace).1
  have hall : ∀ n < 8, marks[n]? = some false → ∀ e ∈ (opening :: session)[n]?,
      ((powerOn d).run ((opening :: session).take n)).ignores e = true := by decide +kernel
  exact hall n hlt hmark e hplace

end Controller
end NorLoader
