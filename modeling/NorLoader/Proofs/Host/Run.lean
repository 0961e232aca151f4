import NorLoader.Host.Controller
import NorLoader.Proofs.Image.Faultless

/-!
# Runs of the controller

A run is any sequence of requests and idle moments, with the faults of the simulated device
switched in between.  A session is the part of a run from one attempt to open a job to the next.
Two facts carry everything that is said about sessions later: what the job does in one event
(`SessionUpkeep.after`), and that without an open job nothing happens to it or to the device
(`after_of_inactive`).
-/

namespace NorLoader

/-- Size and offset of the job that a request is to open. -/
def Request.span? : Request → Option (UInt32 × UInt32)
  | start size offset => some (size, offset)
  | startPacked size _ offset => some (size, offset)
  | _ => none

/-- The route of the job that a request is to open. -/
def Request.route : Request → Route
  | start .. => .image none
  | startPacked .. => .stream
  | _ => .nothing

/-- How much of a zlib stream a request announces. -/
def Request.packedSize : Request → UInt32
  | startPacked _ packedSize _ => packedSize
  | _ => 0

/-- What can happen to a controller of a simulated device. -/
inductive Event where
  | request (r : Request)
  | idle
  /-- Faults of the device are switched on or off. -/
  | switch (faults : FaultSwitches)
  deriving DecidableEq, Repr

/-- Whether faults are switched at an event. -/
def Event.switches : Event → Bool
  | switch _ => true
  | _ => false

/-- Whether an event begins a session. -/
def Event.opens : Event → Bool
  | request r => r.span?.isSome
  | _ => false

/-- What opens a job is a request with a span. -/
theorem Event.opens_iff (e : Event) : e.opens = true ↔
    ∃ r size offset, e = .request r ∧ r.span? = some (size, offset) := by
  constructor
  · intro h
    cases e with
    | idle => exact nomatch h
    | switch => exact nomatch h
    | request r =>
        obtain ⟨⟨size, offset⟩, hspan⟩ := Option.isSome_iff_exists.mp h
        exact ⟨r, size, offset, rfl, hspan⟩
  · rintro ⟨r, size, offset, rfl, hspan⟩
    exact Option.isSome_iff_exists.mpr ⟨_, hspan⟩

/-- A route for image bytes takes a block of any kind that fits, and then keeps to it. -/
theorem Route.taking?_image {kind? : Option BlockKind} {kind : BlockKind} {route : Route}
    (h : (Route.image kind?).taking? kind = some route) :
    route = .image (some kind) ∧ (kind? = none ∧ kind ≠ .deflated ∨ kind? = some kind) := by
  cases kind? with
  | none =>
      cases kind with
      | plain => exact ⟨(Option.some.inj h).symm, Or.inl ⟨rfl, nofun⟩⟩
      | encrypted => exact ⟨(Option.some.inj h).symm, Or.inl ⟨rfl, nofun⟩⟩
      | deflated => exact nomatch h
  | some fixed =>
      simp only [taking?] at h
      split at h
      · rename_i heq
        subst heq
        exact ⟨(Option.some.inj h).symm, Or.inr rfl⟩
      · exact nomatch h

/-- A job for a stream takes pieces of a stream. -/
theorem Route.taking?_stream {kind : BlockKind} {route : Route}
    (h : Route.stream.taking? kind = some route) : kind = .deflated ∧ route = .stream := by
  cases kind with
  | deflated => exact ⟨rfl, (Option.some.inj h).symm⟩
  | plain => exact nomatch h
  | encrypted => exact nomatch h

/-- What is told of an error that is kept or not. -/
def Ack.ofKept : Option JobError → Ack
  | none => .ok
  | some e => .failed e

namespace Controller

section Requests

variable {δ : Type}

/-- A controller at power-on. -/
def powerOn (d : δ) : Controller δ := { loader := { device := d } }

/-- A block is either refused, and nothing changes, or it belongs to the open job, is the next
    one, is intact and of a kind that the job takes. -/
theorem receive_cases (c : Controller δ) (b : DataBlock) :
    ((c.receive b).1.toStore = none ∧ (c.receive b).2 = c) ∨
      ∃ route, c.loader.job.active = true ∧ b.seq = c.taken ∧ b.isIntact = true ∧
        c.route.taking? b.kind = some route ∧ (c.receive b).1.toStore = some b.kind ∧
        (c.receive b).2 = { c with taken := c.taken + 1, route := route } := by
  by_cases hactive : c.loader.job.active = true
  · by_cases hseq : b.seq = c.taken
    · by_cases hintact : b.isIntact = true
      · cases hroute : c.route.taking? b.kind with
        | none => exact Or.inl (by simp [receive, Verdict.ack, hactive, hseq, hintact, hroute])
        | some route =>
            refine Or.inr ⟨route, hactive, hseq, hintact, rfl, ?_⟩
            simp [receive, hactive, hseq, hintact, hroute]
      · exact Or.inl (by simp [receive, Verdict.ack, hactive, hseq, hintact])
    · exact Or.inl (by simp [receive, Verdict.ack, hactive, hseq])
  · exact Or.inl (by simp [receive, Verdict.ack, hactive])

/-- A block that is taken is acknowledged with the error that is kept until then. -/
theorem receive_answer {c : Controller δ} {b : DataBlock} (h : (c.receive b).1.toStore ≠ none) :
    (c.receive b).1.answer = .ack (.ofKept c.loader.job.error) := by
  rcases c.receive_cases b with ⟨hrefused, -⟩ | ⟨route, hactive, hseq, hintact, hroute, -, -⟩
  · exact absurd hrefused h
  · cases herror : c.loader.job.error <;>
      simp [receive, hactive, hseq, hintact, hroute, herror, Ack.ofKept]

/-- The block that is taken at an event, if one is. -/
def taken? (c : Controller δ) : Event → Option DataBlock
  | .request (.data b) => if (c.receive b).1.toStore = none then none else some b
  | _ => none

variable [FlashDevice δ]

/-- A block that is not taken changes nothing. -/
theorem execute_data_refused {c : Controller δ} {b : DataBlock}
    (h : c.taken? (.request (.data b)) = none) : (c.execute (.data b)).2 = c := by
  rcases c.receive_cases b with ⟨hstore, hsame⟩ | ⟨route, -, -, -, -, hstore, -⟩
  · show ((c.receive b).2.storePending (c.receive b).1 (.data b)) = c
    simp only [storePending, hstore]
    exact hsame
  · simp only [taken?, hstore] at h
    exact nomatch h

/-- A block is taken if it is the next one of its job, intact and of the right kind. -/
theorem execute_data_taken {c : Controller δ} {b b' : DataBlock}
    (h : c.taken? (.request (.data b)) = some b') :
    b' = b ∧ ∃ route, c.loader.job.active = true ∧ b.seq = c.taken ∧ b.isIntact = true ∧
      c.route.taking? b.kind = some route ∧
      (c.execute (.data b)).2
        = storePayload { c with taken := c.taken + 1, route := route } b.kind b.payload := by
  rcases c.receive_cases b with ⟨hstore, -⟩ | ⟨route, hactive, hseq, hintact, hroute, hstore, hnext⟩
  · simp only [taken?, hstore] at h
    exact nomatch h
  · simp only [taken?, hstore] at h
    refine ⟨(Option.some.inj h).symm, route, hactive, hseq, hintact, hroute, ?_⟩
    show ((c.receive b).2.storePending (c.receive b).1 (.data b)) = _
    simp only [storePending, hstore, hnext, Request.payload?]

/-- A payload is stored without a look at the blocks. -/
theorem storePayload_route (c : Controller δ) (kind : BlockKind) (payload : List UInt8) :
    (c.storePayload kind payload).route = c.route ∧
      (c.storePayload kind payload).taken = c.taken := by
  cases kind <;> exact ⟨rfl, rfl⟩

end Requests

variable {capacity : Nat}

/-! ## Runs -/

/-- The controller after an event. -/
def after (c : Controller (Simulator capacity)) : Event → Controller (Simulator capacity)
  | .request r => (c.execute r).2
  | .idle => c.idle.2
  | .switch faults =>
      { c with loader := { c.loader with device := { c.loader.device with faults := faults } } }

/-- Only the request that brings a block has it taken. -/
theorem event_of_taken {c : Controller (Simulator capacity)} {e : Event} {b : DataBlock}
    (h : c.taken? e = some b) : e = .request (.data b) := by
  cases e with
  | idle => exact nomatch h
  | switch => exact nomatch h
  | request r =>
      cases r with
      | data b' =>
          obtain ⟨rfl, -⟩ := execute_data_taken h
          rfl
      | _ => exact nomatch h

/-- What follows when a block is taken is writing it. -/
theorem after_of_taken {c : Controller (Simulator capacity)} {e : Event} {b : DataBlock}
    (h : c.taken? e = some b) :
    ∃ route, c.route.taking? b.kind = some route ∧
      c.after e
        = storePayload { c with taken := c.taken + 1, route := route } b.kind b.payload := by
  obtain rfl := event_of_taken h
  obtain ⟨-, route, -, -, -, hroute, hnext⟩ := execute_data_taken h
  exact ⟨route, hroute, hnext⟩

/-- Only the next block is taken, and only if it is intact. -/
theorem checked_of_taken {c : Controller (Simulator capacity)} {e : Event} {b : DataBlock}
    (h : c.taken? e = some b) : b.seq = c.taken ∧ b.isIntact = true := by
  obtain rfl := event_of_taken h
  obtain ⟨-, -, -, hseq, hintact, -⟩ := execute_data_taken h
  exact ⟨hseq, hintact⟩

/-- An event at which no block is taken and no job is opened leaves alone which blocks are taken,
    the stream, the error that is kept and the bytes that are to come. -/
theorem after_of_not_taken {c : Controller (Simulator capacity)} {e : Event}
    (he : e.opens = false) (h : c.taken? e = none) :
    (c.after e).taken = c.taken ∧ (c.after e).route = c.route ∧
      (c.after e).loader.unpacker = c.loader.unpacker ∧
      (c.after e).loader.job.error = c.loader.job.error ∧
      (c.after e).loader.job.remaining = c.loader.job.remaining := by
  cases e with
  | switch => exact ⟨rfl, rfl, rfl, rfl, rfl⟩
  | idle =>
      simp only [after, Controller.idle]
      split <;> exact ⟨rfl, rfl, rfl, rfl, rfl⟩
  | request r =>
      cases r with
      | start => exact nomatch he
      | startPacked => exact nomatch he
      | query => exact ⟨rfl, rfl, rfl, rfl, rfl⟩
      | reboot => exact ⟨rfl, rfl, rfl, rfl, rfl⟩
      | data b =>
          have hsame : c.after (.request (.data b)) = c := execute_data_refused h
          rw [hsame]
          exact ⟨rfl, rfl, rfl, rfl, rfl⟩
      | finish => exact ⟨rfl, rfl, rfl, c.loader.job.finish_kept⟩

/-- The controller after a run. -/
def run (c : Controller (Simulator capacity)) (es : List Event) :
    Controller (Simulator capacity) :=
  es.foldl after c

/-- What the host is told at an event, if anything. -/
def answer? (c : Controller (Simulator capacity)) : Event → Option Answer
  | .request r => some (c.execute r).1
  | _ => none

/-- What the host is told in a run, event by event. -/
def answers (c : Controller (Simulator capacity)) : List Event → List (Option Answer)
  | [] => []
  | e :: es => c.answer? e :: (c.after e).answers es

/-- The blocks that are taken in a run, in the order of their arrival. -/
def takenIn (c : Controller (Simulator capacity)) : List Event → List DataBlock
  | [] => []
  | e :: es => (c.taken? e).toList ++ (c.after e).takenIn es

/-- A run may be cut in two. -/
theorem run_append (c : Controller (Simulator capacity)) (es es' : List Event) :
    c.run (es ++ es') = (c.run es).run es' :=
  List.foldl_append

/-- A run starts with its first event. -/
theorem run_cons (c : Controller (Simulator capacity)) (e : Event) (es : List Event) :
    c.run (e :: es) = (c.after e).run es := rfl

/-- A run of one event more ends with that event. -/
theorem run_take_succ (c : Controller (Simulator capacity)) {es : List Event} {k : Nat} {e : Event}
    (h : es[k]? = some e) : c.run (es.take (k + 1)) = (c.run (es.take k)).after e := by
  rw [List.take_add_one, h, run_append]
  rfl

/-- An invariant of runs. -/
theorem run_induct {I : Controller (Simulator capacity) → Prop}
    (step : ∀ c e, I c → I (c.after e)) {c : Controller (Simulator capacity)} (hc : I c)
    (es : List Event) : I (c.run es) := by
  induction es generalizing c with
  | nil => exact hc
  | cons e es ih => exact ih (step c e hc)

/-- An invariant of sessions with events of some sort, which may speak of the blocks taken so
    far. -/
theorem session_induct {Q : Event → Prop}
    {I : List DataBlock → Controller (Simulator capacity) → Prop}
    (step : ∀ bs c e, Q e → I bs c → I (bs ++ (c.taken? e).toList) (c.after e))
    {c : Controller (Simulator capacity)} (bs : List DataBlock) (hc : I bs c) {es : List Event}
    (hes : ∀ e ∈ es, Q e) : I (bs ++ c.takenIn es) (c.run es) := by
  induction es generalizing c bs with
  | nil =>
      rw [takenIn, List.append_nil]
      exact hc
  | cons e es ih =>
      -- the rest of the session begins with the blocks that this event adds
      obtain ⟨he, hrest⟩ := List.forall_mem_cons.mp hes
      have hstep := ih _ (step bs c e he hc) hrest
      rw [List.append_assoc] at hstep
      exact hstep

/-! ## Opening a job -/

/-- Right after an attempt to open a job: if the device is locked there is none, else there is a
    fresh one.  Nothing was erased or programmed. -/
structure Opens (r : Request) (size offset : UInt32)
    (c c' : Controller (Simulator capacity)) : Prop where
  cells : c'.loader.device.cells = c.loader.device.cells
  calls : c'.loader.device.calls = c.loader.device.calls ++ [DeviceCall.unlock]
  misuses : c'.loader.device.misuses = c.loader.device.misuses
  conduct : c'.loader.device.conduct = c.loader.device.conduct
  unpacker : c'.loader.unpacker = c.loader.unpacker.restart r.packedSize
  taken : c'.taken = 0
  job : (c.loader.device.faults.unlock = true ∧ c'.loader.job = .idle ∧ c'.route = .nothing) ∨
    (c.loader.device.faults.unlock = false ∧ c'.loader.job = .fresh size offset ∧
      c'.route = r.route)

/-- It is the device alone that decides whether there is a job. -/
theorem Opens.job_eq {r : Request} {size offset : UInt32} {c c' : Controller (Simulator capacity)}
    (h : Opens r size offset c c') :
    c'.loader.job = (if c.loader.device.faults.unlock then .idle else .fresh size offset) ∧
      c'.route = if c.loader.device.faults.unlock then .nothing else r.route := by
  rcases h.job with ⟨hlocked, hjob⟩ | ⟨hfree, hjob⟩
  · rw [hlocked]
    exact hjob
  · rw [hfree]
    exact hjob

/-- A request with a span opens a job, or fails to. -/
theorem after_opening (c : Controller (Simulator capacity)) {r : Request} {size offset : UInt32}
    (h : r.span? = some (size, offset)) : Opens r size offset c (c.after (.request r)) := by
  -- of the faults that are switched on, only that of the unlock is asked for
  cases hf : c.loader.device.faults.unlock with
  | true =>
      have hunlock := Simulator.unlock_error hf
      cases r with
      | start =>
          cases h
          simp only [after, execute, respond, Loader.start, Job.start, hunlock]
          exact ⟨rfl, rfl, rfl, rfl, rfl, rfl, Or.inl ⟨hf, rfl, rfl⟩⟩
      | startPacked =>
          cases h
          simp only [after, execute, respond, Loader.startPacked, Job.start, hunlock]
          exact ⟨rfl, rfl, rfl, rfl, rfl, rfl, Or.inl ⟨hf, rfl, rfl⟩⟩
      | _ => exact nomatch h
  | false =>
      have hunlock := Simulator.unlock_ok hf
      cases r with
      | start =>
          cases h
          simp only [after, execute, respond, Loader.start, Job.start, hunlock]
          exact ⟨rfl, rfl, rfl, rfl, rfl, rfl, Or.inr ⟨hf, rfl, rfl⟩⟩
      | startPacked =>
          cases h
          simp only [after, execute, respond, Loader.startPacked, Job.start, hunlock]
          exact ⟨rfl, rfl, rfl, rfl, rfl, rfl, Or.inr ⟨hf, rfl, rfl⟩⟩
      | _ => exact nomatch h

/-- Whether a job was opened is what the host is told. -/
theorem answer_opening (c : Controller (Simulator capacity)) {r : Request}
    {span : UInt32 × UInt32} (h : r.span? = some span) :
    (c.execute r).1
      = .ack (if c.loader.device.faults.unlock then .failed .unlockFailed else .ok) := by
  cases hf : c.loader.device.faults.unlock with
  | true =>
      have hunlock := Simulator.unlock_error hf
      cases r with
      | start => simp only [execute, respond, Loader.start, Job.start, hunlock]; rfl
      | startPacked => simp only [execute, respond, Loader.startPacked, Job.start, hunlock]; rfl
      | _ => exact nomatch h
  | false =>
      have hunlock := Simulator.unlock_ok hf
      cases r with
      | start => simp only [execute, respond, Loader.start, Job.start, hunlock]; rfl
      | startPacked => simp only [execute, respond, Loader.startPacked, Job.start, hunlock]; rfl
      | _ => exact nomatch h

/-- The first piece of a stream is unpacked by the job that was opened for it. -/
theorem loader_after_piece (c : Controller (Simulator capacity))
    (hfree : c.loader.device.faults.unlock = false) (size packedSize offset : UInt32)
    (piece : List UInt8) :
    ((c.after (.request (.startPacked size packedSize offset))).after
        (.request (.data ⟨.deflated, 0, Crc32.checksum piece, piece⟩))).loader
      = (c.loader.startPacked size packedSize offset).2.unpack piece := by
  let block : DataBlock := ⟨.deflated, 0, Crc32.checksum piece, piece⟩
  let opened := c.after (.request (.startPacked size packedSize offset))
  have hopens : Opens (.startPacked size packedSize offset) size offset c opened :=
    c.after_opening rfl
  have hintact : block.isIntact = true := decide_eq_true rfl
  have htaken : opened.taken? (.request (.data block)) = some block := by
    obtain ⟨hjob, hroute⟩ := hopens.job_eq
    simp [taken?, receive, hjob, hroute, hfree, hopens.taken, hintact, Job.fresh, block,
      Request.route, Route.taking?]
  obtain ⟨route, -, hnext⟩ := after_of_taken htaken
  show (opened.after (.request (.data block))).loader = _
  rw [hnext]
  rfl

/-! ## The rest of a session -/

/-- Without an open job an event leaves the controller alone, but for the faults of the device. -/
theorem after_of_inactive (c : Controller (Simulator capacity)) {e : Event}
    (he : e.opens = false) (hactive : c.loader.job.active = false) :
    ∃ faults, c.after e = c.after (.switch faults) := by
  have hsame : c.after (.switch c.loader.device.faults) = c := rfl
  -- every event but a switch of the faults leaves the controller as it is
  cases e with
  | switch faults => exact ⟨faults, rfl⟩
  | idle =>
      refine ⟨_, Eq.trans ?_ hsame.symm⟩
      simp [after, Controller.idle, hactive]
  | request r =>
      refine ⟨_, Eq.trans ?_ hsame.symm⟩
      cases r with
      | start => exact nomatch he
      | startPacked => exact nomatch he
      | data b =>
          refine execute_data_refused ?_
          cases htaken : c.taken? (.request (.data b)) with
          | none => rfl
          | some b' =>
              obtain ⟨-, -, habs, -⟩ := execute_data_taken htaken
              rw [hactive] at habs
              exact nomatch habs
      | query => rfl
      | reboot => rfl
      | finish =>
          simp [after, execute, respond, Loader.finish, Job.finish, hactive, storePending,
            Verdict.ofResult, Verdict.ack]

/-- Without an open job a run leaves job and device alone, but for the faults. -/
theorem run_of_inactive {c : Controller (Simulator capacity)} {es : List Event}
    (hes : ∀ e ∈ es, e.opens = false) (hactive : c.loader.job.active = false) :
    (c.run es).loader.job = c.loader.job ∧
      (c.run es).loader.device.cells = c.loader.device.cells ∧
      (c.run es).loader.device.calls = c.loader.device.calls ∧
      (c.run es).loader.device.misuses = c.loader.device.misuses := by
  let I := fun (_ : List DataBlock) (c' : Controller (Simulator capacity)) =>
    c'.loader.job = c.loader.job ∧ c'.loader.device.cells = c.loader.device.cells ∧
      c'.loader.device.calls = c.loader.device.calls ∧
      c'.loader.device.misuses = c.loader.device.misuses
  refine session_induct (I := I) ?_ [] ⟨rfl, rfl, rfl, rfl⟩ hes
  rintro _ c' e he ⟨hjob, hcells, hcalls, hmisuses⟩
  obtain ⟨faults, heq⟩ := c'.after_of_inactive he (by rw [hjob]; exact hactive)
  rw [heq]
  exact ⟨hjob, hcells, hcalls, hmisuses⟩

/-- A run that ends with an attempt to open a job. -/
theorem run_opening (c : Controller (Simulator capacity)) (before : List Event) {r : Request}
    {size offset : UInt32} (h : r.span? = some (size, offset)) :
    Opens r size offset (c.run before) (c.run (before ++ [.request r])) := by
  rw [run_append]
  exact (c.run before).after_opening h

/-- A job that is open later in a session was opened at its start. -/
theorem Opens.fresh_of_active {r : Request} {size offset : UInt32}
    {c c' : Controller (Simulator capacity)} (h : Opens r size offset c c') {es : List Event}
    (hes : ∀ e ∈ es, e.opens = false) (hactive : (c'.run es).loader.job.active = true) :
    c'.loader.job = .fresh size offset ∧ c'.route = r.route := by
  rcases h.job with ⟨-, hidle, -⟩ | ⟨-, hfresh, hroute⟩
  · rw [(run_of_inactive hes (by rw [hidle]; rfl)).1, hidle] at hactive
    exact nomatch hactive
  · exact ⟨hfresh, hroute⟩

/-- In an idle moment the loader erases ahead, if a job is open. -/
theorem after_idle (c : Controller (Simulator capacity)) :
    c.after .idle = if c.loader.job.active
      then { c with loader := c.loader.eraseAhead.2 } else c := by
  cases hactive : c.loader.job.active <;> simp [after, Controller.idle, hactive]

/-- Success is told for an open job that has all its bytes and keeps no error. -/
theorem finish_ok_iff (c : Controller (Simulator capacity)) :
    (c.execute .finish).1 = .ack .ok ↔ c.loader.job.active = true ∧
      c.loader.job.remaining = 0 ∧ c.loader.job.error = none := by
  rw [← Job.finish_ok_iff]
  show Answer.ack (.ofResult c.loader.job.finish.1) = _ ↔ _
  cases c.loader.job.finish.1 <;> simp [Ack.ofResult]

/-- A job that is short of bytes is left as it is. -/
theorem finish_of_short (c : Controller (Simulator capacity)) (hactive : c.loader.job.active = true)
    (hremaining : c.loader.job.remaining ≠ 0) :
    c.execute .finish = (.ack (.failed .shortData), c) := by
  have hpos : c.loader.job.remaining > 0 := UInt32.pos_iff_ne_zero.mpr hremaining
  have hfinish : c.loader.job.finish = (.error .shortData, c.loader.job) := by
    simp [Job.finish, hactive, hpos]
  simp only [execute, respond, Loader.finish, hfinish]
  rfl

/-- A job that has all its bytes is closed, and the error that it keeps is told. -/
theorem finish_of_complete (c : Controller (Simulator capacity))
    (hactive : c.loader.job.active = true) (hremaining : c.loader.job.remaining = 0) :
    c.execute .finish = (.ack (.ofKept c.loader.job.error),
      { c with loader := { c.loader with job := { c.loader.job with active := false } } }) := by
  have hnone : ¬c.loader.job.remaining > 0 := by rw [hremaining]; exact UInt32.lt_irrefl 0
  cases herror : c.loader.job.error with
  | none =>
      have hfinish : c.loader.job.finish = (.ok (), { c.loader.job with active := false }) := by
        simp [Job.finish, hactive, hnone, herror]
      simp only [execute, respond, Loader.finish, hfinish]
      rfl
  | some e =>
      have hfinish : c.loader.job.finish
          = (.error e, { c.loader.job with active := false }) := by
        simp [Job.finish, hactive, hnone, herror]
      simp only [execute, respond, Loader.finish, hfinish]
      rfl

/-- What a block that is taken delivers.  A piece of a stream delivers what comes out of it. -/
def Delivers (c : Controller (Simulator capacity)) : Option DataBlock → List Delivery → Prop
  | none, vs => vs = []
  | some b, vs =>
      match b.kind with
      | .plain => vs = c.loader.job.deliveries .plain b.payload
      | .encrypted => vs = c.loader.job.deliveries .encrypted b.payload
      | .deflated => Job.Upkeep.Plain vs

/-- `P` is kept by everything that happens in a session in which no faults are switched. -/
structure SteadyUpkeep (P : List Delivery → Job → Simulator capacity → Prop) : Prop
    extends Job.Upkeep P where
  /-- The job is closed; it has all its bytes then. -/
  close : ∀ {w j s}, P w j s → j.remaining = 0 → P w { j with active := false } s

/-- `P` is kept by everything that happens in a session. -/
structure SessionUpkeep (P : List Delivery → Job → Simulator capacity → Prop) : Prop
    extends SteadyUpkeep P where
  /-- Faults are switched. -/
  switch : ∀ {w j s} faults, P w j s → P w j { s with faults := faults }

namespace SteadyUpkeep

variable {P : List Delivery → Job → Simulator capacity → Prop} {w : List Delivery}
  {c : Controller (Simulator capacity)}

/-- Closing a job keeps what is steady. -/
theorem finish (h : SteadyUpkeep P) {j : Job} {s : Simulator capacity} (hp : P w j s) :
    P w j.finish.2 s := by
  simp only [Job.finish]
  split
  · exact hp
  · split
    · exact hp
    · rename_i hremaining
      exact h.close hp (by simpa using hremaining)

/-- One event of a session, unless it switches faults. -/
theorem after (h : SteadyUpkeep P) {e : Event} (he : e.opens = false) (hs : e.switches = false)
    (hp : P w c.loader.job c.loader.device) :
    ∃ vs, c.Delivers (c.taken? e) vs ∧
      P (w ++ vs) (c.after e).loader.job (c.after e).loader.device := by
  cases e with
  | switch faults => exact nomatch hs
  | idle =>
      refine ⟨[], rfl, ?_⟩
      rw [List.append_nil, after_idle]
      split
      · exact h.eraseAhead hp
      · exact hp
  | request r =>
      cases r with
      | start => exact nomatch he
      | startPacked => exact nomatch he
      | query => exact ⟨[], rfl, by rw [List.append_nil]; exact hp⟩
      | reboot => exact ⟨[], rfl, by rw [List.append_nil]; exact hp⟩
      | finish => exact ⟨[], rfl, by rw [List.append_nil]; exact h.finish hp⟩
      | data b =>
          cases htaken : c.taken? (.request (.data b)) with
          | none =>
              refine ⟨[], rfl, ?_⟩
              rw [List.append_nil]
              show P w (c.execute (.data b)).2.loader.job (c.execute (.data b)).2.loader.device
              rw [execute_data_refused htaken]
              exact hp
          | some b' =>
              obtain ⟨rfl, route, -, -, -, -, hnext⟩ := execute_data_taken htaken
              simp only [Controller.after, hnext, Delivers]
              cases b'.kind with
              | plain => exact ⟨_, rfl, h.write hp .plain b'.payload⟩
              | encrypted => exact ⟨_, rfl, h.write hp .encrypted b'.payload⟩
              | deflated => exact h.unpack c.loader.unpacker hp b'.payload

end SteadyUpkeep

namespace SessionUpkeep

variable {P : List Delivery → Job → Simulator capacity → Prop} {w : List Delivery}
  {c : Controller (Simulator capacity)}

/-- One event of a session. -/
theorem after (h : SessionUpkeep P) {e : Event} (he : e.opens = false)
    (hp : P w c.loader.job c.loader.device) :
    ∃ vs, c.Delivers (c.taken? e) vs ∧
      P (w ++ vs) (c.after e).loader.job (c.after e).loader.device := by
  cases e with
  | switch faults => exact ⟨[], rfl, by rw [List.append_nil]; exact h.switch faults hp⟩
  | idle => exact h.toSteadyUpkeep.after he rfl hp
  | request r => exact h.toSteadyUpkeep.after he rfl hp

/-- A session keeps it, and adds deliveries. -/
theorem run (h : SessionUpkeep P) {es : List Event} (hes : ∀ e ∈ es, e.opens = false)
    (hp : P w c.loader.job c.loader.device) :
    ∃ vs, P (w ++ vs) (c.run es).loader.job (c.run es).loader.device := by
  refine session_induct (I := fun _ c' => ∃ vs, P (w ++ vs) c'.loader.job c'.loader.device) ?_ []
    ⟨[], by rw [List.append_nil]; exact hp⟩ hes
  rintro _ c' e he ⟨vs, hp'⟩
  obtain ⟨vs', -, hp''⟩ := h.after he hp'
  exact ⟨vs ++ vs', by rw [← List.append_assoc]; exact hp''⟩

end SessionUpkeep

/-! ## Runs with lasting faults -/

/-- Without a fault for one program only, no event changes how programs end, unless it switches
    faults. -/
theorem conduct_after_of_lasting {c : Controller (Simulator capacity)}
    (hlasting : c.loader.device.faults.nextProgram = false) {e : Event}
    (hs : e.switches = false) :
    (c.after e).loader.device.conduct = c.loader.device.conduct := by
  cases he : e.opens with
  | true =>
      obtain ⟨r, size, offset, rfl, hspan⟩ := e.opens_iff.mp he
      exact (c.after_opening hspan).conduct
  | false =>
      have hupkeep : @SteadyUpkeep capacity
          (fun _ _ s => s.conduct = c.loader.device.conduct) :=
        { toUpkeep := Job.conduct_upkeep hlasting, close := fun h _ => h }
      obtain ⟨-, -, hconduct⟩ := hupkeep.after (w := []) he hs rfl
      exact hconduct

/-- Without a fault no event changes how programs end. -/
theorem conduct_after {c : Controller (Simulator capacity)} (hfaults : c.loader.device.faults = {})
    {e : Event} (hs : e.switches = false) :
    (c.after e).loader.device.conduct = c.loader.device.conduct :=
  conduct_after_of_lasting (congrArg FaultSwitches.nextProgram hfaults) hs

/-- Nor do any number of them. -/
theorem conduct_run {c : Controller (Simulator capacity)} (hfaults : c.loader.device.faults = {})
    {es : List Event} (hs : ∀ e ∈ es, e.switches = false) :
    (c.run es).loader.device.conduct = c.loader.device.conduct := by
  induction es generalizing c with
  | nil => rfl
  | cons e es ih =>
      obtain ⟨he, hrest⟩ := List.forall_mem_cons.mp hs
      have hstep := conduct_after hfaults he
      have hnext := (congrArg Simulator.Conduct.faults hstep).trans hfaults
      exact (ih hnext hrest).trans hstep

end Controller
end NorLoader
