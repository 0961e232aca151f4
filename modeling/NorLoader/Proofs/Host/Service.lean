import NorLoader.Proofs.Host.Bench
import NorLoader.Proofs.Host.Framing
import NorLoader.Proofs.Wire.FrameLength

/-!
# What the service loop does

The loop answers a request in the middle of carrying it out, is idle whenever there is none, and
shares its board with the line and the light.  On a bench all of this can be told apart: what the
loop does to the flash device is what a controller does that has nothing but the device and executes
the requests one after another (`Controller.attend`), and what the line gets are the answers of that
controller, each as one frame.  The order of the two is a property of a single turn (`TurnLog`), and
a run is a sequence of turns up to the first reboot (`ServiceLog`).
-/

namespace NorLoader

namespace Controller

variable {δ : Type} [FlashDevice δ] [SerialLine δ] [StatusLight δ]

/-- Serves what was found in some looks, until a reboot is found. -/
def serve (c : Controller δ) : List (Option Request) → LoopEnd × Controller δ
  | [] => (.lineSilent, c)
  | found :: rest =>
      let (goesOn, c) := c.turn found
      if goesOn then c.serve rest else (.rebooted, c)

/-- The loop serves what the receiver finds in some looks, and goes on from there. -/
theorem mainLoop_after [Platform] (n : Nat) (r : Receiver) (reads : List LineRead) (c : Controller δ) :
    let looked := r.looks n reads
    let out := c.serve looked.1
    mainLoop reads r c
      = if out.1 = .rebooted then out else mainLoop looked.2.2 looked.2.1 out.2 := by
  induction n generalizing r reads c with
  | zero => rfl
  | succ n ih =>
      cases hlook : r.look reads with
      | none => simp only [Receiver.looks, hlook, serve, reduceCtorEq, if_false]
      | some out =>
          obtain ⟨found, r', reads'⟩ := out
          have hmain : mainLoop reads r c
              = if (c.turn found).1 then mainLoop reads' r' (c.turn found).2
                else (.rebooted, (c.turn found).2) := by
            rw [mainLoop]
            split
            · rename_i hnone
              exact absurd (hlook.symm.trans hnone) (Option.some_ne_none _)
            · rename_i hsome
              cases hlook.symm.trans hsome
              rfl
          simp only [Receiver.looks, hlook, serve, hmain]
          cases (c.turn found).1 with
          | true => exact ih r' reads' _
          | false => rfl

/-- Enough looks are the whole loop. -/
theorem mainLoop_eq_serve [Platform] {n : Nat} {r : Receiver} {reads : List LineRead}
    (h : r.pending reads ≤ n) (c : Controller δ) :
    mainLoop reads r c = c.serve (r.looks n reads).1 := by
  obtain ⟨hunread, hreads⟩ := Receiver.looks_use_up h
  have hsilent : ∀ (r : Receiver) (c : Controller δ), r.unread = [] →
      mainLoop [] r c = (.lineSilent, c) := by
    intro r c hr
    rw [mainLoop]
    split
    · rfl
    · rename_i hlook
      simp [Receiver.look, Receiver.wantsPacket, hr] at hlook
  rw [mainLoop_after n, hreads, hsilent _ _ hunread]
  rcases hout : c.serve (r.looks n reads).1 with ⟨_ | _, c'⟩ <;> rfl

end Controller

/-! ## What is logged -/

/-- The bytes that the line took at some events. -/
def sentIn (events : List BenchEvent) : List UInt8 :=
  events.flatMap fun
    | .offered taken => taken
    | _ => []

section Logs

variable {φ : Type} [FlashDevice φ]

/-- The events of a turn for a controller `p` of the flash device alone.  The answer comes in one
    piece, with nothing else in between.  A block is not worked on before its answer is on the line
    as a whole, and after the answer only a block is worked on that was taken. -/
inductive TurnLog (p : Controller φ) : Option Request → List BenchEvent → Prop where
  | idle (calls : Nat) :
      TurnLog p none (List.replicate calls .called ++ [.lit p.idle.2.loader.job.active])
  | request {q : Request} {before after : Nat} {taken : List (List UInt8)}
      (goesOn : q ≠ .reboot)
      (answered : taken.flatten = (p.execute q).1.toFrame)
      (blockWaits : q.payload? ≠ none → before = 0)
      (storedOnly : (p.respond q).1.toStore = none → after = 0) :
      TurnLog p (some q) (List.replicate before .called ++ taken.map .offered
        ++ List.replicate after .called ++ [.lit (p.execute q).2.loader.job.active])
  | reboot {taken : List (List UInt8)}
      (answered : taken.flatten = (Answer.ack .ok).toFrame) :
      TurnLog p (some .reboot) (taken.map .offered)

/-- The events of a run.  Nothing happens after a reboot. -/
inductive ServiceLog : Controller φ → List (Option Request) → List BenchEvent → Prop where
  | nil (p : Controller φ) : ServiceLog p [] []
  | turn {p : Controller φ} {found : Option Request} {rest : List (Option Request)}
      {first later : List BenchEvent} :
      found ≠ some .reboot → TurnLog p found first → ServiceLog (p.attend found).2 rest later →
      ServiceLog p (found :: rest) (first ++ later)
  | reboot {p : Controller φ} {rest : List (Option Request)} {events : List BenchEvent} :
      TurnLog p (some .reboot) events → ServiceLog p (some .reboot :: rest) events

/-- What is sent in one log is sent before what is sent in the next. -/
theorem sentIn_append (events more : List BenchEvent) :
    sentIn (events ++ more) = sentIn events ++ sentIn more := List.flatMap_append

/-- Calls send nothing. -/
theorem sentIn_called (calls : Nat) : sentIn (List.replicate calls .called) = [] := by
  simp [sentIn]

/-- Offers send what is taken of them. -/
theorem sentIn_offered (taken : List (List UInt8)) :
    sentIn (taken.map .offered) = taken.flatten := by
  rw [sentIn, List.flatMap_map]
  simp [List.flatMap_id']

/-- In a turn the line gets the frame of the answer, and nothing without a request. -/
theorem TurnLog.sentIn {p : Controller φ} {found : Option Request} {events : List BenchEvent}
    (h : TurnLog p found events) :
    NorLoader.sentIn events
      = if found = some .reboot then (Answer.ack .ok).toFrame
        else (p.attend found).1.toList.flatMap Answer.toFrame := by
  cases h with
  | idle calls =>
      rw [sentIn_append, sentIn_called]
      rfl
  | request goesOn answered =>
      rw [if_neg (by simpa using goesOn)]
      simp only [sentIn_append, sentIn_called, sentIn_offered, answered, List.append_nil]
      simp [NorLoader.sentIn, Controller.attend]
  | reboot answered => rw [if_pos rfl, sentIn_offered, answered]

/-- The answers to what was found up to the first reboot. -/
def answersTo (p : Controller φ) (found : List (Option Request)) : List Answer :=
  (p.attendAll (found.takeWhile (· ≠ some .reboot))).1
    ++ if some .reboot ∈ found then [.ack .ok] else []

/-- A service sends the answers to what it found, in that order. -/
theorem ServiceLog.sentIn {p : Controller φ} {found : List (Option Request)}
    {events : List BenchEvent} (h : ServiceLog p found events) :
    NorLoader.sentIn events = (answersTo p found).flatMap Answer.toFrame := by
  induction h with
  | nil p => rfl
  | turn hne hfirst _ ih =>
      rw [sentIn_append, hfirst.sentIn, if_neg hne, ih]
      simp [answersTo, hne, Ne.symm hne, Controller.attendAll]
  | reboot hevents =>
      rw [hevents.sentIn, if_pos rfl]
      simp [answersTo, Controller.attendAll]

end Logs

/-! ## A turn on a bench -/

namespace Controller

section OnABench

variable {φ σ : Type} [FlashDevice φ]

/-- The events on the bench of a controller. -/
def log (c : Controller (Bench φ σ)) : List BenchEvent := c.loader.device.events

/-- What is done to the flash before the answer is calls, and for a payload there are none. -/
theorem log_respond (c : Controller (Bench φ σ)) (q : Request) :
    ∃ before, (c.respond q).2.log = c.log ++ List.replicate before .called ∧
      (q.payload? ≠ none → before = 0) := by
  obtain ⟨-, before, hbefore⟩ :=
    (Bench.Worked.upkeep c.loader.device).respond (Bench.Worked.refl _) q
  cases q with
  | data b =>
      refine ⟨0, ?_, fun _ => rfl⟩
      rw [log, show (c.respond (.data b)).2.loader = c.loader from c.loader_receive b]
      exact (List.append_nil _).symm
  | query => exact ⟨before, hbefore, absurd rfl⟩
  | start => exact ⟨before, hbefore, absurd rfl⟩
  | startPacked => exact ⟨before, hbefore, absurd rfl⟩
  | finish => exact ⟨before, hbefore, absurd rfl⟩
  | reboot => exact ⟨before, hbefore, absurd rfl⟩

/-- What is done after it is calls, and without a payload to store there are none. -/
theorem log_storePending (c : Controller (Bench φ σ)) (verdict : Verdict) (q : Request) :
    ∃ after, (c.storePending verdict q).log = c.log ++ List.replicate after .called ∧
      (verdict.toStore = none → after = 0) := by
  simp only [storePending]
  split
  · rename_i kind _ payload hstore _
    obtain ⟨-, after, hafter⟩ :=
      (Bench.Worked.upkeep c.loader.device).storePayload (Bench.Worked.refl _) kind payload
    exact ⟨after, hafter, fun hnone => absurd (hstore.symm.trans hnone) (Option.some_ne_none kind)⟩
  · exact ⟨0, (List.append_nil _).symm, fun _ => rfl⟩

variable [SerialLine σ] [LawfulSerialLine σ]
  (hline : ∀ (bytes : List UInt8) (line : σ), (SerialLine.offer bytes line).1 ≠ .failed)

include hline

omit [FlashDevice φ] in
/-- The line gets the whole frame of an answer, and the flash is left alone. -/
theorem tell_sent (c : Controller (Bench φ σ)) (a : Answer) :
    (c.tell a).map Bench.flash = c.map Bench.flash ∧
      ∃ taken : List (List UInt8), taken.flatten = a.toFrame ∧
        (c.tell a).log = c.log ++ taken.map .offered := by
  obtain ⟨hflash, taken, htaken, hevents⟩ := Bench.sendAll_sent hline a.toFrame c.loader.device
  simp only [tell, a.fitting_toFrame]
  refine ⟨?_, taken, htaken, hevents⟩
  show (⟨⟨(sendAll a.toFrame c.loader.device).flash, _, _⟩, _, _⟩ : Controller φ) = _
  rw [hflash]
  rfl

/-- The bench's flash device after a request and its payload, and what was logged until then. -/
theorem carryOut_log (c : Controller (Bench φ σ)) (q : Request) :
    let p := c.map Bench.flash
    (c.carryOut q).map Bench.flash = (p.execute q).2 ∧
      ∃ before after, ∃ taken : List (List UInt8),
        (c.carryOut q).log = c.log ++ (List.replicate before .called ++ taken.map .offered
          ++ List.replicate after .called) ∧
        taken.flatten = (p.execute q).1.toFrame ∧
        (q.payload? ≠ none → before = 0) ∧ ((p.respond q).1.toStore = none → after = 0) := by
  intro p
  have hrespond : p.respond q = ((c.respond q).1, (c.respond q).2.map Bench.flash) :=
    Bench.flash_map.respond c q
  obtain ⟨before, hbefore, hwaits⟩ := c.log_respond q
  obtain ⟨hsame, taken, htaken, hsent⟩ := tell_sent hline (c.respond q).2 (c.respond q).1.answer
  obtain ⟨after, hafter, hstored⟩ :=
    ((c.respond q).2.tell (c.respond q).1.answer).log_storePending (c.respond q).1 q
  have hout : c.carryOut q
      = ((c.respond q).2.tell (c.respond q).1.answer).storePending (c.respond q).1 q := rfl
  have hexecute : (p.execute q).2 = (p.respond q).2.storePending (p.respond q).1 q := rfl
  refine ⟨?_, before, after, taken, ?_, ?_, hwaits, ?_⟩
  · rw [hout, ← Bench.flash_map.storePending, hsame, hexecute, hrespond]
  · rw [hout, hafter, hsent, hbefore]
    simp only [List.append_assoc]
  · show _ = (p.respond q).1.answer.toFrame
    rw [htaken, hrespond]
  · rw [hrespond]
    exact hstored

/-- A turn without a reboot. -/
theorem turn_log {found : Option Request} (hne : found ≠ some .reboot)
    (c : Controller (Bench φ σ)) :
    let p := c.map Bench.flash
    (c.turn found).1 = true ∧ (c.turn found).2.map Bench.flash = (p.attend found).2 ∧
      ∃ events, (c.turn found).2.log = c.log ++ events ∧ TurnLog p found events := by
  intro p
  cases found with
  | none =>
      have hidle : p.idle = (c.idle.1, c.idle.2.map Bench.flash) := Bench.flash_map.idle c
      obtain ⟨-, calls, hcalls⟩ :=
        (Bench.Worked.upkeep c.loader.device).idle (Bench.Worked.refl _)
      refine ⟨rfl, congrArg Prod.snd hidle.symm, _, ?_, .idle calls⟩
      rw [hidle, ← List.append_assoc]
      exact congrArg (· ++ _) hcalls
  | some q =>
      have hgoesOn : q ≠ .reboot := fun h => hne (congrArg some h)
      have hturn : c.turn (some q) = (true, (c.carryOut q).showActive) := by
        cases q with
        | reboot => exact absurd rfl hgoesOn
        | _ => rfl
      obtain ⟨hmap, before, after, taken, hlog, htaken, hwaits, hstored⟩ :=
        carryOut_log hline c q
      rw [hturn]
      refine ⟨rfl, hmap, _, ?_, .request hgoesOn htaken hwaits hstored⟩
      rw [← hmap, ← List.append_assoc]
      exact congrArg (· ++ _) hlog

/-! ## Runs on a bench -/

/-- Everything that was found is served in turns, up to a reboot. -/
theorem serve_log (c : Controller (Bench φ σ)) (found : List (Option Request)) :
    let p := c.map Bench.flash
    let out := c.serve found
    out.1 = (if some .reboot ∈ found then .rebooted else .lineSilent) ∧
      out.2.map Bench.flash = (p.attendAll (found.takeWhile (· ≠ some .reboot))).2 ∧
      ∃ events, out.2.log = c.log ++ events ∧ ServiceLog p found events := by
  induction found generalizing c with
  | nil => exact ⟨rfl, rfl, [], (List.append_nil _).symm, .nil _⟩
  | cons request rest ih =>
      intro p out
      by_cases hreboot : request = some .reboot
      · subst hreboot
        obtain ⟨hsame, taken, htaken, hsent⟩ := tell_sent hline c (.ack .ok)
        refine ⟨by simp [out, serve, turn], ?_, _, hsent, .reboot (.reboot htaken)⟩
        simpa [out, serve, turn, attendAll] using hsame
      · obtain ⟨hgoesOn, hmap, first, hfirst, hturn⟩ := turn_log hline hreboot c
        obtain ⟨hend, hlater, later, hevents, hlog⟩ := ih (c.turn request).2
        have hout : out = (c.turn request).2.serve rest := by
          simp only [out, serve, hgoesOn, if_true]
        rw [hmap] at hlater hlog
        refine ⟨?_, ?_, first ++ later, ?_, .turn hreboot hturn hlog⟩
        · rw [hout, hend]
          simp [Ne.symm hreboot]
        · rw [hout, hlater]
          simp [hreboot, attendAll, p]
        · rw [hout, hevents, hfirst, List.append_assoc]

/-- The loop serves exactly the controller of the flash device: wherever it has got to after some
    looks, and so also at its end, the device and all that is known about the job are as if the
    requests had been executed on the device alone, up to the first reboot.  The line got the frames
    of the answers, one for each request in its order, and every turn kept to the order of
    `TurnLog`. -/
theorem mainLoop_serves [Platform] (c : Controller (Bench φ σ)) (r : Receiver)
    (reads : List LineRead) (n : Nat) :
    let looked := r.looks n reads
    let found := looked.1
    let p := c.map Bench.flash
    let out := c.serve found
    mainLoop reads r c
        = (if out.1 = .rebooted then out else mainLoop looked.2.2 looked.2.1 out.2) ∧
      (r.pending reads ≤ n → mainLoop reads r c = out) ∧
      out.1 = (if some .reboot ∈ found then .rebooted else .lineSilent) ∧
      out.2.map Bench.flash = (p.attendAll (found.takeWhile (· ≠ some .reboot))).2 ∧
      ∃ events, out.2.log = c.log ++ events ∧ ServiceLog p found events ∧
        sentIn events = (answersTo p found).flatMap Answer.toFrame := by
  intro looked found p out
  obtain ⟨hend, hmap, events, hevents, hlog⟩ := serve_log hline c found
  exact ⟨mainLoop_after n r reads c, fun h => mainLoop_eq_serve h c, hend, hmap, events, hevents,
    hlog, hlog.sentIn⟩

end OnABench

/-- A line that is busy and takes single bytes at first; a block comes in two packets, and a request
    comes after the reboot. -/
theorem mainLoop_serves_until_reboot :
    let _ : Platform := .board
    let block : Request := .data ⟨.plain, 0, Crc32.checksum [1, 2, 3, 4], [1, 2, 3, 4]⟩
    let reads : List LineRead := [.packet ((Request.start 4 0).toFrame ++ block.toFrame.take 5),
      .nothing, .packet (block.toFrame.drop 5 ++ Request.finish.toFrame),
      .packet (Request.reboot.toFrame ++ Request.query.toFrame)]
    let bench : Bench (Simulator 4096) PacedLine :=
      ⟨{}, ⟨[some 0, none, some 1, none, none, some 0]⟩, []⟩
    let out := mainLoop reads {} (powerOn bench)
    (∀ (bytes : List UInt8) (line : PacedLine), (SerialLine.offer bytes line).1 ≠ .failed) ∧
      out.1 = .rebooted ∧
      sentIn out.2.log = (List.replicate 4 (Answer.ack .ok)).flatMap Answer.toFrame := by
  intro board block reads bench out
  obtain ⟨-, hloop, hend, -, events, hevents, -, hsent⟩ :=
    mainLoop_serves PacedLine.offer_ne_failed (powerOn bench) {} reads 60
  have hout : out = _ := hloop (by decide +kernel)
  refine ⟨PacedLine.offer_ne_failed, ?_, ?_⟩
  · rw [hout, hend]
    exact if_pos (by decide +kernel)
  · rw [hout, hevents]
    refine hsent.trans (congrArg (List.flatMap Answer.toFrame) ?_)
    decide +kernel

end Controller
end NorLoader
