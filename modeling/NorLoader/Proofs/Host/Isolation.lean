import NorLoader.Proofs.Deflate.Repeating
import NorLoader.Proofs.Host.Run
import NorLoader.Proofs.Image.Lockstep
import NorLoader.Proofs.Image.SplitIndependence

/-!
# What one session leaves for the next

On a device without faults a request that opens a job sets everything anew but the window, which
keeps the end of what was unpacked before.  Two controllers that agree on it go on in step from
there, whatever came before (`Alike.run`).  If they do not, there is a stream that tells them
apart, since it has the window written to the flash (`programsIn_revealing`).  So the window is
all that a session leaves for a later one, and it does leave it.
-/

namespace NorLoader

namespace Controller

variable {capacity : Nat}

/-- The programs that a run adds to the log. -/
def programsIn (c : Controller (Simulator capacity)) (es : List Event) : List DeviceCall :=
  ((c.run es).loader.device.callsSince c.loader.device.calls.size).filter DeviceCall.isProgram

/-! ## In step -/

/-- Two controllers that differ at most in their flash and in what is still to be erased. -/
structure Alike (n n' : Nat) (c c' : Controller (Simulator capacity)) : Prop where
  taken : c'.taken = c.taken
  route : c'.route = c.route
  unpacker : c'.loader.unpacker = c.loader.unpacker
  jobs : Job.Alike (Simulator.Agree n n') c.loader.job c'.loader.job c.loader.device
    c'.loader.device

/-- Two jobs that are opened now are alike, whatever there was before them, if the windows are the
    same. -/
theorem alike_opening {n n' : Nat} {c c' : Controller (Simulator capacity)}
    (hagree : Simulator.Agree n n' c.loader.device c'.loader.device)
    (hwindow : c'.loader.unpacker.window = c.loader.unpacker.window) {r : Request}
    {span : UInt32 × UInt32} (hr : r.span? = some span) :
    (c'.execute r).1 = (c.execute r).1 ∧
      Alike n n' (c.after (.request r)) (c'.after (.request r)) := by
  have hfaults : c'.loader.device.faults = c.loader.device.faults :=
    congrArg Simulator.Conduct.faults hagree.conduct
  constructor
  · rw [answer_opening c hr, answer_opening c' hr, hfaults]
  · have hopens := c.after_opening hr
    have hopens' := c'.after_opening hr
    have hconduct := hopens'.conduct.trans (hagree.conduct.trans hopens.conduct.symm)
    have hdevices := hagree.extend hconduct hopens.calls hopens'.calls rfl
    have hunpacker : (c'.after (.request r)).loader.unpacker
        = (c.after (.request r)).loader.unpacker := by
      rw [hopens.unpacker, hopens'.unpacker, Unpacker.restart, hwindow]
      rfl
    obtain ⟨hjob, hroute⟩ := hopens.job_eq
    obtain ⟨hjob', hroute'⟩ := hopens'.job_eq
    rw [hfaults] at hjob' hroute'
    refine ⟨hopens'.taken.trans hopens.taken.symm, hroute'.trans hroute.symm, hunpacker, ?_,
      hdevices⟩
    rw [hjob, hjob']

namespace Alike

variable {n n' : Nat} {c c' : Controller (Simulator capacity)}

/-- A block gets the same verdict. -/
theorem receive (h : Alike n n' c c') (b : DataBlock) : (c'.receive b).1 = (c.receive b).1 := by
  have hjob := h.jobs.job
  have hactive : c'.loader.job.active = c.loader.job.active := by rw [hjob]
  have herror : c'.loader.job.error = c.loader.job.error := by rw [hjob]
  simp only [Controller.receive, hactive, herror, h.taken, h.route]
  split
  · rfl
  · split
    · rfl
    · split
      · rfl
      · split <;> rfl

/-- A block that both take is stored by both. -/
theorem storePayload (h : Alike n n' c c') (kind : BlockKind) (payload : List UInt8) :
    Alike n n' (c.storePayload kind payload) (c'.storePayload kind payload) := by
  have hpaired := @Simulator.agree_paired capacity n n'
  cases kind with
  | plain => exact ⟨h.taken, h.route, h.unpacker, h.jobs.write hpaired .plain payload⟩
  | encrypted => exact ⟨h.taken, h.route, h.unpacker, h.jobs.write hpaired .encrypted payload⟩
  | deflated =>
      obtain ⟨hunpacker, hjobs⟩ := h.jobs.unpack hpaired c.loader.unpacker payload
      have hloader : c'.loader.unpack payload = ⟨_, _, _⟩ := rfl
      rw [h.unpacker] at hloader
      have hstored : c'.storePayload .deflated payload
          = ⟨c'.loader.unpack payload, c'.taken, c'.route⟩ := rfl
      rw [hstored, hloader]
      exact ⟨h.taken, h.route, hunpacker, hjobs⟩

/-- A block is refused by both or taken by both. -/
theorem data (h : Alike n n' c c') (b : DataBlock) :
    c'.answer? (.request (.data b)) = c.answer? (.request (.data b)) ∧
      Alike n n' (c.after (.request (.data b))) (c'.after (.request (.data b))) := by
  have hverdict := h.receive b
  have hanswer : (c'.execute (.data b)).1 = (c.execute (.data b)).1 :=
    congrArg Verdict.answer hverdict
  have htaken : c'.taken? (.request (.data b)) = c.taken? (.request (.data b)) := by
    simp only [taken?, hverdict]
  refine ⟨congrArg some hanswer, ?_⟩
  cases hb : c.taken? (.request (.data b)) with
  | none =>
      have hsame : c.after (.request (.data b)) = c := execute_data_refused hb
      have hsame' : c'.after (.request (.data b)) = c' := execute_data_refused (htaken.trans hb)
      rw [hsame, hsame']
      exact h
  | some block =>
      obtain ⟨route, hroute, hnext⟩ := after_of_taken hb
      obtain ⟨route', hroute', hnext'⟩ := after_of_taken (htaken.trans hb)
      rw [h.route, hroute] at hroute'
      have hboth : Alike n n' { c with taken := c.taken + 1, route := route }
          { c' with taken := c'.taken + 1, route := route' } :=
        ⟨congrArg (· + 1) h.taken, (Option.some.inj hroute').symm, h.unpacker, h.jobs⟩
      rw [hnext, hnext']
      exact hboth.storePayload block.kind block.payload

/-- One event, and what the host is told at it. -/
theorem after (h : Alike n n' c c') (e : Event) :
    c'.answer? e = c.answer? e ∧ Alike n n' (c.after e) (c'.after e) := by
  have hpaired := @Simulator.agree_paired capacity n n'
  have hjob := h.jobs.job
  cases e with
  | switch faults =>
      have hagree := h.jobs.device
      refine ⟨rfl, h.taken, h.route, h.unpacker, hjob, { hagree with conduct := ?_ }⟩
      exact congrArg (Simulator.Conduct.mk faults)
        (congrArg Simulator.Conduct.encrypts hagree.conduct)
  | idle =>
      have hactive : c'.loader.job.active = c.loader.job.active := by rw [hjob]
      refine ⟨rfl, ?_⟩
      rw [after_idle, after_idle, hactive]
      split
      · exact ⟨h.taken, h.route, h.unpacker, h.jobs.eraseAhead hpaired⟩
      · exact h
  | request r =>
      cases hr : r.span? with
      | some span =>
          have hwindow := congrArg Unpacker.window h.unpacker
          obtain ⟨hanswer, hopened⟩ := alike_opening h.jobs.device hwindow hr
          exact ⟨congrArg some hanswer, hopened⟩
      | none =>
          cases r with
          | start => exact nomatch hr
          | startPacked => exact nomatch hr
          | reboot => exact ⟨rfl, h⟩
          | query =>
              refine ⟨?_, h⟩
              show some c'.report = some c.report
              rw [Controller.report, hjob]
              rfl
          | finish =>
              obtain ⟨hresult, hclosed⟩ := h.jobs.finish
              refine ⟨?_, h.taken, h.route, h.unpacker, hclosed⟩
              show some (Answer.ack (.ofResult c'.loader.job.finish.1)) = _
              rw [hresult]
              rfl
          | data b => exact h.data b

/-- Any events get the same answers. -/
theorem run (h : Alike n n' c c') (es : List Event) :
    c'.answers es = c.answers es ∧ Alike n n' (c.run es) (c'.run es) := by
  induction es generalizing c c' with
  | nil => exact ⟨rfl, h⟩
  | cons e es ih =>
      obtain ⟨hanswer, hafter⟩ := h.after e
      obtain ⟨hanswers, hrun⟩ := ih hafter
      exact ⟨List.cons_eq_cons.mpr ⟨hanswer, hanswers⟩, hrun⟩

end Alike

/-! ## The window -/

/-- Only what is unpacked gets into the window. -/
theorem window_run (c : Controller (Simulator capacity)) {es : List Event}
    (hes : ∀ b ∈ c.takenIn es, b.kind ≠ .deflated) :
    (c.run es).loader.unpacker.window = c.loader.unpacker.window := by
  induction es generalizing c with
  | nil => rfl
  | cons e es ih =>
      obtain ⟨hfirst, hrest⟩ := List.forall_mem_append.mp hes
      refine (ih (c.after e) hrest).trans ?_
      cases hopens : e.opens with
      | true =>
          obtain ⟨r, size, offset, rfl, hspan⟩ := e.opens_iff.mp hopens
          rw [(c.after_opening hspan).unpacker]
          rfl
      | false =>
          cases htaken : c.taken? e with
          | none =>
              obtain ⟨-, -, hunpacker, -⟩ := after_of_not_taken hopens htaken
              rw [hunpacker]
          | some b =>
              obtain ⟨route, -, hnext⟩ := after_of_taken htaken
              rw [hnext]
              cases hkind : b.kind with
              | plain => rfl
              | encrypted => rfl
              | deflated =>
                  rw [htaken] at hfirst
                  exact absurd hkind (hfirst b (List.mem_singleton_self b))

/-! ## Telling them apart -/

/-- A session for a stream that repeats the window, up to where the stream breaks off. -/
def revealing : List Event :=
  [.request (.startPacked 32768 1282 0),
    .request (.data ⟨.deflated, 0, Crc32.checksum repeating, repeating⟩)]

/-- It has all of the window written to the flash. -/
theorem programsIn_revealing (c : Controller (Simulator capacity))
    (hfaults : c.loader.device.faults = {}) :
    c.programsIn revealing = [.program 0 c.loader.unpacker.window.toList] := by
  have hwindow : c.loader.unpacker.window.toList.length = windowSize := Vector.length_toList
  have hlength : repeating.length = 1282 := by decide +kernel
  let e : StreamEnd :=
    { last := ⟨Expansion.atBlock, [], [],
        c.loader.unpacker.window.toList ++ c.loader.unpacker.window.toList⟩
      extra := 0
      size := 32768
      ends := (Expansion.hungry_atBlock _).next? rfl }
  have houtput : e.output = c.loader.unpacker.window.toList := List.drop_left' hwindow
  have hsteps : fedBytes [.piece repeating] = repeating := List.append_nil _
  obtain ⟨w, hwindowed, hsent, -, hprograms, -⟩ := Loader.closed_unpackAll (e := e) rfl 0 1282
    (by rw [hlength]; decide) hlength.symm c.loader hfaults (repeating_reaches hwindow) hsteps
  have hloader : (c.run revealing).loader
      = (c.loader.startPacked 32768 1282 0).2.unpack repeating :=
    c.loader_after_piece (congrArg FaultSwitches.unlock hfaults) ..
  have hfull : sent w = c.loader.unpacker.window.toList := by
    rw [hsent, houtput]
    exact List.take_of_length_le (Nat.le_of_eq hwindow)
  have hone := windowPrograms_append hwindow 0 []
  rw [List.append_nil] at hone
  rw [programsIn, hloader]
  refine hprograms.trans ?_
  rw [show (0 : UInt32).toNat = 0 from rfl, placements_windowed hwindowed 0 (by
    rw [hfull, hwindow]; decide), hfull, hone]
  rfl

/-- What is told and programmed from the opening of a job on does not depend on what came before,
    the latencies of the device included, exactly if the window does not: then all that follows is
    the same, and else there is a session that shows the difference. -/
theorem later_sessions_agree_iff (d d' : Simulator capacity) (hfaults : d.faults = {})
    (hfaults' : d'.faults = {}) (hunit : d'.encrypts = d.encrypts) (before before' : List Event)
    (hsteady : ∀ e ∈ before, e.switches = false) (hsteady' : ∀ e ∈ before', e.switches = false) :
    let c := (powerOn d).run before
    let c' := (powerOn d').run before'
    (∀ (r : Request) (es : List Event), r.span?.isSome = true →
      c'.answers (.request r :: es) = c.answers (.request r :: es) ∧
        c'.programsIn (.request r :: es) = c.programsIn (.request r :: es)) ↔
      c'.loader.unpacker.window = c.loader.unpacker.window := by
  intro c c'
  have hconduct : c.loader.device.conduct = d.conduct :=
    conduct_run (c := powerOn d) hfaults hsteady
  have hconduct' : c'.loader.device.conduct = d'.conduct :=
    conduct_run (c := powerOn d') hfaults' hsteady'
  have hsame : c'.loader.device.conduct = c.loader.device.conduct := by
    rw [hconduct, hconduct', Simulator.conduct, Simulator.conduct, hfaults, hfaults', hunit]
  constructor
  · intro hall
    obtain ⟨-, hprograms⟩ := hall (.startPacked 32768 1282 0) revealing.tail rfl
    have hshown := c.programsIn_revealing
      ((congrArg Simulator.Conduct.faults hconduct).trans hfaults)
    have hshown' := c'.programsIn_revealing
      ((congrArg Simulator.Conduct.faults hconduct').trans hfaults')
    have hcalls := hshown'.symm.trans (hprograms.trans hshown)
    have hlists : c'.loader.unpacker.window.toList = c.loader.unpacker.window.toList := by
      simpa using hcalls
    exact Vector.toList_inj.mp hlists
  · intro hwindow r es hr
    obtain ⟨span, hspan⟩ := Option.isSome_iff_exists.mp hr
    obtain ⟨hanswer, hopened⟩ := alike_opening (Simulator.Agree.now hsame) hwindow hspan
    obtain ⟨hanswers, hrun⟩ := hopened.run es
    exact ⟨List.cons_eq_cons.mpr ⟨congrArg some hanswer, hanswers⟩, hrun.jobs.device.programs⟩

/-- A session with nothing before it, and one after a session that took its time and was given
    up. -/
theorem later_sessions_agree_after_image :
    let d : Simulator 8192 := {}
    let d' : Simulator 8192 := { eraseTime := 3, programTime := 2 }
    let block : DataBlock := ⟨.plain, 0, Crc32.checksum [1, 2, 3], [1, 2, 3]⟩
    let c := (powerOn d).run []
    let c' := (powerOn d').run [.request (.start 5 4094), .idle, .request (.data block), .idle]
    ∀ (r : Request) (es : List Event), r.span?.isSome = true →
      c'.answers (.request r :: es) = c.answers (.request r :: es) ∧
        c'.programsIn (.request r :: es) = c.programsIn (.request r :: es) := by
  intro d d' block c c'
  have hwindow : c'.loader.unpacker.window = c.loader.unpacker.window :=
    window_run (powerOn d') (by decide +kernel)
  exact (later_sessions_agree_iff d d' rfl rfl rfl [] _ nofun (by decide)).mpr hwindow

/-- A stream that reaches back before its start: after a session for the bytes `abc` it is taken for
    a stream of these bytes, and with nothing before it is rejected. -/
theorem later_session_shows_earlier :
    let stream : List UInt8 := [0x78, 0x9C, 0x4B, 0x4C, 0x4A, 0x06, 0x00, 0x02, 0x4D, 0x01, 0x27]
    let back : List UInt8 := [0x78, 0x9C, 0x03, 0xDE, 0xFF, 0x0F, 0x00, 0x02, 0x4D, 0x01, 0x27]
    let session (offset : UInt32) (piece : List UInt8) : List Event :=
      [.request (.startPacked 3 11 offset),
        .request (.data ⟨.deflated, 0, Crc32.checksum piece, piece⟩), .request .finish]
    let c : Controller (Simulator 65536) := powerOn {}
    let c' := c.run (session 0 stream)
    c.answers (session 8192 back)
        = [some (.ack .ok), some (.ack .ok), some (.ack (.failed .corruptStream))] ∧
      c'.answers (session 8192 back)
        = [some (.ack .ok), some (.ack .ok), some (.ack .ok)] ∧
      c.programsIn (session 8192 back) = [.program 8192 [0, 0, 0]] ∧
      c'.programsIn (session 8192 back) = [.program 8192 [97, 98, 99]] := by
  decide +kernel

end Controller
end NorLoader
