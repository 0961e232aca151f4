import NorLoader.Proofs.Spi.ChipAgreement
import NorLoader.Spi.SerialFifos

/-!
# A transaction through the FIFOs

`Ssi.exchange` looks at the status and then writes or reads, and the shifter may move in between.  What
is shown stays true under the moves: room in the transmit FIFO is not lost by them and neither is a byte
in the receive FIFO (`Passage`).  The invariant of the loop, `Underway`, ties the two counters to the
port: what still has to be received is what still has to be sent and what is under way.  So the loop's
own bound on the difference of its counters is a bound on what the receive FIFO can get.

Every step keeps the invariant (`Underway.step`), hence every run does (`Underway.stepUpTo`), and with a
shifter that moves at all every step brings the transaction nearer to its end (`effort_step`).
-/

namespace NorLoader

open Ssi

namespace FifoPort

/-- The bytes that were written and have not been clocked out, the oldest first. -/
def outgoing (p : FifoPort) : List UInt8 := p.shifting.toList ++ p.sending

theorem underWay_eq (p : FifoPort) : p.underWay = p.outgoing.length + p.arrived.length := by
  rw [underWay, outgoing, List.length_append, Nat.add_comm p.sending.length]

theorem atRest_iff (p : FifoPort) : p.AtRest ↔ p.outgoing = [] ∧ p.arrived = [] := by
  rw [AtRest, outgoing, List.append_eq_nil_iff, Option.toList_eq_nil_iff]
  constructor
  · rintro ⟨hsending, hshifting, harrived⟩
    exact ⟨⟨hshifting, hsending⟩, harrived⟩
  · rintro ⟨⟨hshifting, hsending⟩, harrived⟩
    exact ⟨hsending, hshifting, harrived⟩

/-- The events of some shifts, each given by the byte sent and the byte that came. -/
def shiftEvents (shifts : List (UInt8 × UInt8)) : List PortEvent :=
  shifts.map fun s => .shift s.1 s.2

/-! ## The shifter on its own -/

/-- Some shifts went by and nothing else: no byte was lost, and none was written or read. -/
structure Passage (p : FifoPort) (shifts : List (UInt8 × UInt8)) (q : FifoPort) : Prop where
  log : q.log = p.log ++ shiftEvents shifts
  outgoing : shifts.map Prod.fst ++ q.outgoing = p.outgoing
  arrived : q.arrived = p.arrived ++ shifts.map Prod.snd
  room : q.sending.length ≤ p.sending.length
  faults : q.faults = p.faults
  control : q.control = p.control
  most : q.mostUnderWay = p.mostUnderWay
  script : q.script = p.script

namespace Passage

variable {p q r : FifoPort} {shifts later : List (UInt8 × UInt8)}

/-- Nothing has to pass. -/
theorem refl (p : FifoPort) : Passage p [] p where
  log := (List.append_nil _).symm
  outgoing := rfl
  arrived := (List.append_nil _).symm
  room := Nat.le_refl _
  faults := rfl
  control := rfl
  most := rfl
  script := rfl

/-- What passes in one part of a transfer passes before what does in the next. -/
theorem trans (h : Passage p shifts q) (h' : Passage q later r) : Passage p (shifts ++ later) r where
  log := by rw [h'.log, h.log, List.append_assoc, shiftEvents, shiftEvents, shiftEvents, List.map_append]
  outgoing := by rw [List.map_append, List.append_assoc, h'.outgoing, h.outgoing]
  arrived := by rw [h'.arrived, h.arrived, List.append_assoc, List.map_append]
  room := Nat.le_trans h'.room h.room
  faults := h'.faults.trans h.faults
  control := h'.control.trans h.control
  most := h'.most.trans h.most
  script := h'.script.trans h.script

/-- A byte that is shifted out leaves one that has arrived in its place. -/
theorem underWay (h : Passage p shifts q) : q.underWay = p.underWay := by
  have hout := congrArg List.length h.outgoing
  rw [List.length_append, List.length_map] at hout
  rw [underWay_eq, underWay_eq, h.arrived, List.length_append, List.length_map]
  omega

theorem atRest (h : Passage p shifts q) (hrest : p.AtRest) : shifts = [] ∧ q.AtRest := by
  obtain ⟨hout, harrived⟩ := (atRest_iff p).mp hrest
  have hnone := h.outgoing.trans hout
  obtain ⟨hshifts, hq⟩ := List.append_eq_nil_iff.mp hnone
  obtain rfl := List.map_eq_nil_iff.mp hshifts
  refine ⟨rfl, (atRest_iff q).mpr ⟨hq, ?_⟩⟩
  rw [h.arrived, harrived]
  rfl

end Passage

/-- As long as no more is under way than the receive FIFO holds, a move loses nothing. -/
theorem passage_move {p : FifoPort} (hfew : p.underWay ≤ receiveDepth) :
    ∃ shifts, Passage p shifts p.move := by
  obtain ⟨script, sending, shifting, arrived, control, log, faults, most, accesses⟩ := p
  cases shifting with
  | some byte =>
      have hroom : arrived.length < receiveDepth := by
        simp only [underWay, Option.toList_some, List.length_singleton] at hfew
        omega
      refine ⟨[(byte, script.answer log byte)], ?_⟩
      simp only [move, hroom, if_true]
      exact ⟨rfl, rfl, rfl, Nat.le_refl _, rfl, rfl, rfl, rfl⟩
  | none =>
      cases sending with
      | nil => exact ⟨[], Passage.refl _⟩
      | cons byte rest =>
          exact ⟨[], (List.append_nil _).symm, rfl, (List.append_nil _).symm, Nat.le_succ _, rfl, rfl, rfl,
            rfl⟩

theorem passage_movesUpTo (n : Nat) {p : FifoPort} (hfew : p.underWay ≤ receiveDepth) :
    ∃ shifts, Passage p shifts (movesUpTo n p) := by
  induction n generalizing p with
  | zero => exact ⟨[], Passage.refl p⟩
  | succ n ih =>
      obtain ⟨shifts, hmove⟩ := passage_move hfew
      obtain ⟨later, hlater⟩ := ih (Nat.le_trans (Nat.le_of_eq hmove.underWay) hfew)
      exact ⟨shifts ++ later, hmove.trans hlater⟩

theorem passage_access {p : FifoPort} (hfew : p.underWay ≤ receiveDepth) :
    ∃ shifts, Passage p shifts p.access := by
  obtain ⟨shifts, h⟩ := passage_movesUpTo (p.script.moves p.accesses) hfew
  exact ⟨shifts, h.log, h.outgoing, h.arrived, h.room, h.faults, h.control, h.most, h.script⟩

/-! ## What the status shows -/

/-- The status tells whether there is room in the transmit FIFO. -/
theorem status_hasRoom (p : FifoPort) :
    p.status &&& hasRoomBit ≠ 0 ↔ p.sending.length < p.script.sendDepth := by
  rw [status]
  by_cases hroom : p.sending.length < p.script.sendDepth <;> by_cases harrived : p.arrived = [] <;>
    simp only [hroom, harrived, if_true, if_false, iff_true, iff_false] <;> decide

/-- It tells whether there is a byte in the receive FIFO. -/
theorem status_hasByte (p : FifoPort) : p.status &&& hasByteBit ≠ 0 ↔ p.arrived ≠ [] := by
  rw [status]
  by_cases hroom : p.sending.length < p.script.sendDepth <;> by_cases harrived : p.arrived = [] <;>
    simp only [hroom, harrived, if_true, if_false, ne_eq, not_true, not_false_iff, iff_true, iff_false]
      <;> decide

/-! ## The loop -/

/-- Where a transaction stands that was started on `p` to send `all`: what has been shifted, what the
    port holds and what the loop still has to do make up the whole, in order, and no byte was lost. -/
structure Carried (p : FifoPort) (all : List UInt8) (shifts : List (UInt8 × UInt8))
    (t : Ssi.Transaction FifoPort) : Prop where
  log : t.regs.log = p.log ++ shiftEvents shifts
  sent : shifts.map Prod.fst ++ t.regs.outgoing ++ t.toSend = all
  came : shifts.map Prod.snd = t.received.toList ++ t.regs.arrived
  counted : t.received.size + t.toReceive = all.length
  few : t.regs.underWay ≤ maxUnderWay
  most : t.regs.mostUnderWay ≤ max p.mostUnderWay maxUnderWay
  faults : t.regs.faults = p.faults
  control : t.regs.control = p.control
  script : t.regs.script = p.script

namespace Carried

variable {p : FifoPort} {all : List UInt8} {shifts : List (UInt8 × UInt8)} {t : Ssi.Transaction FifoPort}

/-- The two counters differ by what is under way. -/
theorem balance (h : Carried p all shifts t) : t.toReceive = t.toSend.length + t.regs.underWay := by
  have hsent := congrArg List.length h.sent
  have hcame := congrArg List.length h.came
  have hcounted := h.counted
  rw [List.length_append, List.length_append, List.length_map] at hsent
  rw [List.length_append, List.length_map, t.received.length_toList] at hcame
  rw [underWay_eq]
  omega

/-- With so few bytes under way all of them have room. -/
theorem fits (h : Carried p all shifts t) : t.regs.underWay ≤ receiveDepth :=
  Nat.le_trans h.few (by decide)

theorem start (hrest : p.AtRest) (all : List UInt8) :
    Carried p all [] ⟨p, all, all.length, #[]⟩ := by
  obtain ⟨hout, harrived⟩ := (atRest_iff p).mp hrest
  refine ⟨(List.append_nil _).symm, ?_, ?_, Nat.zero_add _, ?_, Nat.le_max_left _ _, rfl, rfl, rfl⟩
  · rw [hout]
    rfl
  · rw [harrived]
    rfl
  · rw [underWay_eq, hout, harrived]
    exact Nat.zero_le _

/-- Time goes by, and the loop does nothing. -/
theorem passage (h : Carried p all shifts t) {later : List (UInt8 × UInt8)} {q : FifoPort}
    (hq : Passage t.regs later q) : Carried p all (shifts ++ later) { t with regs := q } where
  log := by rw [hq.log, h.log, List.append_assoc, shiftEvents, shiftEvents, shiftEvents, List.map_append]
  sent := by rw [List.map_append, List.append_assoc _ _ q.outgoing, hq.outgoing, h.sent]
  came := by rw [List.map_append, h.came, hq.arrived, List.append_assoc]
  counted := h.counted
  few := Nat.le_trans (Nat.le_of_eq hq.underWay) h.few
  most := Nat.le_trans (Nat.le_of_eq hq.most) h.most
  faults := hq.faults.trans h.faults
  control := hq.control.trans h.control
  script := hq.script.trans h.script

/-- The next byte is written into a FIFO with room, with not too much under way. -/
theorem put {b : UInt8} {rest : List UInt8} {regs : FifoPort} {toReceive : Nat} {received : Array UInt8}
    (h : Carried p all shifts ⟨regs, b :: rest, toReceive, received⟩)
    (hroom : regs.sending.length < regs.script.sendDepth) (hfew : regs.underWay < maxUnderWay) :
    Carried p all shifts ⟨regs.put b, rest, toReceive, received⟩ := by
  have hput : regs.put b = { regs with
      sending := regs.sending ++ [b]
      mostUnderWay := max regs.mostUnderWay (regs.underWay + 1) } := by
    rw [FifoPort.put, if_pos hroom]
  have hout : (regs.put b).outgoing = regs.outgoing ++ [b] := by
    rw [hput, outgoing, outgoing, List.append_assoc]
  have harrived : (regs.put b).arrived = regs.arrived := by rw [hput]
  have hunderWay : (regs.put b).underWay = regs.underWay + 1 := by
    rw [underWay_eq, underWay_eq, hout, harrived, List.length_append, List.length_singleton]
    omega
  refine ⟨?_, ?_, ?_, h.counted, ?_, ?_, ?_, ?_, ?_⟩
  · rw [hput]
    exact h.log
  · rw [hout, ← h.sent]
    simp only [List.append_assoc, List.cons_append, List.nil_append]
  · rw [harrived]
    exact h.came
  · rw [hunderWay]
    exact hfew
  · rw [hput]
    exact Nat.max_le.mpr ⟨h.most, Nat.le_trans hfew (Nat.le_max_right _ _)⟩
  · rw [hput]
    exact h.faults
  · rw [hput]
    exact h.control
  · rw [hput]
    exact h.script

/-- The oldest byte is read from a FIFO that is not empty. -/
theorem take {regs : FifoPort} {toSend : List UInt8} {toReceive : Nat} {received : Array UInt8}
    (h : Carried p all shifts ⟨regs, toSend, toReceive, received⟩) (harrived : regs.arrived ≠ [])
    (htoReceive : 0 < toReceive) :
    Carried p all shifts ⟨regs.take.2, toSend, toReceive - 1, received.push regs.take.1⟩ := by
  obtain ⟨b, rest, hcons⟩ := List.exists_cons_of_ne_nil harrived
  have htake : regs.take = (b, { regs with arrived := rest }) := by
    rw [FifoPort.take, hcons]
  have hunderWay : regs.take.2.underWay + 1 = regs.underWay := by
    rw [htake, underWay_eq, underWay_eq, hcons]
    rfl
  have hfew : regs.underWay ≤ maxUnderWay := h.few
  have hcounted : received.size + toReceive = all.length := h.counted
  refine ⟨?_, ?_, ?_, ?_, ?_, ?_, ?_, ?_, ?_⟩
  · rw [htake]
    exact h.log
  · rw [htake]
    exact h.sent
  · rw [htake, h.came, Array.toList_push, List.append_assoc]
    show _ ++ regs.arrived = _
    rw [hcons]
    rfl
  · show (received.push regs.take.1).size + (toReceive - 1) = all.length
    rw [Array.size_push]
    omega
  · show regs.take.2.underWay ≤ maxUnderWay
    omega
  · rw [htake]
    exact h.most
  · rw [htake]
    exact h.faults
  · rw [htake]
    exact h.control
  · rw [htake]
    exact h.script

/-- What was shown as room is still there when the byte is written. -/
theorem sendIfRoom (h : Carried p all shifts t) {status : UInt32}
    (hshown : status &&& hasRoomBit ≠ 0 → t.regs.sending.length < t.regs.script.sendDepth) :
    ∃ more, Carried p all more (t.sendIfRoom status) ∧
      (t.regs.arrived ≠ [] → (t.sendIfRoom status).regs.arrived ≠ []) := by
  obtain ⟨regs, toSend, toReceive, received⟩ := t
  cases toSend with
  | nil => exact ⟨shifts, h, id⟩
  | cons b rest =>
      by_cases hallowed : status &&& hasRoomBit ≠ 0 ∧ toReceive - (rest.length + 1) < maxUnderWay
      · have hbalance : toReceive = rest.length + 1 + regs.underWay := h.balance
        have hfew : regs.underWay < maxUnderWay := by
          have hdifference := hallowed.2
          omega
        obtain ⟨later, hpassage⟩ := passage_access h.fits
        have hafter := h.passage hpassage
        have hroom : regs.access.sending.length < regs.access.script.sendDepth := by
          rw [hpassage.script]
          exact Nat.lt_of_le_of_lt hpassage.room (hshown hallowed.1)
        have hput := hafter.put hroom (Nat.lt_of_le_of_lt (Nat.le_of_eq hpassage.underWay) hfew)
        refine ⟨shifts ++ later, ?_⟩
        simp only [Ssi.Transaction.sendIfRoom, hallowed, and_self, not_false_iff, ne_eq, if_true]
        refine ⟨hput, ?_⟩
        intro harrived
        show (regs.access.put b).arrived ≠ []
        rw [FifoPort.put, if_pos hroom]
        show regs.access.arrived ≠ []
        rw [hpassage.arrived]
        exact List.append_ne_nil_of_left_ne_nil harrived _
      · refine ⟨shifts, ?_⟩
        simp only [Ssi.Transaction.sendIfRoom, hallowed, if_false]
        exact ⟨h, id⟩

/-- What was shown as a byte is still there when it is read. -/
theorem receiveIfAny (h : Carried p all shifts t) {status : UInt32}
    (hshown : status &&& hasByteBit ≠ 0 → t.regs.arrived ≠ []) :
    ∃ more, Carried p all more (t.receiveIfAny status) := by
  obtain ⟨regs, toSend, toReceive, received⟩ := t
  by_cases hallowed : status &&& hasByteBit ≠ 0 ∧ toReceive > 0
  · obtain ⟨later, hpassage⟩ := passage_access h.fits
    have hafter := h.passage hpassage
    have harrived : regs.access.arrived ≠ [] := by
      rw [hpassage.arrived]
      exact List.append_ne_nil_of_left_ne_nil (hshown hallowed.1) _
    refine ⟨shifts ++ later, ?_⟩
    simp only [Ssi.Transaction.receiveIfAny, hallowed, and_self, not_false_iff, ne_eq, if_true]
    exact hafter.take harrived hallowed.2
  · refine ⟨shifts, ?_⟩
    simp only [Ssi.Transaction.receiveIfAny, hallowed, if_false]
    exact h

/-- A turn carries the transfer on. -/
theorem step (h : Carried p all shifts t) : ∃ more, Carried p all more t.step := by
  obtain ⟨regs, toSend, toReceive, received⟩ := t
  obtain ⟨later, hpassage⟩ := passage_access h.fits
  have hlooked := h.passage hpassage
  obtain ⟨more, hsent, hkept⟩ := hlooked.sendIfRoom (status_hasRoom regs.access).mp
  exact hsent.receiveIfAny fun hshown => hkept ((status_hasByte regs.access).mp hshown)

/-- So do any number of turns. -/
theorem stepUpTo (n : Nat) (h : Carried p all shifts t) :
    ∃ more, Carried p all more (Ssi.Transaction.stepUpTo n t) := by
  induction n generalizing shifts t with
  | zero => exact ⟨shifts, h⟩
  | succ n ih =>
      cases hcomplete : t.isComplete with
      | true =>
          refine ⟨shifts, ?_⟩
          rw [Ssi.Transaction.stepUpTo, if_pos hcomplete]
          exact h
      | false =>
          obtain ⟨more, hstep⟩ := h.step
          rw [Ssi.Transaction.stepUpTo, hcomplete]
          exact ih hstep

/-- Once the loop has nothing left to do, all has been shifted and the port holds nothing. -/
theorem complete (h : Carried p all shifts t) (hcomplete : t.isComplete = true) :
    shifts.map Prod.fst = all ∧ shifts.map Prod.snd = t.received.toList ∧ t.regs.AtRest := by
  obtain ⟨htoSend, htoReceive⟩ := Bool.and_eq_true_iff.mp hcomplete
  have htoSend : t.toSend = [] := List.isEmpty_iff.mp htoSend
  have htoReceive : t.toReceive = 0 := of_decide_eq_true htoReceive
  have hbalance := h.balance
  rw [htoReceive, htoSend, underWay_eq, List.length_nil] at hbalance
  have hout : t.regs.outgoing = [] := List.length_eq_zero_iff.mp (by omega)
  have harrived : t.regs.arrived = [] := List.length_eq_zero_iff.mp (by omega)
  have hsent := h.sent
  have hcame := h.came
  rw [hout, htoSend, List.append_nil, List.append_nil] at hsent
  rw [harrived, List.append_nil] at hcame
  exact ⟨hsent, hcame, (atRest_iff t.regs).mpr ⟨hout, harrived⟩⟩

end Carried

/-! ## A shifter that moves -/

/-- How much is still to happen to what the port holds: a byte that waits has two moves and a read
    before it, one in the shifter a move and a read. -/
def load (p : FifoPort) : Nat :=
  3 * p.sending.length + 2 * p.shifting.toList.length + p.arrived.length

/-- What is left of a transaction: a byte that is not yet written has the write before it as well. -/
def effort (t : Ssi.Transaction FifoPort) : Nat := 4 * t.toSend.length + t.regs.load

/-- A move makes the load less if there is something to move. -/
theorem load_move (p : FifoPort) :
    p.move.load ≤ p.load ∧ (p.outgoing ≠ [] → p.move.load < p.load) := by
  cases hshifting : p.shifting with
  | some byte =>
      have hlower : p.move.load < p.load := by
        by_cases hroom : p.arrived.length < receiveDepth
        · simp only [move, hshifting, hroom, if_true, load, Option.toList_none, Option.toList_some,
            List.length_nil, List.length_append, List.length_singleton]
          omega
        · simp only [move, hshifting, hroom, if_false, load, Option.toList_none, Option.toList_some,
            List.length_nil, List.length_singleton]
          omega
      exact ⟨Nat.le_of_lt hlower, fun _ => hlower⟩
  | none =>
      cases hsending : p.sending with
      | nil =>
          have hmove : p.move = p := by simp only [move, hshifting, hsending]
          have hout : p.outgoing = [] := by rw [outgoing, hshifting, hsending]; rfl
          rw [hmove]
          exact ⟨Nat.le_refl _, fun hne => absurd hout hne⟩
      | cons byte rest =>
          have hlower : p.move.load < p.load := by
            simp only [move, hshifting, hsending, load, Option.toList_none, Option.toList_some,
              List.length_nil, List.length_cons]
            omega
          exact ⟨Nat.le_of_lt hlower, fun _ => hlower⟩

theorem load_movesUpTo (n : Nat) (p : FifoPort) : (movesUpTo n p).load ≤ p.load := by
  induction n generalizing p with
  | zero => exact Nat.le_refl _
  | succ n ih => exact Nat.le_trans (ih p.move) (load_move p).1

theorem load_access (p : FifoPort) : p.access.load ≤ p.load := load_movesUpTo _ p

theorem load_access_lt {p : FifoPort} (hmoves : 0 < p.script.moves p.accesses) (hout : p.outgoing ≠ []) :
    p.access.load < p.load := by
  obtain ⟨n, hn⟩ := Nat.exists_eq_succ_of_ne_zero (Nat.ne_of_gt hmoves)
  have haccess : p.access.load = (movesUpTo n p.move).load := by
    show (movesUpTo (p.script.moves p.accesses) p).load = _
    rw [hn]
    rfl
  rw [haccess]
  exact Nat.lt_of_le_of_lt (load_movesUpTo n p.move) ((load_move p).2 hout)

theorem load_put (b : UInt8) (p : FifoPort) : (p.put b).load ≤ p.load + 3 := by
  by_cases hroom : p.sending.length < p.script.sendDepth
  · simp only [put, hroom, if_true, load, List.length_append, List.length_singleton]
    omega
  · simp only [put, hroom, if_false, load]
    omega

theorem load_take (p : FifoPort) :
    p.take.2.load ≤ p.load ∧ (p.arrived ≠ [] → p.take.2.load < p.load) := by
  obtain ⟨script, sending, shifting, arrived, control, log, faults, most, accesses⟩ := p
  cases arrived with
  | nil => exact ⟨Nat.le_refl _, fun harrived => absurd rfl harrived⟩
  | cons b rest => exact ⟨Nat.le_succ _, fun _ => Nat.lt_succ_self _⟩

/-- Sending is less effort than it saves. -/
theorem effort_sendIfRoom (status : UInt32) (t : Ssi.Transaction FifoPort) :
    effort (t.sendIfRoom status) ≤ effort t ∧
    (status &&& hasRoomBit ≠ 0 → t.toSend ≠ [] → t.toReceive - t.toSend.length < maxUnderWay →
      effort (t.sendIfRoom status) < effort t) := by
  obtain ⟨regs, toSend, toReceive, received⟩ := t
  cases toSend with
  | nil => exact ⟨Nat.le_refl _, fun _ hleft => absurd rfl hleft⟩
  | cons b rest =>
      by_cases hallowed : status &&& hasRoomBit ≠ 0 ∧ toReceive - (rest.length + 1) < maxUnderWay
      · have hlower : effort (Ssi.Transaction.sendIfRoom status ⟨regs, b :: rest, toReceive, received⟩)
            < effort ⟨regs, b :: rest, toReceive, received⟩ := by
          have hput := load_put b regs.access
          have haccess := load_access regs
          simp only [Ssi.Transaction.sendIfRoom, hallowed, and_self, not_false_iff, ne_eq, if_true, effort,
            List.length_cons]
          show 4 * rest.length + (regs.access.put b).load < _
          omega
        exact ⟨Nat.le_of_lt hlower, fun _ _ _ => hlower⟩
      · refine ⟨?_, fun hroom _ hfew => absurd ⟨hroom, hfew⟩ hallowed⟩
        simp only [Ssi.Transaction.sendIfRoom, hallowed, if_false]
        exact Nat.le_refl _

/-- So is receiving. -/
theorem effort_receiveIfAny (status : UInt32) (t : Ssi.Transaction FifoPort) :
    effort (t.receiveIfAny status) ≤ effort t ∧
    (status &&& hasByteBit ≠ 0 → t.toReceive > 0 → t.regs.access.arrived ≠ [] →
      effort (t.receiveIfAny status) < effort t) := by
  obtain ⟨regs, toSend, toReceive, received⟩ := t
  by_cases hallowed : status &&& hasByteBit ≠ 0 ∧ toReceive > 0
  · simp only [Ssi.Transaction.receiveIfAny, hallowed, and_self, not_false_iff, ne_eq, if_true]
    have haccess := load_access regs
    constructor
    · exact Nat.add_le_add_left (Nat.le_trans (load_take regs.access).1 haccess) _
    · intro _ _ harrived
      exact Nat.add_lt_add_left (Nat.lt_of_lt_of_le ((load_take regs.access).2 harrived) haccess) _
  · refine ⟨?_, fun hbyte hleft _ => absurd ⟨hbyte, hleft⟩ hallowed⟩
    simp only [Ssi.Transaction.receiveIfAny, hallowed, if_false]
    exact Nat.le_refl _

theorem toReceive_sendIfRoom (status : UInt32) (t : Ssi.Transaction FifoPort) :
    (t.sendIfRoom status).toReceive = t.toReceive := by
  obtain ⟨regs, toSend, toReceive, received⟩ := t
  cases toSend with
  | nil => rfl
  | cons b rest =>
      simp only [Ssi.Transaction.sendIfRoom]
      split <;> rfl

/-- If a byte waits to be clocked out, the shifter has moved; if one waits to be read, it is read; and
    if none is under way, one is written. -/
theorem effort_step {p : FifoPort} {all : List UInt8} {shifts : List (UInt8 × UInt8)}
    {t : Ssi.Transaction FifoPort} (h : Carried p all shifts t) (hmoves : ∀ k, 0 < p.script.moves k)
    (hdepth : 0 < p.script.sendDepth) (hleft : t.isComplete = false) : effort t.step < effort t := by
  obtain ⟨regs, toSend, toReceive, received⟩ := t
  obtain ⟨later, hpassage⟩ := passage_access h.fits
  let looked : Ssi.Transaction FifoPort := ⟨regs.access, toSend, toReceive, received⟩
  let status := regs.access.status
  have hlooked : Carried p all (shifts ++ later) looked := h.passage hpassage
  obtain ⟨hsendLe, hsendLt⟩ := effort_sendIfRoom status looked
  obtain ⟨hreceiveLe, hreceiveLt⟩ := effort_receiveIfAny status (looked.sendIfRoom status)
  have haccess : effort looked ≤ effort ⟨regs, toSend, toReceive, received⟩ :=
    Nat.add_le_add_left (load_access regs) _
  show effort ((looked.sendIfRoom status).receiveIfAny status) < _
  by_cases hout : regs.outgoing = []
  · have hnothing := hpassage.outgoing.trans hout
    have hbalance : toReceive = toSend.length + regs.access.underWay := hlooked.balance
    have hlookedOut : regs.access.outgoing = [] := (List.append_eq_nil_iff.mp hnothing).2
    rw [underWay_eq, hlookedOut, List.length_nil] at hbalance
    by_cases harrived : regs.access.arrived = []
    · rw [harrived, List.length_nil] at hbalance
      have htoSend : toSend ≠ [] := by
        rintro rfl
        rw [List.length_nil] at hbalance
        rw [Ssi.Transaction.isComplete, hbalance] at hleft
        exact nomatch hleft
      have hsending : regs.access.sending = [] := (List.append_eq_nil_iff.mp hlookedOut).2
      have hroom : status &&& hasRoomBit ≠ 0 := by
        refine (status_hasRoom regs.access).mpr ?_
        rw [hsending, hlooked.script]
        exact hdepth
      have hfew : toReceive - toSend.length < maxUnderWay := by
        rw [hbalance, Nat.add_zero, Nat.sub_self]
        decide
      have hlower := hsendLt hroom htoSend hfew
      omega
    · have hpositive := List.length_pos_iff.mpr harrived
      obtain ⟨more, hsent, hkept⟩ := hlooked.sendIfRoom (status_hasRoom regs.access).mp
      obtain ⟨still, hstill⟩ := passage_access hsent.fits
      have hthere : (looked.sendIfRoom status).regs.access.arrived ≠ [] := by
        rw [hstill.arrived]
        exact List.append_ne_nil_of_left_ne_nil (hkept harrived) _
      have htoReceive : (looked.sendIfRoom status).toReceive > 0 := by
        rw [toReceive_sendIfRoom]
        show toReceive > 0
        omega
      have hlower := hreceiveLt ((status_hasByte regs.access).mpr harrived) htoReceive hthere
      omega
  · have hmoved : regs.access.load < regs.load := by
      refine load_access_lt ?_ hout
      rw [show regs.script = p.script from h.script]
      exact hmoves _
    have hlower : effort looked < effort ⟨regs, toSend, toReceive, received⟩ :=
      Nat.add_lt_add_left hmoved _
    omega

/-- A loop that may look often enough gets through. -/
theorem isComplete_stepUpTo {p : FifoPort} {all : List UInt8} (hmoves : ∀ k, 0 < p.script.moves k)
    (hdepth : 0 < p.script.sendDepth) (n : Nat) {shifts : List (UInt8 × UInt8)}
    {t : Ssi.Transaction FifoPort} (h : Carried p all shifts t) (henough : effort t ≤ n) :
    (Ssi.Transaction.stepUpTo n t).isComplete = true := by
  induction n generalizing shifts t with
  | zero =>
      have hnone : effort t = 0 := Nat.le_zero.mp henough
      have hbalance := h.balance
      rw [effort, load] at hnone
      rw [underWay] at hbalance
      have htoSend : t.toSend = [] := List.length_eq_zero_iff.mp (by omega)
      have htoReceive : t.toReceive = 0 := by omega
      rw [Ssi.Transaction.stepUpTo, Ssi.Transaction.isComplete, htoSend, htoReceive]
      rfl
  | succ n ih =>
      cases hcomplete : t.isComplete with
      | true =>
          rw [Ssi.Transaction.stepUpTo, if_pos hcomplete]
          exact hcomplete
      | false =>
          obtain ⟨more, hstep⟩ := h.step
          have hlower := effort_step h hmoves hdepth hcomplete
          rw [Ssi.Transaction.stepUpTo, hcomplete]
          exact ih hstep (by omega)

/-! ## Chip select -/

theorem withLevel_field (control : UInt32) (level : Level) :
    withLevel control level &&& selectField = level.bits := by
  have hbits : level.bits &&& selectField = level.bits := by cases level <;> rfl
  rw [withLevel, NorChip.or_and_distrib, UInt32.and_assoc, UInt32.not_and_self, UInt32.and_zero, hbits,
    UInt32.zero_or]

theorem withLevel_rest (control : UInt32) (level : Level) :
    withLevel control level &&& ~~~selectField = control &&& ~~~selectField := by
  have hbits : level.bits &&& ~~~selectField = 0 := by cases level <;> rfl
  rw [withLevel, NorChip.or_and_distrib, UInt32.and_assoc, UInt32.and_self, hbits, UInt32.or_zero]

/-- Forcing the pin while nothing is under way is all that happens. -/
theorem forceSelect_atRest {p : FifoPort} (hrest : p.AtRest) (level : Level) :
    let q := forceSelect level p
    q.AtRest ∧ q.log = p.log ++ [.control (withLevel p.control level)] ∧
    q.control = withLevel p.control level ∧ q.mostUnderWay = p.mostUnderWay ∧ q.faults = p.faults ∧
    q.script = p.script := by
  intro q
  have hnone : p.underWay ≤ receiveDepth := by
    obtain ⟨hout, harrived⟩ := (atRest_iff p).mp hrest
    rw [underWay_eq, hout, harrived]
    exact Nat.zero_le _
  obtain ⟨shifts, hpassage⟩ := passage_access hnone
  obtain ⟨rfl, hstill⟩ := hpassage.atRest hrest
  have hlog : p.access.log = p.log := hpassage.log.trans (List.append_nil _)
  refine ⟨hstill, ?_, rfl, hpassage.most, hpassage.faults, hpassage.script⟩
  show p.access.log ++ _ = _
  rw [hlog]
  rfl

/-! ## The transaction -/

/-- A transaction as its loop begins. -/
def opening (bytes : List UInt8) (wanted : Nat) (p : FifoPort) : Ssi.Transaction FifoPort :=
  let total := max bytes.length wanted
  ⟨forceSelect .low p, bytes ++ List.replicate (total - bytes.length) 0, total, #[]⟩

theorem length_opening (bytes : List UInt8) (wanted : Nat) (p : FifoPort) :
    (opening bytes wanted p).toSend.length = max bytes.length wanted := by
  rw [opening, List.length_append, List.length_replicate]
  omega

theorem carried_opening {p : FifoPort} (hrest : p.AtRest) (bytes : List UInt8) (wanted : Nat) :
    Carried (forceSelect .low p) (opening bytes wanted p).toSend [] (opening bytes wanted p) := by
  have hstart := Carried.start (forceSelect_atRest hrest .low).1 (opening bytes wanted p).toSend
  rw [length_opening] at hstart
  exact hstart

/-- What a transaction leaves is what its loop leaves, with the chip released. -/
theorem exchange_eq {p : FifoPort} (hrest : p.AtRest) (bytes : List UInt8) (wanted : Nat) :
    let ended := Ssi.Transaction.stepUpTo (p.script.patience (max bytes.length wanted))
      (opening bytes wanted p)
    exchange bytes wanted p = (ended.received.toList.take wanted, forceSelect .high ended.regs) := by
  obtain ⟨-, -, -, -, -, hscript⟩ := forceSelect_atRest hrest .low
  have hpatience : SsiRegisters.exchangePatience (max bytes.length wanted) (forceSelect .low p)
      = p.script.patience (max bytes.length wanted) :=
    congrArg (fun s : PortScript => s.patience (max bytes.length wanted)) hscript
  simp only [exchange, hpatience]
  rfl

/-- A transaction on a port where nothing is under way.  At every turn of its loop, whatever the
    schedule of the shifter, the counter of bytes to receive is ahead of that of bytes to send by what is
    under way, which is never more than the loop's bound, and no FIFO gets a byte that it has no room
    for.  When the loop is through, chip select was forced low, then all bytes were clocked out and
    zeros after them, then chip select was forced high; the bytes handed on are the first that were
    clocked in, nothing is under way any more, and the rest of the chip select control register is as
    it was.  With a shifter that moves and enough looks at the status the loop does get through. -/
theorem exchange_lossless (p : FifoPort) (hrest : p.AtRest) (bytes : List UInt8) (wanted : Nat) :
    let total := max bytes.length wanted
    let turned := fun n => Ssi.Transaction.stepUpTo n (opening bytes wanted p)
    let ended := turned (p.script.patience total)
    let out := exchange bytes wanted p
    (∀ n, (turned n).toReceive = (turned n).toSend.length + (turned n).regs.underWay ∧
      (turned n).regs.mostUnderWay ≤ max p.mostUnderWay maxUnderWay ∧
      (turned n).regs.faults = p.faults) ∧
    (ended.isComplete = true → ∃ shifts low high,
      out.2.log = p.log ++ [.control low] ++ shiftEvents shifts ++ [.control high] ∧
      shifts.map Prod.fst = bytes ++ List.replicate (total - bytes.length) 0 ∧
      shifts.length = total ∧
      out.1 = (shifts.map Prod.snd).take wanted ∧ out.1.length = wanted ∧
      out.2.AtRest ∧ out.2.faults = p.faults ∧ out.2.control = high ∧
      low &&& selectField = Level.low.bits ∧ low &&& ~~~selectField = p.control &&& ~~~selectField ∧
      high &&& selectField = Level.high.bits ∧
      high &&& ~~~selectField = p.control &&& ~~~selectField) ∧
    ((∀ k, 0 < p.script.moves k) → 0 < p.script.sendDepth → 4 * total ≤ p.script.patience total →
      ended.isComplete = true) := by
  intro total turned ended out
  obtain ⟨hlow, hlowLog, hlowControl, hlowMost, hlowFaults, hlowScript⟩ :=
    forceSelect_atRest hrest .low
  have hstart := carried_opening hrest bytes wanted
  have hlength : (opening bytes wanted p).toSend.length = total := length_opening bytes wanted p
  refine ⟨?_, ?_, ?_⟩
  · intro n
    obtain ⟨shifts, h⟩ := hstart.stepUpTo n
    refine ⟨h.balance, ?_, h.faults.trans hlowFaults⟩
    rw [← hlowMost]
    exact h.most
  · intro hcomplete
    obtain ⟨shifts, h⟩ := hstart.stepUpTo (p.script.patience total)
    obtain ⟨hsent, hcame, hidle⟩ := h.complete hcomplete
    obtain ⟨hhigh, hhighLog, hhighControl, -, hhighFaults, -⟩ := forceSelect_atRest hidle .high
    have hout : out = (ended.received.toList.take wanted, forceSelect .high ended.regs) :=
      exchange_eq hrest bytes wanted
    have hcount : shifts.length = total := by
      rw [← hlength, ← hsent, List.length_map]
    refine ⟨shifts, withLevel p.control .low, withLevel ended.regs.control .high, ?_, hsent, hcount,
      ?_, ?_, ?_, ?_, ?_, withLevel_field _ _, withLevel_rest _ _, withLevel_field _ _, ?_⟩
    · rw [hout, hhighLog, h.log, hlowLog]
    · rw [hout, hcame]
    · rw [hout, ← hcame, List.length_take, List.length_map, hcount]
      exact Nat.min_eq_left (Nat.le_max_right _ _)
    · rw [hout]
      exact hhigh
    · rw [hout, hhighFaults]
      exact h.faults.trans hlowFaults
    · rw [hout]
      exact hhighControl
    · rw [withLevel_rest, h.control, hlowControl, withLevel_rest]
  · intro hmoves hdepth henough
    have hnone : (opening bytes wanted p).regs.load = 0 := by
      obtain ⟨hsending, hshifting, harrived⟩ := hlow
      show (forceSelect .low p).load = 0
      rw [load, hsending, hshifting, harrived]
      rfl
    refine isComplete_stepUpTo (hlowScript ▸ hmoves) (hlowScript ▸ hdepth) _ hstart ?_
    rw [effort, hnone, hlength]
    exact henough

/-- A shifter that stands still until the loop has written as much as it dares, and then is quicker than
    the loop: the bound is reached, and what comes in is handed on in order. -/
theorem exchange_lossless_stalled :
    let p : FifoPort :=
      { script :=
          { answer := fun log _ => UInt8.ofNat log.length
            moves := fun k => if k < 30 then 0 else 3
            patience := fun n => 4 * n + 30 }
        control := 0x12345 }
    let out := exchange [0x0B, 1, 2, 3] 20 p
    p.AtRest ∧ out.2.mostUnderWay = maxUnderWay ∧ out.2.faults = [] ∧ out.2.AtRest ∧
      out.1 = (List.range 20).map (fun i => UInt8.ofNat (i + 1)) ∧
      ∃ shifts low high,
        out.2.log = [PortEvent.control low] ++ shiftEvents shifts ++ [PortEvent.control high] ∧
        shifts.map Prod.fst = [0x0B, 1, 2, 3] ++ List.replicate 16 0 ∧
        low &&& selectField = Level.low.bits ∧ high &&& selectField = Level.high.bits := by
  intro p out
  have hrest : p.AtRest := by decide
  obtain ⟨-, hdone, -⟩ := exchange_lossless p hrest [0x0B, 1, 2, 3] 20
  obtain ⟨shifts, low, high, hlog, hsent, -, -, -, hidle, hfaults, -, hlow, -, hhigh, -⟩ :=
    hdone (by decide +kernel)
  exact ⟨hrest, by decide +kernel, hfaults, hidle, by decide +kernel, shifts, low, high, hlog, hsent, hlow,
    hhigh⟩

end FifoPort
end NorLoader
