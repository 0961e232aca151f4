import NorLoader.Proofs.Host.Framing
import NorLoader.Proofs.Wire.FrameLength

/-!
# What is sent is received

The line carries frames, in packets of any sort.  The frame of a request is a complete frame of the
stream, fits the receiver and holds the request, so the receiver finds the requests that were sent.
-/

namespace NorLoader

/-- The board has room for what it takes. -/
theorem hasRoom_of_le [Platform] {length : Nat} (h : length ≤ maxPayload) :
    Wire.HasRoom (some maxPayload) length := by
  have hwords : 2 ^ 32 ≤ 2 ^ Platform.sizeBits :=
    Nat.pow_le_pow_right (by decide) Platform.words_fit
  refine ⟨Nat.lt_of_le_of_lt h (Nat.lt_of_lt_of_le (by decide) hwords), ?_⟩
  rintro _ ⟨⟩
  exact h

/-- A frame up to its delimiter holds what was put in it. -/
theorem requestIn_stuff [Platform] {q : Request} (h : q.payloadLength ≤ maxPayload) :
    requestIn (Cobs.stuff q.encode) = some q := by
  have hunframed : Cobs.unframe (Cobs.stuff q.encode) = .ok q.encode := by
    rw [← @Cobs.unframe_stuff q.encode [] rfl, List.append_nil]
  rw [requestIn, Request.ofFrame, hunframed]
  exact congrArg Except.toOption (Request.takes_read (hasRoom_of_le h)).run'

namespace Receiver

/-- The stream of some requests has one frame for each. -/
theorem completeFrames_of_requests (qs : List Request) :
    completeFrames (qs.flatMap Request.toFrame) = qs.map fun q => Cobs.stuff q.encode := by
  induction qs with
  | nil => rfl
  | cons q qs ih =>
      rw [List.flatMap_cons, Request.toFrame, Cobs.frame, List.append_assoc]
      rw [List.singleton_append, (frames_of_frame (Cobs.delimiter_not_mem_stuff _) _).1, ih]
      rfl

/-- The board receives the requests that the host sent, whatever packets they come in. -/
theorem received_of_sent [Platform] {qs : List Request}
    (h : ∀ q ∈ qs, q.payloadLength ≤ maxPayload) {reads : List LineRead} (hreads : streamOf reads = qs.flatMap Request.toFrame) :
    received reads = qs := by
  have hfound : ∀ q ∈ qs, requestIn (kept (Cobs.stuff q.encode)) = some q := by
    intro q hq
    have hlength : (Cobs.stuff q.encode).length < q.toFrame.length := by
      simp only [Request.toFrame, Cobs.frame, List.length_append, List.length_singleton]
      exact Nat.lt_succ_self _
    have hfits := Nat.le_trans (Nat.le_of_lt hlength) (Request.length_toFrame_le (h q hq))
    rw [kept_of_fits hfits, requestIn_stuff (h q hq)]
  rw [received_eq, hreads, completeFrames_of_requests, List.filterMap_map]
  exact (List.filterMap_congr hfound).trans List.filterMap_some

end Receiver

/-- Every message comes back from its frame, on any platform: a request where there is no limit for a
    payload but that its length is a size, a request with no more than the board takes where that
    is the limit, and every answer.  The frames are short enough for the board's buffers, and
    requests that are sent one after the other are received as they were sent, whatever packets the
    line makes of them. -/
theorem messages_read_back [Platform] :
    ReadBack Request.toFrame (Request.ofFrame none)
        (fun q => q.payloadLength < 2 ^ Platform.sizeBits) ∧
      ReadBack Request.toFrame (Request.ofFrame (some maxPayload))
        (fun q => q.payloadLength ≤ maxPayload) ∧
      ReadBack Answer.toFrame Answer.ofFrame (fun _ => True) ∧
      (∀ q : Request, q.payloadLength ≤ maxPayload →
        q.toFrame.length ≤ Receiver.frameCapacity) ∧
      (∀ a : Answer, a.toFrame.length ≤ answerCapacity) ∧
      ∀ (qs : List Request) (reads : List LineRead), (∀ q ∈ qs, q.payloadLength ≤ maxPayload) →
        streamOf reads = qs.flatMap Request.toFrame → Receiver.received reads = qs := by
  refine ⟨?_, ?_, ?_, ?_, ?_, ?_⟩
  · exact readBack_of_takes fun q hq => Request.takes_read ⟨hq, nofun⟩
  · exact readBack_of_takes fun q hq => Request.takes_read (hasRoom_of_le hq)
  · exact readBack_of_takes fun a _ => a.takes_read
  · exact fun q hq => Request.length_toFrame_le hq
  · exact fun a => Nat.le_trans a.length_toFrame_le (by decide)
  · exact fun qs reads hqs hreads => Receiver.received_of_sent hqs hreads

/-- Two requests in packets of four bytes.  The payload has zeros at both of its ends. -/
theorem messages_read_back_in_packets :
    let _ : Platform := .board
    let block : DataBlock := ⟨.plain, 0, 0x80, [0, 7, 0]⟩
    let qs : List Request := [.data block, .reboot]
    let reads : List LineRead := [.packet [2, 3, 1, 4], .nothing, .packet [128, 1, 3, 2],
      .packet [7, 1, 0, 2], .packet [5, 0]]
    streamOf reads = qs.flatMap Request.toFrame ∧ Receiver.received reads = qs ∧
      Request.ofFrame none (Request.reboot.toFrame ++ [1, 2, 0]) = .ok .reboot := by
  intro board block qs reads
  obtain ⟨hlarge, -, -, -, -, hreceived⟩ := messages_read_back
  have hblock : (Request.data block).encode = [3, 0, 0, 128, 1, 3, 0, 7, 0] := by
    simp [block, Request.encode, DataBlock.encode, BlockKind.number, Wire.writeWord,
      Wire.writePayload, Varint.encode]
  have hreboot : Request.reboot.encode = [5] := by simp [Request.encode, Varint.encode]
  have hstream : streamOf reads = qs.flatMap Request.toFrame := by
    simp only [qs, List.flatMap_cons, Request.toFrame, hblock, hreboot]
    decide
  refine ⟨hstream, hreceived qs reads (by decide) hstream, ?_⟩
  exact hlarge.read_back .reboot (by decide) [1, 2, 0]

end NorLoader
