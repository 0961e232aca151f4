import NorLoader.Proofs.Wire.PayloadLimit

/-!
# Lengths of different widths

The length of a payload is the only number in a message that is not a word but a size, so it is all that
a board with sizes of 32 bits and a host with sizes of 64 read in different ways.  A reader for numbers
refuses what is longer than its width needs (`Varint.readUpTo_of_lt_span`) or does not fit the width, and
reads everything else as a wider reader does (`Varint.read_narrow`).  So the board may refuse a length
that the host takes, but only one of more than five bytes, or one of a payload that it has no room for.
-/

namespace NorLoader

/-! ## Numbers -/

namespace Varint

/-- How many bytes the number takes up that some bytes begin with, if it ends at all. -/
def span : List UInt8 → Nat
  | [] => 1
  | b :: rest => if b.toNat < 128 then 1 else span rest + 1

/-- A number is read alike with any number of bytes that is enough for it. -/
theorem readUpTo_of_span_le {k k' : Nat} {bytes : List UInt8} (h : span bytes ≤ k)
    (h' : span bytes ≤ k') : readUpTo k bytes = readUpTo k' bytes := by
  induction bytes generalizing k k' with
  | nil =>
      obtain ⟨k, rfl⟩ := Nat.exists_eq_add_of_le' h
      obtain ⟨k', rfl⟩ := Nat.exists_eq_add_of_le' h'
      rfl
  | cons b rest ih =>
      simp only [span] at h h'
      by_cases hlast : b.toNat < 128
      · rw [if_pos hlast] at h h'
        obtain ⟨k, rfl⟩ := Nat.exists_eq_add_of_le' h
        obtain ⟨k', rfl⟩ := Nat.exists_eq_add_of_le' h'
        simp only [readUpTo, if_pos hlast]
      · rw [if_neg hlast] at h h'
        obtain ⟨k, rfl⟩ := Nat.exists_eq_add_of_le' (Nat.le_of_add_left_le h)
        obtain ⟨k', rfl⟩ := Nat.exists_eq_add_of_le' (Nat.le_of_add_left_le h')
        simp only [readUpTo, if_neg hlast, ih (Nat.le_of_succ_le_succ h) (Nat.le_of_succ_le_succ h')]

/-- A number that takes up more bytes than there may be is refused. -/
theorem readUpTo_of_lt_span {k : Nat} {bytes : List UInt8} (h : k < span bytes) :
    readUpTo k bytes = .error .badVarint := by
  induction k generalizing bytes with
  | zero => rfl
  | succ k ih =>
      cases bytes with
      | nil => exact absurd h (Nat.not_lt.mpr (Nat.succ_le_succ (Nat.zero_le k)))
      | cons b rest =>
          by_cases hlast : b.toNat < 128
          · rw [span, if_pos hlast] at h
            omega
          · rw [span, if_neg hlast] at h
            rw [readUpTo, if_neg hlast, ih (Nat.lt_of_succ_lt_succ h)]

/-- Of two readers, the one for fewer bits refuses a number that takes up more bytes than its width
    needs or that does not fit the width.  They agree on all others. -/
theorem read_narrow {narrow wide : Nat} (h : narrow ≤ wide) (bytes : List UInt8) :
    span bytes ≤ (narrow + 6) / 7 ∧ read narrow bytes = read wide bytes ∨
      read narrow bytes = .error .badVarint ∧
        (span bytes ≤ (narrow + 6) / 7 →
          ∀ n rest, read wide bytes = .ok (n, rest) → 2 ^ narrow ≤ n) := by
  by_cases hshort : span bytes ≤ (narrow + 6) / 7
  · have hsame : readUpTo ((narrow + 6) / 7) bytes = readUpTo ((wide + 6) / 7) bytes :=
      readUpTo_of_span_le hshort (hshort.trans (by omega))
    have hpow : 1 <<< narrow ≤ 1 <<< wide := by
      rw [Nat.one_shiftLeft, Nat.one_shiftLeft]
      exact Nat.pow_le_pow_right (by decide) h
    cases hread : readUpTo ((wide + 6) / 7) bytes with
    | error e =>
        refine Or.inl ⟨hshort, ?_⟩
        simp only [read, hsame, hread]
    | ok out =>
        obtain ⟨n, rest⟩ := out
        by_cases hfits : n < 1 <<< narrow
        · refine Or.inl ⟨hshort, ?_⟩
          simp only [read, hsame, hread, if_pos hfits, if_pos (hfits.trans_le hpow)]
        · refine Or.inr ⟨by simp only [read, hsame, hread, if_neg hfits], fun _ => ?_⟩
          intro n' rest' hwide
          simp only [read, hread] at hwide
          by_cases hin : n < 1 <<< wide
          · rw [if_pos hin] at hwide
            cases hwide
            rw [← Nat.one_shiftLeft]
            exact Nat.le_of_not_lt hfits
          · rw [if_neg hin] at hwide
            cases hwide
  · have hlong := readUpTo_of_lt_span (Nat.lt_of_not_le hshort)
    exact Or.inr ⟨by simp only [read, hlong], fun habs => absurd habs hshort⟩

end Varint

/-- What becomes of a result where sizes have fewer bits and `least` is the first number that is not a
    size.  A result of a `short` length stays the same, unless its payload has `least` bytes or more. -/
inductive Narrowed {α : Type} (short : Prop) (least : Nat) (size : α → Nat) :
    Except WireError α → Except WireError α → Prop where
  | same {result} : short → Narrowed short least size result result
  | unsized {result} : (short → ∀ a, result = .ok a → least ≤ size a) →
      Narrowed short least size result (.error .badVarint)

namespace Narrowed

variable {α β : Type} {short : Prop} {least : Nat} {size : α → Nat}
  {wide narrow : Except WireError α}

theorem ok_iff (h : Narrowed short least size wide narrow) {a : α} (hsize : size a < least) :
    narrow = .ok a ↔ wide = .ok a ∧ short := by
  cases h with
  | same hshort => exact ⟨fun heq => ⟨heq, hshort⟩, And.left⟩
  | unsized hleast =>
      refine iff_of_false nofun ?_
      rintro ⟨heq, hshort⟩
      exact absurd hsize (Nat.not_lt.mpr (hleast hshort a heq))

/-- The narrow reader gives the same result, or does not take the length. -/
theorem eq_or_error (h : Narrowed short least size wide narrow) :
    narrow = wide ∨ narrow = .error .badVarint := by
  cases h with
  | same => exact Or.inl rfl
  | unsized => exact Or.inr rfl

theorem map (h : Narrowed short least size wide narrow) {size' : β → Nat} {f : α → β}
    (hsize : ∀ a, size' (f a) = size a) :
    Narrowed short least size' (f <$> wide) (f <$> narrow) := by
  cases h with
  | same hshort => exact .same hshort
  | unsized hleast =>
      refine .unsized fun hshort b hb => ?_
      cases wide with
      | error e => exact nomatch hb
      | ok a =>
          cases hb
          rw [hsize]
          exact hleast hshort a rfl

end Narrowed

/-! ## Payloads -/

theorem Reader.bind_ok {α β : Type} {read : Reader α} {next : α → Reader β}
    {bytes rest : List UInt8} {a : α} (h : read bytes = .ok (a, rest)) :
    (read >>= next) bytes = next a rest := by
  show (read bytes >>= fun out => next out.1 out.2) = _
  rw [h]
  rfl

theorem Reader.bind_error {α β : Type} {read : Reader α} {next : α → Reader β}
    {bytes : List UInt8} {e : WireError} (h : read bytes = .error e) :
    (read >>= next) bytes = .error e := by
  show (read bytes >>= fun out => next out.1 out.2) = _
  rw [h]
  rfl

/-- The most bytes that the number of a size may take up. -/
def Platform.lengthRoom (on : Platform) : Nat := (on.sizeBits + 6) / 7

namespace Wire

/-- As many bytes are read as were asked for. -/
theorem length_of_readBytes {count : Nat} {bytes payload rest : List UInt8}
    (h : readBytes count bytes = .ok (payload, rest)) : payload.length = count := by
  by_cases hle : count ≤ bytes.length
  · rw [readBytes_eq_ok hle] at h
    cases h
    exact List.length_take_of_le hle
  · rw [readBytes_eq_error (Nat.not_le.mp hle)] at h
    cases h

/-- A payload is narrowed by the room that its length has. -/
theorem narrowed_payload {narrow wide : Platform} (h : narrow.sizeBits ≤ wide.sizeBits)
    (bytes : List UInt8) :
    Narrowed (Varint.span bytes ≤ narrow.lengthRoom) (2 ^ narrow.sizeBits) (fun out => out.1.length)
      (@readPayload wide none bytes) (@readPayload narrow none bytes) := by
  show Narrowed _ _ _ (Varint.read wide.sizeBits bytes >>= fun out => readBytes out.1 out.2)
    (Varint.read narrow.sizeBits bytes >>= fun out => readBytes out.1 out.2)
  rcases Varint.read_narrow h bytes with ⟨hshort, hsame⟩ | ⟨hrefused, hleast⟩
  · rw [hsame]
    exact .same hshort
  · rw [hrefused]
    refine .unsized fun hshort a ha => ?_
    cases hwide : Varint.read wide.sizeBits bytes with
    | error e =>
        rw [hwide] at ha
        exact nomatch ha
    | ok out =>
        rw [hwide] at ha
        rw [length_of_readBytes ha]
        exact hleast hshort out.1 out.2 hwide

end Wire

open Wire

/-! ## Requests -/

namespace DataBlock

/-- Reads the fields of a block that come before its payload. -/
def readFields : Reader (BlockKind × UInt32 × UInt32) := do
  let kind ← readVariant BlockKind.ofNumber?
  let seq ← readWord
  let crc ← readWord
  return (kind, seq, crc)

/-- The payload of a block comes last. -/
theorem read_eq [Platform] (limit : Option Nat) :
    read limit = readFields >>= fun fields => readPayload limit >>= fun payload =>
      pure ⟨fields.1, fields.2.1, fields.2.2, payload⟩ := by
  simp only [read, readFields, bind_assoc, pure_bind]

end DataBlock

namespace Request

/-- Reads what stands before the length of the payload in a data request. -/
def readToLength : Reader (BlockKind × UInt32 × UInt32) := do
  if (← readNumber 32) = 3 then DataBlock.readFields else throw .unknownVariant

/-- How many bytes the length of the payload takes up, if some bytes begin with a data request. -/
def lengthBytes (bytes : List UInt8) : Nat :=
  match readToLength bytes with
  | .ok (_, rest) => Varint.span rest
  | .error _ => 0

/-- Of a request nothing but the payload depends on the platform. -/
theorem narrowed_read {narrow wide : Platform} (h : narrow.sizeBits ≤ wide.sizeBits)
    (bytes : List UInt8) :
    Narrowed (lengthBytes bytes ≤ narrow.lengthRoom) (2 ^ narrow.sizeBits)
      (fun out => out.1.payloadLength) (@read wide none bytes) (@read narrow none bytes) := by
  -- nothing that comes before a length depends on the platform, so what has no length does not
  have hbare {e : WireError} (hplace : readToLength bytes = .error e)
      (hsame : @read narrow none bytes = @read wide none bytes) :
      Narrowed (lengthBytes bytes ≤ narrow.lengthRoom) (2 ^ narrow.sizeBits)
        (fun out => out.1.payloadLength) (@read wide none bytes) (@read narrow none bytes) := by
    rw [hsame, lengthBytes, hplace]
    exact .same (Nat.zero_le _)
  cases hnumber : readNumber 32 bytes with
  | error e =>
      refine hbare (Reader.bind_error hnumber) ?_
      exact (Reader.bind_error hnumber).trans (Reader.bind_error hnumber).symm
  | ok out =>
      obtain ⟨number, rest⟩ := out
      by_cases hdata : number = 3
      · subst hdata
        have hplace : readToLength bytes = DataBlock.readFields rest := Reader.bind_ok hnumber
        have hread (on : Platform) : @read on none bytes
            = (fun out => (data out.1, out.2)) <$> DataBlock.read none rest := Reader.bind_ok hnumber
        cases hfields : DataBlock.readFields rest with
        | error e =>
            refine hbare (hplace.trans hfields) ?_
            simp only [hread, DataBlock.read_eq, Reader.bind_error hfields]
        | ok out =>
            obtain ⟨fields, payload⟩ := out
            have hlength : lengthBytes bytes = Varint.span payload := by
              rw [lengthBytes, hplace, hfields]
            have hmade (on : Platform) : @read on none bytes
                = (fun out => (data ⟨fields.1, fields.2.1, fields.2.2, out.1⟩, out.2))
                  <$> readPayload none payload := by
              rw [hread, DataBlock.read_eq, Reader.bind_ok hfields]
              exact (comp_map _ _ _).symm
            rw [hlength, hmade, hmade]
            exact (narrowed_payload h payload).map fun _ => rfl
      · refine hbare (e := .unknownVariant) ?_ ?_
        · refine (Reader.bind_ok hnumber).trans ?_
          rw [if_neg hdata]
          rfl
        · refine (Reader.bind_ok hnumber).trans (Eq.trans ?_ (Reader.bind_ok hnumber).symm)
          split <;> first | rfl | exact absurd rfl hdata

/-- How many bytes the length of the payload takes up in some bytes, or in the frame that they begin
    with. -/
def receivedLengthBytes (framed : Bool) (data : List UInt8) : Nat :=
  match contents framed data with
  | .ok bytes => lengthBytes bytes
  | .error _ => 0

/-- So is what is received. -/
theorem narrowed_received {narrow wide : Platform} (h : narrow.sizeBits ≤ wide.sizeBits)
    (framed : Bool) (data : List UInt8) :
    Narrowed (receivedLengthBytes framed data ≤ narrow.lengthRoom) (2 ^ narrow.sizeBits) payloadLength
      (received wide framed none data) (received narrow framed none data) := by
  rw [received_eq, received_eq, receivedLengthBytes]
  cases contents framed data with
  | error e => exact .same (Nat.zero_le _)
  | ok bytes => exact (narrowed_read h bytes).map fun _ => rfl

/-- From any bytes, framed or not, the board reads what a host reads, if that is a request whose
    payload the board has room for.  With sizes of one width, a request with a longer payload is the
    only one that the host reads alone: the board says then that it is too long.  In every other case
    both fail, and for one reason, unless the payload is too long for the board before it shows to be
    wrong.  With sizes of 32 bits on the board and of 64 on the host, the host alone also reads a
    payload whose length takes up more than five bytes. -/
theorem board_reads_what_host_reads (framed : Bool) (data : List UInt8) :
    (∀ on : Platform,
      let board := received on framed (some maxPayload) data
      let host := received on framed none data
      (∀ q, board = .ok q ↔ host = .ok q ∧ q.payloadLength ≤ maxPayload) ∧
      (∀ q, host = .ok q → maxPayload < q.payloadLength → board = .error .payloadTooLong) ∧
      (∀ e, host = .error e → board = .error e ∨ board = .error .payloadTooLong)) ∧
    let board := received .board framed (some maxPayload) data
    let host := received .host framed none data
    (∀ q, board = .ok q ↔
      host = .ok q ∧ q.payloadLength ≤ maxPayload ∧ receivedLengthBytes framed data ≤ 5) ∧
    (board = host ∨ board = .error .payloadTooLong ∨ board = .error .badVarint) := by
  constructor
  · intro on board host
    have hlimited : Limited maxPayload payloadLength host board :=
      limited_received on framed maxPayload data
    exact ⟨hlimited.ok_iff, fun q => hlimited.eq_tooLong, fun e => hlimited.error_of_error⟩
  · intro board host
    -- a reader of the board's width without a limit stands between the two
    let unlimited := received .board framed none data
    have hlimited : Limited maxPayload payloadLength unlimited board :=
      limited_received .board framed maxPayload data
    have hnarrowed : Narrowed (receivedLengthBytes framed data ≤ 5) (2 ^ 32) payloadLength host
        unlimited := by
      have hwidths : Platform.board.sizeBits ≤ Platform.host.sizeBits := by decide
      exact narrowed_received hwidths framed data
    refine ⟨fun q => ?_, ?_⟩
    · rw [hlimited.ok_iff]
      constructor
      · rintro ⟨hunlimited, hfits⟩
        have hsize : q.payloadLength < 2 ^ 32 := hfits.trans_lt (by decide)
        obtain ⟨hhost, hshort⟩ := (hnarrowed.ok_iff hsize).mp hunlimited
        exact ⟨hhost, hfits, hshort⟩
      · rintro ⟨hhost, hfits, hshort⟩
        have hsize : q.payloadLength < 2 ^ 32 := hfits.trans_lt (by decide)
        exact ⟨(hnarrowed.ok_iff hsize).mpr ⟨hhost, hshort⟩, hfits⟩
    · rcases hlimited.eq_or_tooLong with hsame | hlong
      · rw [hsame]
        exact hnarrowed.eq_or_error.imp_right Or.inr
      · exact Or.inr (Or.inl hlong)

/-- A block whose numbers are longer than they need be, its length of five bytes included, and a frame
    with a payload that is a byte too long for the board. -/
theorem board_reads_what_host_reads_at_limit :
    let stretched : List UInt8 := [0x83, 0x00, 0x01, 0x80, 0x80, 0x00, 0x05,
      0x81, 0x80, 0x80, 0x80, 0x00, 0x2A, 0xFF]
    let long : Request := .data ⟨.plain, 0, 0, List.replicate 1025 0xAA⟩
    received .board false (some maxPayload) stretched = .ok (.data ⟨.deflated, 0, 5, [0x2A]⟩) ∧
      received .board true none long.toFrame = .ok long ∧
      received .board true (some maxPayload) long.toFrame = .error .payloadTooLong := by
  intro stretched long
  have hlength : long.payloadLength = 1025 := List.length_replicate
  have hlong : received .board true none long.toFrame = .ok long := by
    have hroom : @HasRoom .board none long.payloadLength := by
      rw [hlength]
      exact ⟨by decide, nofun⟩
    show Cobs.unframe (Cobs.frame long.encode) >>= @decode .board none = _
    have hframe := Cobs.unframe_frame long.encode []
    rw [List.append_nil] at hframe
    rw [hframe]
    exact (@takes_read .board _ _ hroom).run'
  refine ⟨?_, hlong, ?_⟩
  · obtain ⟨-, hread, -⟩ := board_reads_what_host_reads false stretched
    exact (hread _).mpr ⟨by decide +kernel, by decide, by decide +kernel⟩
  · obtain ⟨hsame, -⟩ := board_reads_what_host_reads true long.toFrame
    refine (hsame .board).2.1 long hlong ?_
    rw [hlength]
    decide

/-- A length of one that takes up six bytes is a size for the host and none for the board. -/
theorem stretched_length_read_by_host_alone :
    let data : List UInt8 := [0x03, 0x00, 0x00, 0x00, 0x81, 0x80, 0x80, 0x80, 0x80, 0x00, 0x2A]
    let payload : List UInt8 := [0x2A]
    payload.length ≤ maxPayload ∧
      received .host false none data = .ok (.data ⟨.plain, 0, 0, payload⟩) ∧
      received .board false (some maxPayload) data = .error .badVarint := by
  decide +kernel

end Request
end NorLoader
