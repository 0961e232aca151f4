import NorLoader.Geometry
import NorLoader.Proofs.Wire.ReadBack

/-!
# Containers of limited size

The board reads a payload into a container of `maxPayload` bytes, a host into one that grows.  What
the limit does to a result is one of four things (`Limited`), and readers that differ in nothing but
the limit keep to them when other readers come before or after (`Limits.bind`, `Limits.map`).  So
with sizes of one width both read the same requests from the same bytes, as long as the container holds
the payload (`Request.limited_received`).
-/

namespace NorLoader

/-- What becomes of a result when its payload goes into a container of `most` bytes. -/
inductive Limited {α : Type} (most : Nat) (size : α → Nat) :
    Except WireError α → Except WireError α → Prop where
  | same {a} : size a ≤ most → Limited most size (.ok a) (.ok a)
  | tooLong {a} : most < size a → Limited most size (.ok a) (.error .payloadTooLong)
  | failed {e} : Limited most size (.error e) (.error e)
  /-- The container is full before anything else shows to be wrong. -/
  | full {e} : Limited most size (.error e) (.error .payloadTooLong)

/-- The limited reader makes of all bytes what a container of `most` bytes makes of what the free
    reader reads. -/
def Limits {α : Type} (most : Nat) (size : α → Nat) (free limited : Reader α) : Prop :=
  ∀ bytes, Limited most (fun out => size out.1) (free bytes) (limited bytes)

namespace Limited

variable {α β : Type} {most : Nat} {size : α → Nat} {free limited : Except WireError α}

/-- What is read with a limit is what is read without one and keeps to it. -/
theorem ok_iff (h : Limited most size free limited) (a : α) :
    limited = .ok a ↔ free = .ok a ∧ size a ≤ most := by
  cases h with
  | same hfits =>
      refine ⟨?_, And.left⟩
      intro heq
      cases heq
      exact ⟨rfl, hfits⟩
  | tooLong hlong =>
      refine iff_of_false nofun ?_
      rintro ⟨heq, hfits⟩
      cases heq
      exact absurd hlong (Nat.not_lt.mpr hfits)
  | failed => exact iff_of_false nofun fun hboth => nomatch hboth.1
  | full => exact iff_of_false nofun fun hboth => nomatch hboth.1

/-- What does not keep to it is too long. -/
theorem eq_tooLong (h : Limited most size free limited) {a : α} (hfree : free = .ok a)
    (hlong : most < size a) : limited = .error .payloadTooLong := by
  cases h with
  | same hfits =>
      cases hfree
      exact absurd hlong (Nat.not_lt.mpr hfits)
  | tooLong => rfl
  | failed => exact nomatch hfree
  | full => exact nomatch hfree

/-- The container changes nothing but that a payload may be too long for it. -/
theorem eq_or_tooLong (h : Limited most size free limited) :
    limited = free ∨ limited = .error .payloadTooLong := by
  cases h with
  | same => exact Or.inl rfl
  | tooLong => exact Or.inr rfl
  | failed => exact Or.inl rfl
  | full => exact Or.inr rfl

theorem error_of_error (h : Limited most size free limited) {e : WireError}
    (hfree : free = .error e) : limited = .error e ∨ limited = .error .payloadTooLong :=
  hfree ▸ h.eq_or_tooLong

theorem map (h : Limited most size free limited) {size' : β → Nat} {f : α → β}
    (hsize : ∀ a, size' (f a) = size a) : Limited most size' (f <$> free) (f <$> limited) := by
  cases h with
  | same hfits => exact .same ((hsize _).symm ▸ hfits)
  | tooLong hlong => exact .tooLong ((hsize _).symm ▸ hlong)
  | failed => exact .failed
  | full => exact .full

end Limited

namespace Limits

variable {α β : Type} {most : Nat} {size : α → Nat} {free limited : Reader α}

/-- What is read before the payload is read alike. -/
theorem bind {read : Reader β} {next next' : β → Reader α}
    (h : ∀ b, Limits most size (next b) (next' b)) :
    Limits most size (read >>= next) (read >>= next') := by
  intro bytes
  show Limited _ _ (read bytes >>= fun out => next out.1 out.2)
    (read bytes >>= fun out => next' out.1 out.2)
  cases read bytes with
  | error e => exact .failed
  | ok out => exact h out.1 out.2

/-- A payload becomes part of a message. -/
theorem map (h : Limits most size free limited) {size' : β → Nat} {f : α → β}
    (hsize : ∀ a, size' (f a) = size a) :
    Limits most size' (free >>= fun a => pure (f a)) (limited >>= fun a => pure (f a)) := by
  intro bytes
  show Limited most (fun out => size' out.1) ((fun out => (f out.1, out.2)) <$> free bytes)
    ((fun out => (f out.1, out.2)) <$> limited bytes)
  exact (h bytes).map fun out => hsize out.1

theorem pure {a : α} (h : size a ≤ most) : Limits most size (pure a) (pure a) := fun _ => .same h

theorem throw (e : WireError) : Limits most size (throw e) (throw e) := fun _ => .failed

theorem run' (h : Limits most size free limited) (bytes : List UInt8) :
    Limited most size (free.run' bytes) (limited.run' bytes) := (h bytes).map fun _ => rfl

end Limits

/-! ## Payloads -/

namespace Wire

theorem readBytes_eq_ok {count : Nat} {bytes : List UInt8} (h : count ≤ bytes.length) :
    readBytes count bytes = .ok (bytes.take count, bytes.drop count) := if_neg (Nat.not_lt.mpr h)

theorem readBytes_eq_error {count : Nat} {bytes : List UInt8} (h : bytes.length < count) :
    readBytes count bytes = .error .unexpectedEnd := if_pos h

/-- A payload is limited by the room that it has. -/
theorem limits_payload [Platform] (most : Nat) :
    Limits most List.length (readPayload none) (readPayload (some most)) := by
  refine Limits.bind fun length => ?_
  intro bytes
  by_cases hfits : length ≤ most
  · simp only [if_pos hfits]
    by_cases hall : length ≤ bytes.length
    · rw [readBytes_eq_ok hall]
      refine .same ?_
      rw [List.length_take]
      omega
    · rw [readBytes_eq_error (by omega)]
      exact .failed
  · -- the first byte too many shows the limit, if there is one
    simp only [if_neg hfits]
    show Limited _ _ _ (readBytes (most + 1) bytes >>= fun _ => .error .payloadTooLong)
    by_cases hmany : most + 1 ≤ bytes.length
    · rw [readBytes_eq_ok hmany]
      by_cases hall : length ≤ bytes.length
      · rw [readBytes_eq_ok hall]
        refine .tooLong ?_
        rw [List.length_take]
        omega
      · rw [readBytes_eq_error (by omega)]
        exact .full
    · rw [readBytes_eq_error (by omega), readBytes_eq_error (by omega)]
      exact .failed

end Wire

open Wire

/-! ## Requests -/

theorem DataBlock.limits_read [Platform] (most : Nat) :
    Limits most (fun b => b.payload.length) (read none) (read (some most)) := by
  refine .bind fun kind => .bind fun seq => .bind fun crc => ?_
  exact (limits_payload most).map fun _ => rfl

namespace Request

/-- So is a request. -/
theorem limits_read [Platform] (most : Nat) :
    Limits most payloadLength (read none) (read (some most)) := by
  have hbare {q : Request} (h : q.payloadLength = 0) :
      Limits most payloadLength (pure q) (pure q) := .pure (h ▸ Nat.zero_le most)
  refine .bind fun number => ?_
  split
  · exact hbare rfl
  · exact .bind fun size => .bind fun offset => hbare rfl
  · exact .bind fun size => .bind fun packedSize => .bind fun offset => hbare rfl
  · exact (DataBlock.limits_read most).map fun _ => rfl
  · exact hbare rfl
  · exact hbare rfl
  · exact .throw _

/-- What some bytes hold, or the frame that they begin with. -/
def contents (framed : Bool) (data : List UInt8) : Except WireError (List UInt8) :=
  if framed then Cobs.unframe data else .ok data

/-- Reads the request in some bytes, or in the frame that they begin with. -/
def received (on : Platform) (framed : Bool) (limit : Option Nat) (data : List UInt8) :
    Except WireError Request :=
  if framed then ofFrame limit data else decode limit data

theorem received_eq (on : Platform) (framed : Bool) (limit : Option Nat) (data : List UInt8) :
    received on framed limit data = contents framed data >>= decode limit := by
  cases framed <;> rfl

/-- So is what is received. -/
theorem limited_received (on : Platform) (framed : Bool) (most : Nat) (data : List UInt8) :
    Limited most payloadLength (received on framed none data)
      (received on framed (some most) data) := by
  rw [received_eq, received_eq]
  cases contents framed data with
  | error e => exact .failed
  | ok bytes => exact (limits_read most).run' bytes

end Request
end NorLoader
