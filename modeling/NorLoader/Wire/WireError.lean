/-!
# Wire errors

Why a message could not be written into its buffer or read from its bytes.
-/

namespace NorLoader

/-- What can be wrong with a message. -/
inductive WireError where
  | bufferFull
  /-- The bytes end inside the message. -/
  | unexpectedEnd
  /-- A number does not end where it must, or is too large for its type. -/
  | badVarint
  /-- A truth value is neither zero nor one. -/
  | badBool
  /-- The mark of an optional value is neither zero nor one. -/
  | badOption
  | badFraming
  | unknownVariant
  | payloadTooLong
  deriving DecidableEq, Repr

/-- The text for an error. -/
def WireError.message : WireError → String
  | bufferFull => "The serialize buffer is full"
  | unexpectedEnd => "Hit the end of buffer, expected more data"
  | badVarint =>
      "Found a varint that didn't terminate. Is the usize too big for this platform?"
  | badBool => "Found a bool that wasn't 0 or 1"
  | badOption => "Found an Option discriminant that wasn't 0 or 1"
  | badFraming => "The original data was not well encoded"
  | unknownVariant => "Serde Deserialization Error"
  | payloadTooLong => "Serde Deserialization Error"

end NorLoader
