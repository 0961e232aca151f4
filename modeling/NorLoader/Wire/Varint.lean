import NorLoader.Wire.WireError

/-!
# Variable-length numbers

A number is sent seven bits a byte, the lowest bits first; every byte but the last has its top bit
set.  A reader for numbers of some width takes no more bytes than the width needs, and refuses a
number that does not fit it.  A longer form than necessary is accepted.
-/

namespace NorLoader.Varint

/-- A number goes out in groups of seven bits, the least first; the top bit of a byte tells that
    more come. -/
def encode (n : Nat) : List UInt8 :=
  if n < 128 then [UInt8.ofNat n] else UInt8.ofNat (n % 128 + 128) :: encode (n / 128)
termination_by n
decreasing_by omega

/-- Reads a number of at most `n` bytes; also gives the bytes after it. -/
def readUpTo : Nat → List UInt8 → Except WireError (Nat × List UInt8)
  | 0, _ => .error .badVarint
  | _ + 1, [] => .error .unexpectedEnd
  | n + 1, b :: rest =>
      if b.toNat < 128 then .ok (b.toNat, rest)
      else
        match readUpTo n rest with
        | .ok (high, rest) => .ok (b.toNat - 128 + 128 * high, rest)
        | .error e => .error e

/-- Reads a number of some width in bits; also gives the bytes after it. -/
def read (width : Nat) (bytes : List UInt8) : Except WireError (Nat × List UInt8) :=
  match readUpTo ((width + 6) / 7) bytes with
  | .ok (n, rest) => if n < 1 <<< width then .ok (n, rest) else .error .badVarint
  | .error e => .error e

end NorLoader.Varint
