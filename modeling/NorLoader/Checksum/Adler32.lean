/-!
# Adler-32

The checksum at the end of a zlib stream: the sum of the bytes and the sum of those sums, both
modulo the largest prime below `2 ^ 16`.
-/

namespace NorLoader

/-- The two running sums. -/
structure Adler32 where
  /-- One more than the sum of the bytes. -/
  low : Nat
  /-- The sum of the successive values of `low`. -/
  high : Nat
  deriving DecidableEq, Repr

namespace Adler32

/-- The modulus of both sums. -/
def modulus : Nat := 65521

/-- The checksum of no data. -/
def empty : Adler32 := ⟨1, 0⟩

/-- Goes on with a byte. -/
def addByte (s : Adler32) (b : UInt8) : Adler32 :=
  let low := (s.low + b.toNat) % modulus
  ⟨low, (s.high + low) % modulus⟩

/-- Goes on with some data. -/
def addBytes (s : Adler32) (data : List UInt8) : Adler32 := data.foldl addByte s

/-- The checksum as one number, the second sum in the upper half. -/
def value (s : Adler32) : Nat := s.high * 65536 + s.low

/-- Data may come in pieces. -/
theorem addBytes_append (s : Adler32) (xs ys : List UInt8) :
    s.addBytes (xs ++ ys) = (s.addBytes xs).addBytes ys :=
  List.foldl_append

end Adler32
end NorLoader
