/-!
# Platforms

The same code is built for the board, whose processor has sizes of 32 bits, and for hosts, where a size
has 64.  Whatever depends on the width of a size takes it from the platform that it is built for.
-/

namespace NorLoader

/-- What the code is built for. -/
class Platform where
  /-- Bits of a size, which is what a length or a place in memory is kept in. -/
  sizeBits : Nat
  /-- A word can be made a size. -/
  words_fit : 32 ≤ sizeBits

namespace Platform

/-- The processor of the board. -/
@[reducible] def board : Platform := ⟨32, Nat.le_refl 32⟩

/-- A host.  It is what runs the code where nothing is said of a platform. -/
instance host : Platform := ⟨64, by decide⟩

end Platform
end NorLoader
