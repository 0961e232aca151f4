import NorLoader.Wire.WireError

/-!
# Byte stuffing

A frame carries any bytes without a zero among them, so that a zero can end it.  The bytes are cut
into groups.  A group is a code byte and the non-zero bytes that it counts, itself included.  A
code below `0xFF` stands for its bytes and a zero after them, except that the last group has no
zero; the code `0xFF` stands for 254 bytes and no zero.
-/

namespace NorLoader.Cobs

/-- The bytes of a group that is full. -/
def groupSize : Nat := 254

/-- The code of a group of which `n` bytes are behind us, and everything after that code. -/
def groupsFrom : Nat → List UInt8 → UInt8 × List UInt8
  | n, [] => (UInt8.ofNat (n + 1), [])
  | n, b :: rest =>
      if b = 0 then
        let (code, more) := groupsFrom 0 rest
        (UInt8.ofNat (n + 1), code :: more)
      else if n + 1 = groupSize then
        let (code, more) := groupsFrom 0 rest
        (0xFF, b :: code :: more)
      else
        let (code, more) := groupsFrom (n + 1) rest
        (code, b :: more)

/-- Bytes without a zero that stand for the given ones. -/
def stuff (bytes : List UInt8) : List UInt8 :=
  let (code, more) := groupsFrom 0 bytes
  code :: more

/-- Takes the groups apart and puts the zeros back between them. -/
def unstuff (groups : List UInt8) : Except WireError (List UInt8) :=
  match groups with
  | [] => .ok []
  | code :: rest =>
      let count := code.toNat - 1
      if rest.length < count then .error .badFraming
      else
        match unstuff (rest.drop count) with
        | .error e => .error e
        | .ok more =>
            if code = 0xFF || rest.length = count then .ok (rest.take count ++ more)
            else .ok (rest.take count ++ 0 :: more)
termination_by groups.length
decreasing_by
  simp only [List.length_drop, List.length_cons]
  omega

/-- The byte that ends a frame. -/
def delimiter : UInt8 := 0

/-- The frame of some bytes. -/
def frame (bytes : List UInt8) : List UInt8 := stuff bytes ++ [delimiter]

/-- The bytes in a frame.  What follows the first delimiter is ignored, and the end of the data
    ends the frame as well, but there has to be some data. -/
def unframe (data : List UInt8) : Except WireError (List UInt8) :=
  match data with
  | [] => .error .badFraming
  | _ => unstuff (data.takeWhile fun b => b != delimiter)

end NorLoader.Cobs
