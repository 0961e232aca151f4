import NorLoader.Deflate.Format

/-!
# The zlib decoder, one bit at a time

A zlib stream is a two-byte header, a sequence of deflate blocks and a checksum.  `Decoder` is an
automaton over its bits.  `demand` says what the decoder is waiting for: a bit, or that a byte of
output is taken from it.  `bit` gives it a bit and `delivered` tells it that the output byte was
taken.  It holds no input and no output, so it can stop anywhere and go on later.

Fields are read least significant bit first and code words from their first bit on, as the format
lays them down.
-/

namespace NorLoader

/-- How many code lengths a block describes. -/
structure TableSizes where
  literals : Nat
  distances : Nat
  deriving DecidableEq, Repr

/-- The code lengths of a block while they are read. -/
structure LengthReading where
  sizes : TableSizes
  /-- The tree that the lengths are coded with. -/
  tree : CodeTree
  /-- The lengths so far, the newest first. -/
  found : List Nat
  deriving DecidableEq, Repr

/-- What a field of plain bits is read for. -/
inductive FieldGoal where
  | method
  | flags (method : Nat)
  | blockHeader
  | storedLength
  /-- The ones' complement of the length. -/
  | storedCheck (length : Nat)
  | tableSizes
  /-- One length of the code that the code lengths are coded with; `found` is newest first. -/
  | lengthOfLength (sizes : TableSizes) (left : Nat) (found : List Nat)
  /-- How often a code length is repeated, beyond `least`. -/
  | lengthRun (reading : LengthReading) (value least : Nat)
  | matchLength (tables : CodeTables) (least : Nat)
  | matchDistance (tables : CodeTables) (length least : Nat)
  | checksum
  deriving DecidableEq, Repr

/-- What a code word is read for. -/
inductive SymbolGoal where
  | codeLength (reading : LengthReading)
  | literal (tables : CodeTables)
  | distance (tables : CodeTables) (length : Nat)
  deriving DecidableEq, Repr

/-- Where in the stream the decoder is. -/
inductive DecoderStage where
  /-- In a field of `width` bits, of which `got` are read and make up `value`. -/
  | field (goal : FieldGoal) (width got value : Nat)
  /-- In a code word of which `depth` bits are read, at a tree they lead to. -/
  | symbol (goal : SymbolGoal) (tree : CodeTree) (depth : Nat)
  | literal (tables : CodeTables) (byte : UInt8)
  /-- About to deliver `left` bytes, each a copy of the one `distance` back. -/
  | copy (tables : CodeTables) (distance left : Nat)
  /-- About to deliver `left` bytes as they stand in the stream. -/
  | stored (left : Nat)
  /-- At the end, with the checksum that the stream declares. -/
  | finished (checksum : Nat)
  /-- In a stream that is corrupt; `overread` bits were read past what settles that. -/
  | broken (overread : Nat)
  deriving DecidableEq, Repr

/-- A decoder is in the last block of its stream or before it, and at some place there. -/
structure Decoder where
  lastBlock : Bool := false
  stage : DecoderStage := .field .method 8 0 0
  deriving DecidableEq, Repr

/-- What the decoder waits for. -/
inductive DecoderDemand where
  | bit
  /-- The first bit of the next byte; the rest of the current byte is skipped. -/
  | byteStart
  | literal (byte : UInt8)
  /-- That the output byte at this distance back is repeated. -/
  | copy (distance : Nat)
  /-- That the next byte of the stream is moved to the output. -/
  | moveByte
  /-- Nothing: the stream is at its end and declares this checksum. -/
  | finished (checksum : Nat)
  /-- Nothing: the stream is corrupt. -/
  | broken (overread : Nat)
  deriving DecidableEq, Repr

namespace Decoder

/-! ## Moving from stage to stage -/

/-- At the first field of the stream. -/
def start : Decoder := {}

/-- Goes to another place. -/
def goTo (d : Decoder) (stage : DecoderStage) : Decoder := { d with stage := stage }

/-- Goes to a field of some width. -/
def readField (d : Decoder) (goal : FieldGoal) (width : Nat) : Decoder :=
  d.goTo (.field goal width 0 0)

/-- Finds the stream corrupt in what is read already. -/
def fail (d : Decoder) : Decoder := d.goTo (.broken 0)

/-- Goes on with the next literal or length of a block. -/
def nextLiteral (d : Decoder) (tables : CodeTables) : Decoder :=
  d.goTo (.symbol (.literal tables) tables.literals 0)

/-- Goes on after a block: with the next one, or with the checksum. -/
def endBlock (d : Decoder) : Decoder :=
  if d.lastBlock then d.readField .checksum 32 else d.readField .blockHeader 3

/-- Goes to the distance of a match. -/
def nextDistance (d : Decoder) (tables : CodeTables) (length : Nat) : Decoder :=
  d.goTo (.symbol (.distance tables length) tables.distances 0)

/-- Goes on once all code lengths of a block are read. -/
def buildTables (d : Decoder) (r : LengthReading) : Decoder :=
  let lengths := r.found.reverse
  match CodeTree.ofLengths true (lengths.take r.sizes.literals),
      CodeTree.ofLengths true (lengths.drop r.sizes.literals) with
  | some literals, some distances => d.nextLiteral ⟨literals, distances⟩
  | _, _ => d.fail

/-- Goes on with the next code length of a block, if there is one. -/
def nextCodeLength (d : Decoder) (r : LengthReading) : Decoder :=
  let total := r.sizes.literals + r.sizes.distances
  if r.found.length < total then d.goTo (.symbol (.codeLength r) r.tree 0)
  else if r.found.length = total then d.buildTables r
  else d.fail

/-- Goes on with the code that the code lengths are coded with, of which `left` lengths are still
    to come. -/
def nextLengthOfLength (d : Decoder) (sizes : TableSizes) (left : Nat) (found : List Nat) :
    Decoder :=
  if left = 0 then
    let sent := lengthOrder.zip found.reverse
    let lengths := (List.range lengthOrder.length).map fun s => (sent.lookup s).getD 0
    match CodeTree.ofLengths false lengths with
    | some tree => d.nextCodeLength ⟨sizes, tree, []⟩
    | none => d.fail
  else d.readField (.lengthOfLength sizes left found) 3

/-- What a field leads to, once all of it is read. -/
def resolveField (d : Decoder) (goal : FieldGoal) (value : Nat) : Decoder :=
  match goal with
  | .method => d.readField (.flags value) 8
  | .flags method =>
      let divisible := (method * 256 + value) % 31 = 0
      let dictionary := value / 32 % 2 = 1
      if divisible ∧ ¬dictionary ∧ method % 16 = 8 ∧ method / 16 ≤ 7 then
        d.readField .blockHeader 3
      else d.fail
  | .blockHeader =>
      let d := { d with lastBlock := value % 2 = 1 }
      match value / 2 with
      | 0 => d.readField .storedLength 16
      | 1 => d.nextLiteral fixedTables
      | 2 => d.readField .tableSizes 14
      | _ => d.fail
  | .storedLength => d.readField (.storedCheck value) 16
  | .storedCheck length =>
      if length + value ≠ 0xFFFF then d.fail
      else if length = 0 then d.endBlock
      else d.goTo (.stored length)
  | .tableSizes =>
      let sizes : TableSizes := ⟨value % 32 + 257, value / 32 % 32 + 1⟩
      if sizes.literals ≤ 286 ∧ sizes.distances ≤ 30 then
        d.nextLengthOfLength sizes (value / 1024 + 4) []
      else d.fail
  | .lengthOfLength sizes left found => d.nextLengthOfLength sizes (left - 1) (value :: found)
  | .lengthRun r length least =>
      d.nextCodeLength { r with found := List.replicate (least + value) length ++ r.found }
  | .matchLength tables least => d.nextDistance tables (least + value)
  | .matchDistance tables length least => d.goTo (.copy tables (least + value) length)
  | .checksum =>
      let byte := fun i => (value >>> (8 * i)) % 256
      d.goTo (.finished (((byte 0 * 256 + byte 1) * 256 + byte 2) * 256 + byte 3))

/-- What a code word leads to. -/
def resolveSymbol (d : Decoder) (goal : SymbolGoal) (symbol : Nat) : Decoder :=
  match goal with
  | .codeLength r =>
      match symbol with
      | 16 =>
          match r.found with
          | [] => d.fail
          | last :: _ => d.readField (.lengthRun r last 3) 2
      | 17 => d.readField (.lengthRun r 0 3) 3
      | 18 => d.readField (.lengthRun r 0 11) 7
      | length => d.nextCodeLength { r with found := length :: r.found }
  | .literal tables =>
      if symbol < endOfBlock then d.goTo (.literal tables (UInt8.ofNat symbol))
      else if symbol = endOfBlock then d.endBlock
      else
        match lengthClasses[symbol - 257]? with
        | none => d.fail
        | some (least, 0) => d.nextDistance tables least
        | some (least, extra) => d.readField (.matchLength tables least) extra
  | .distance tables length =>
      match distanceClasses[symbol]? with
      | none => d.fail
      | some (least, 0) => d.goTo (.copy tables least length)
      | some (least, extra) => d.readField (.matchDistance tables length least) extra

/-! ## The automaton -/

/-- What the decoder waits for.  The lengths of a stored block and the checksum start on a byte
    boundary. -/
def demand (d : Decoder) : DecoderDemand :=
  match d.stage with
  | .field .storedLength _ 0 _ => .byteStart
  | .field .checksum _ 0 _ => .byteStart
  | .field .. => .bit
  | .symbol .. => .bit
  | .literal _ byte => .literal byte
  | .copy _ distance _ => .copy distance
  | .stored _ => .moveByte
  | .finished checksum => .finished checksum
  | .broken overread => .broken overread

/-- Takes the next bit, if the decoder waits for one. -/
def bit (d : Decoder) (b : Bool) : Decoder :=
  match d.stage with
  | .field goal width got value =>
      let value := value + b.toNat <<< got
      if got + 1 < width then d.goTo (.field goal width (got + 1) value)
      else d.resolveField goal value
  | .symbol goal tree depth =>
      match tree.child b with
      | .leaf symbol => d.resolveSymbol goal symbol
      | .vacant => d.goTo (.broken depth)
      | tree => d.goTo (.symbol goal tree (depth + 1))
  | _ => d

/-- Goes on after a byte of output was taken, if the decoder waits for that. -/
def delivered (d : Decoder) : Decoder :=
  match d.stage with
  | .literal tables _ => d.nextLiteral tables
  | .copy tables distance left =>
      if left ≤ 1 then d.nextLiteral tables else d.goTo (.copy tables distance (left - 1))
  | .stored left => if left ≤ 1 then d.endBlock else d.goTo (.stored (left - 1))
  | _ => d

/-- Whether the stream is at its checksum. -/
def inChecksum (d : Decoder) : Bool :=
  match d.stage with
  | .field .checksum .. => true
  | _ => false

end Decoder
end NorLoader
