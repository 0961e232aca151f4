/-!
# Canonical code trees

A set of codes is given by the length of each symbol's code, zero for a symbol that has none.
Codes of one length are consecutive numbers in the order of their symbols and shorter codes come
first, so the leaves of the code tree, from left to right, are the symbols in canonical order.
That is how `grow` builds it: it goes down the left edge until the depth is the length of the
next code, and then on with the rest of the codes.

A complete set covers the whole tree.  A sparse set, of one code or none, leaves the rest of it
uncovered.  `uncovered` says how bits that lead there are read: they are not a symbol, unless they
agree with a code for as many bits as are looked up at once.
-/

namespace NorLoader

/-- A binary tree whose leaves are symbols; no bit string that leads to `vacant` is read. -/
inductive CodeTree where
  | vacant
  | leaf (symbol : Nat)
  | node (zero one : CodeTree)
  deriving DecidableEq, Repr

namespace CodeTree

/-- The longest code, in bits. -/
def maxLength : Nat := 15

/-- How many bits are looked up at once to tell whether they start a code. -/
def directLength : Nat := 10

/-- What stands at some depth where no code leads: nothing within the bits looked up at once, and
    symbol 0 below them. -/
def uncovered (depth : Nat) : CodeTree := if depth ≤ directLength then vacant else leaf 0

/-- The subtree that a bit leads to. -/
def child : CodeTree → Bool → CodeTree
  | node zero one, b => if b then one else zero
  | _, _ => vacant

/-- The codes of a set as pairs of length and symbol, in canonical order. -/
def canonicalOrder (lengths : List Nat) : List (Nat × Nat) :=
  (List.range' 1 maxLength).flatMap fun length =>
    lengths.zipIdx.filter fun code => code.1 = length

/-- The share of all bit strings that starts with one of the codes, in units of the share of
    one code of the greatest length. -/
def share (codes : List (Nat × Nat)) : Nat :=
  codes.foldl (fun total code => total + 1 <<< (maxLength - code.1)) 0

/-- Builds the subtree at some depth, and at most `levels` below it, from the first codes of a
    list in canonical order; also gives the codes that it did not use. -/
def grow : Nat → Nat → List (Nat × Nat) → CodeTree × List (Nat × Nat)
  | _, depth, [] => (uncovered depth, [])
  | 0, _, (_, symbol) :: rest => (leaf symbol, rest)
  | levels + 1, depth, (length, symbol) :: rest =>
      if length = depth then (leaf symbol, rest)
      else
        let (zero, rest) := grow levels (depth + 1) ((length, symbol) :: rest)
        let (one, rest) := grow levels (depth + 1) rest
        (node zero one, rest)

/-- The tree of a set of codes.  The set has to be complete: every bit string starts with exactly
    one code.  Where `sparse` allows it, a set of one code or none is taken as well. -/
def ofLengths (sparse : Bool) (lengths : List Nat) : Option CodeTree :=
  let codes := canonicalOrder lengths
  if share codes = 1 <<< maxLength || (sparse && codes.length ≤ 1) then
    some (grow maxLength 0 codes).1
  else none

end CodeTree
end NorLoader
