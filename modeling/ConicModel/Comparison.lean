/-
Constraints written with an operator, and what the operators say of plain data.

An operator with an expression on one side makes a constraint, whatever stands on
the other side.  Between plain data it answers.  Single data are equal or ordered
by what they are.  Sequences are gone through together: members that are one and
the same or equal are passed over, and the first others decide, in their own
terms.  Arrays are compared element by element and give an array of answers.  A
shift moves the digits of integers.

An expression met inside makes a constraint there.  As the outcome of a comparison
it refuses to count as an answer; as the outcome of a shift it is one.
-/
import ConicModel.Construction
import ConicModel.Datum.SparseOrder
import ConicModel.Datum.Truth

namespace ConicModel

/-- The ways to write a constraint with an operator. -/
inductive Comparison where
  | ge | le | eq
  /-- `x >> y`: the left side exceeds the right one in the semidefinite order. -/
  | above
  /-- `x << y`: the right side exceeds the left one in the semidefinite order. -/
  | below
deriving DecidableEq

/-- The constraint that a question makes of expressions. -/
def Question.relation : Question → Relation
  | ge => .atLeast
  | le => .atMost
  | eq => .equal

variable {α : Type} [Scalar α]

/-- A constraint between two operands as a datum. -/
def relate (vars : Vars α) (relation : Relation) (l r : Input α) : Make α (Input α) := do
  pure (.thing 0 (.constraint (← makeConstraint vars relation l r)))

namespace Datum

/-- How data inside other data are compared. -/
abbrev Comparer (α : Type) := Question → Input α → Input α → Make α (Input α)

/-! ## Arrays -/

/-- The answer about numbers and texts, which are never equal and have no order. -/
def compareTexts (q : Question) (x y : Operand α) : Except Mishap (Input α) := do
  if q ≠ .eq then throw .elements
  match ← Operand.pairs .text x y with
  | ([], _) => pure (ofBool false)
  | (shape, ps) => pure (.array 0 false .truth shape (ps.map fun _ => ofBool false))

/-- The answers about two arrays, element by element. -/
def compareArrays (compare : Comparer α) (q : Question) (a b : Input α) : Make α (Input α) := do
  let (x, y) ← Make.ofExcept .mishap (operands a b)
  if x.mixesTexts y then Make.ofExcept .mishap (compareTexts q x y)
  else
    let k ← Make.ofExcept .mishap (x.jointToCompare y)
    let (shape, ps) ← Make.ofExcept .mishap (Operand.pairs k x y)
    let answers ←
      if k = .loose then ps.mapM fun p => do truth (← compare q p.1 p.2)
      else pure (ps.map fun p => k.ask q p.1.toAtom p.2.toAtom)
    Make.ofExcept .mishap (gather a b .truth shape (answers.map ofBool))

/-- The answer about a sparse matrix and something else.  What is no matrix and
cannot be laid out as one is not equal to it. -/
def compareSparse (compare : Comparer α) (q : Question) (isTruth : Bool) (A : Coeffs α)
    (d : Input α) : Make α (Input α) := do
  match d, d.bareAtom? with
  | .sparse _ _ B, _ => Make.ofExcept .mishap (askSparsePair q A B)
  | d, some a => Make.ofExcept .mishap (askSparseBare q isTruth A d a)
  | d, none =>
    let g ← Make.ofOption (.mishap .content) d.grid
    if g.shape.isEmpty then
      if q = .eq then pure (ofBool false) else throw (.mishap .sort)
    else
      let D := ofRigid (← Make.ofExcept .mishap (writeOut isTruth A))
      compareArrays compare q D d

/-! ## Sequences -/

/-- The answer about two sequences: that about the first members that differ, or
else about their lengths. -/
def compareMembers (compare : Comparer α) (q : Question) :
    List (Input α) → List (Input α) → Make α (Input α)
  | [], [] => pure (ofBool true)
  | [], _ :: _ => pure (ofBool (q = .le))
  | _ :: _, [] => pure (ofBool (q = .ge))
  | x :: xs, y :: ys => do
    if identical x y then compareMembers compare q xs ys
    else if ← truth (← compare .eq x y) then compareMembers compare q xs ys
    else if q = .eq then pure (ofBool false)
    else compare q x y

/-- Whether two mappings have the same values under the same keys. -/
def sameMapping (compare : Comparer α) (other : List (Int × Input α)) :
    List (Int × Input α) → Make α Bool
  | [] => pure true
  | (k, x) :: rest => do
    match other.lookup k with
    | none => pure false
    | some y =>
      if identical x y then sameMapping compare other rest
      else if ← truth (← compare .eq x y) then sameMapping compare other rest
      else pure false

/-! ## All data -/

/-- What has an order or an equality of its own, and neither holds elements nor
makes constraints. -/
def comparePlain (compare : Comparer α) (q : Question) (a b : Input α) : Make α (Input α) :=
  match q, a, b with
  | q, .list _ xs, .list _ ys =>
    if q = .eq ∧ xs.length ≠ ys.length then pure (ofBool false) else compareMembers compare q xs ys
  | q, .tuple _ xs, .tuple _ ys => compareMembers compare q xs ys
  | .eq, .mapping _ ks vs, .mapping _ ls ws =>
    if ks.length ≠ ls.length then pure (ofBool false)
    else ofBool <$> sameMapping compare (ls.zip ws) (ks.zip vs)
  | .eq, .record _ o c n, .record _ p d m => do
    let same ← if identical o p then pure true else truth (← compare .eq o p)
    pure (ofBool (same && decide (c = d) && decide (n = m)))
  | q, .atom _ a, .atom _ b => ofBool <$> Make.ofExcept .mishap (a.ask q b)
  | .eq, a, b => pure (ofBool (identical a b))
  | _, _, _ => throw (.mishap .sort)

/-- Whether a comparison is between the element of an array and nothing. -/
def meetsNull : Input α → Input α → Bool
  | .element .., .atom _ .null | .atom _ .null, .element .. => true
  | _, _ => false

/-- What an operator gives for two data, nested no deeper than given. -/
def compareWithin (vars : Vars α) : Nat → Comparer α
  | 0, _, _, _ => throw (.mishap .sort)
  | n + 1, q, a, b =>
    match a, b with
    | .thing _ (.expr _), _ => relate vars q.relation a b
    | _, .thing _ (.expr _) => relate vars q.flip.relation b a
    | .sparse _ t A, d => compareSparse (compareWithin vars n) q t A d
    | d, .sparse _ t A => compareSparse (compareWithin vars n) q.flip t A d
    | a, b =>
      if q = .eq ∧ meetsNull a b then pure (ofBool false)
      else
        match q, a, b with
        | .eq, .atom _ (.complex z), .element _ .real x => pure (ofBool (Atom.same (.complex z) x))
        | q, a, b =>
          if a.isArray || b.isArray then compareArrays (compareWithin vars n) q a b
          else comparePlain (compareWithin vars n) q a b

/-- What an operator gives for two data. -/
def compare (vars : Vars α) (q : Question) (a b : Input α) : Make α (Input α) :=
  compareWithin vars (a.depth + b.depth + 2) q a b

/-- The answer to a question about two data, if it is one. -/
def ask (vars : Vars α) (q : Question) (a b : Input α) : Make α Bool := do
  truth (← compare vars q a b)

/-- Whether two data differ when each is looked at as a whole. -/
def differ (vars : Vars α) (a b : Input α) : Make α Bool := do pure (!(← ask vars .eq a b))

/-! ## Shifts -/

/-- Two arrays shifted element by element. -/
def shiftArrays (left : Bool) (shift : Input α → Input α → Make α (Input α)) (a b : Input α) :
    Make α (Input α) := do
  let (x, y) ← Make.ofExcept .mishap (operands a b)
  let k ← Make.ofExcept .mishap (x.joint y)
  if k = .loose then
    let (shape, ps) ← Make.ofExcept .mishap (Operand.pairs k x y)
    let cells ← ps.mapM fun p => shift p.1 p.2
    Make.ofExcept .mishap (gather a b k shape cells)
  else
    let k ← Make.ofOption (.mishap .sort) k.shifting
    let (shape, ps) ← Make.ofExcept .mishap (Operand.pairs k x y)
    Make.ofExcept .mishap (gather a b k shape
      (ps.map fun p => .atom 0 (k.shift left p.1.toAtom p.2.toAtom)))

/-- A datum shifted by another one, nested no deeper than given. -/
def shiftWithin (vars : Vars α) (left : Bool) : Nat → Input α → Input α → Make α (Input α)
  | 0, _, _ => throw (.mishap .sort)
  | n + 1, a, b =>
    match a, b with
    | .thing _ (.expr _), _ | _, .thing _ (.expr _) =>
      if left then relate vars .semidefinite b a else relate vars .semidefinite a b
    | .sparse .., _ | _, .sparse .. => throw (.mishap .sort)
    | a, b =>
      if a.isArray || b.isArray then shiftArrays left (shiftWithin vars left n) a b
      else
        match a, b with
        | .atom _ a, .atom _ b => .atom 0 <$> Make.ofExcept .mishap (a.shift left b)
        | _, _ => throw (.mishap .sort)

/-- A datum shifted by another one, to the left or to the right. -/
def shift (vars : Vars α) (left : Bool) (a b : Input α) : Make α (Input α) :=
  shiftWithin vars left (a.depth + b.depth + 2) a b

end Datum

/-- What is written `l op r`.  When only the right operand is an expression the
constraint is written from its point of view: `3 <= x` is `x >= 3` and `3 == x` is
`x == 3`, while `3 >> x` and `3 << x` keep their sides.  Plain data on both sides
give plain data. -/
def makeComparison (vars : Vars α) (op : Comparison) (l r : Input α) : Make α (Input α) :=
  match op with
  | .ge => Datum.compare vars .ge l r
  | .le => Datum.compare vars .le l r
  | .eq => Datum.compare vars .eq l r
  | .above => Datum.shift vars false l r
  | .below => Datum.shift vars true l r

/-! ## Signs -/

/-- The sign of an array.  Loose elements are compared with zero one by one. -/
def Sign.ofView (vars : Vars α) : ArrayView α → Make α Sign
  | .numbers (.real a) => pure (ofReals a.data)
  | .numbers (.complex _) => pure complex
  | .texts _ => throw (.mishap .elements)
  | .loose g => do
    let up ← g.cells.mapM fun d => Datum.ask vars .ge d (.ofInt 0)
    if up.all id then pure positive
    else
      let down ← g.cells.mapM fun d => Datum.ask vars .le d (.ofInt 0)
      pure (if down.all id then negative else noSign)

end ConicModel
