/-
Sparse matrices of machine integers.

Coefficients given as integers or truth values are kept as such, because the reals
do not hold all of them.  Sums and products are formed without bounds and then cut
down to the bits of their kind; an entry that is cut down to zero is no longer
stored.  Truth values add up by disjunction and have no sign to change.

Two kinds without a kind of integers above them both, such as integers with and
without a sign, have neither a sum nor a product here.
-/
import ConicModel.Kind
import ConicModel.Matrix.Coeffs

namespace ConicModel

instance : Entry Int where
  zero := 0
  one := 1
  isZero n := n == 0

/-- A sparse matrix of integers of a kind. -/
structure Words where
  kind : Kind
  cells : Sparse Int

namespace Words

/-- An integer cut down to a kind. -/
def cut (k : Kind) (n : Int) : Int :=
  if k = .truth then if n = 0 then 0 else 1 else k.wrap n

/-- The integers of a kind that come of a matrix of integers without bounds. -/
def ofUnbounded (k : Kind) (A : Sparse Int) : Words :=
  ⟨k, ⟨A.rows, A.columns.map fun c => Sparse.Column.dropZeros (c.map fun e => (e.1, cut k e.2))⟩⟩

/-- The truth values that a matrix of numbers stores as ones. -/
def ofTruth {α : Type} [Entry α] : Coeffs α → Words
  | .real A => ⟨.truth, A.map fun x => if isZero x then 0 else 1⟩
  | .complex A => ⟨.truth, A.map fun z => if isZero z then 0 else 1⟩

/-- Nothing stored. -/
def zeros (k : Kind) (r c : Nat) : Words := ⟨k, .zeros r c⟩

/-- The nearest reals. -/
def toReals {α : Type} [Scalar α] (w : Words) : Sparse α := w.cells.map Scalar.ofInt

/-- The bytes of an element. -/
def elementBytes (w : Words) : Nat := if w.kind = .truth then 1 else w.kind.width / 8

/-- Change the sign, unless the elements are truth values. -/
def neg? (w : Words) : Option Words :=
  if w.kind = .truth then none else some ⟨w.kind, w.cells.map fun n => w.kind.wrap (-n)⟩

/-- The result of an operation in the kind above both operands. -/
def combine? (op : Sparse Int → Sparse Int → Sparse Int) (v w : Words) : Option Words :=
  let k := v.kind.sup w.kind
  if k.isIntegral then some (ofUnbounded k (op v.cells w.cells)) else none

/-- The sum of two matrices of one shape. -/
def add? : Words → Words → Option Words := combine? Sparse.add

/-- The product of two matrices. -/
def mul? : Words → Words → Option Words := combine? Sparse.mul

end Words

end ConicModel
