/-
The Kronecker operator.

For a constant `p × q` matrix `A` the map `B ↦ A ⊗ B` on `m × n` matrices is
linear.  `kroneckerOperator A m n` is its matrix on column-major flattenings:
column `k + l·m` of it belongs to entry `(k, l)` of `B`, and stores `A i j` at
the row `(i·m + k) + (j·n + l)·(p·m)` where `A ⊗ B` has the product
`A i j · B k l`.  Zero entries of `A` are not stored, and within a column the
rows come out increasing because `i·m + k < p·m`.
-/
import ConicModel.Matrix.Sparse

namespace ConicModel

variable {R : Type}

/-- What the operator stores in the column of entry `(k, l)`. -/
def kroneckerColumn [Entry R] (A : Dense R) (m n k l : Nat) : Sparse.Column R :=
  (List.range A.cols).flatMap fun j =>
    (List.range A.rows).filterMap fun i =>
      if isZero (A.get i j) then none
      else some (i * m + k + (j * n + l) * (A.rows * m), A.get i j)

/-- The matrix that takes `vec B` to `vec (A ⊗ B)` for `m × n` matrices `B`. -/
def kroneckerOperator [Entry R] (A : Dense R) (m n : Nat) : Sparse R :=
  Sparse.ofColumns (A.rows * m * A.cols * n) (m * n) fun c =>
    kroneckerColumn A m n (c % m) (c / m)

end ConicModel
