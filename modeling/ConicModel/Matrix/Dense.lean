/-
Dense matrices.

A matrix is its shape and its entries in row-major order, with the entry count
in the type.  Two operations carry the rest of the library: `ofFn` builds a
matrix from a function of the position and `get` reads a position, and
`get_ofFn` says that reading what was built gives the function back.  The
column-major flattening (`vec`) and the Kronecker product are both `ofFn` of an
index formula, so each is known by one equation on its entries.
-/
import ConicModel.Scalar

namespace ConicModel

/-- A matrix stored entry by entry, row after row. -/
structure Dense (R : Type) where
  rows : Nat
  cols : Nat
  data : Array R
  size_eq : data.size = rows * cols

namespace Dense

variable {R S : Type}

/-- The `r × c` matrix with entry `f i j` at row `i` and column `j`. -/
def ofFn (r c : Nat) (f : Nat → Nat → R) : Dense R where
  rows := r
  cols := c
  data := Array.ofFn fun k : Fin (r * c) => f (k / c) (k % c)
  size_eq := by simp

/-- The entry at row `i` and column `j`; zero outside the matrix. -/
def get [Zero R] (A : Dense R) (i j : Nat) : R :=
  if j < A.cols then A.data.getD (i * A.cols + j) 0 else 0

/-- Rows and columns. -/
def shape (A : Dense R) : Nat × Nat := (A.rows, A.cols)

@[simp] theorem rows_ofFn (r c : Nat) (f : Nat → Nat → R) : (ofFn r c f).rows = r := rfl
@[simp] theorem cols_ofFn (r c : Nat) (f : Nat → Nat → R) : (ofFn r c f).cols = c := rfl
@[simp] theorem shape_ofFn (r c : Nat) (f : Nat → Nat → R) : (ofFn r c f).shape = (r, c) := rfl

@[simp] theorem get_ofFn [Zero R] {r c i j : Nat} (f : Nat → Nat → R) (hi : i < r) (hj : j < c) :
    (ofFn r c f).get i j = f i j := by
  have hlt : i * c + j < r * c := by
    have := Nat.mul_le_mul_right c (Nat.succ_le_of_lt hi)
    rw [Nat.succ_mul] at this
    omega
  have hdiv : (i * c + j) / c = i := by
    rw [Nat.mul_comm, Nat.mul_add_div (by omega), Nat.div_eq_of_lt hj, Nat.add_zero]
  have hmod : (i * c + j) % c = j := by
    rw [Nat.mul_comm, Nat.mul_add_mod, Nat.mod_eq_of_lt hj]
  simp [get, ofFn, hj, Array.getD, hlt, hdiv, hmod]

/-- Apply a function to every entry. -/
def map (f : R → S) (A : Dense R) : Dense S where
  rows := A.rows
  cols := A.cols
  data := A.data.map f
  size_eq := by simp [A.size_eq]

instance : Functor Dense where
  map := Dense.map

@[simp] theorem rows_map (f : R → S) (A : Dense R) : (A.map f).rows = A.rows := rfl
@[simp] theorem cols_map (f : R → S) (A : Dense R) : (A.map f).cols = A.cols := rfl

/-- The matrix with one given entry everywhere. -/
def replicate (r c : Nat) (x : R) : Dense R := ofFn r c fun _ _ => x

/-- The matrix whose row-major entries are given; a missing entry is zero. -/
def ofRowMajor [Zero R] (r c : Nat) (xs : Array R) : Dense R :=
  ofFn r c fun i j => xs.getD (i * c + j) 0

/-- The matrix whose column-major entries are given; a missing entry is zero. -/
def ofColumnMajor [Zero R] (r c : Nat) (xs : Array R) : Dense R :=
  ofFn r c fun i j => xs.getD (i + j * r) 0

/-- The column-major flattening of a matrix: entry `(i, j)` of an `r`-row matrix
stands at row `i + j * r`. -/
def vec [Zero R] (A : Dense R) : Dense R :=
  ofFn (A.rows * A.cols) 1 fun k _ => A.get (k % A.rows) (k / A.rows)

/-- The Kronecker product: block `(i, j)` is `A i j` times `B`. -/
def kron [Zero R] [Mul R] (A B : Dense R) : Dense R :=
  ofFn (A.rows * B.rows) (A.cols * B.cols) fun i j =>
    A.get (i / B.rows) (j / B.cols) * B.get (i % B.rows) (j % B.cols)

/-- Whether every entry passes a test. -/
def all (A : Dense R) (p : R → Bool) : Bool := A.data.all p

/-- The entry at the top left; zero if there is none. -/
def head [Zero R] (A : Dense R) : R := A.get 0 0

end Dense

end ConicModel
