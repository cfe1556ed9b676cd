/-
Sparse matrices, column by column.

A column is a list of stored positions, each a row and a value.  What is stored
is part of a value and can be observed by counting: building from a dense matrix
stores the nonzero entries only, copying and negating keep stored zeros, sums and
products drop what comes out as exactly zero.

The order inside a column is kept as well.  A product leaves its rows in the
order in which they were first reached, the latest in front, and the next
product adds up in that order; over floats the last bit depends on it.  Over
exact scalars neither the order nor a stored zero can be seen through `get`,
which adds up all that is stored at a position.
-/
import ConicModel.Matrix.Dense

namespace ConicModel

/-- A stored column: rows with their values. -/
abbrev Sparse.Column (R : Type) := List (Nat × R)

/-- A matrix stored by columns. -/
structure Sparse (R : Type) where
  rows : Nat
  columns : Array (Sparse.Column R)

namespace Sparse

variable {R S : Type}

namespace Column

/-- The value at a row: the sum of all that is stored there. -/
def valueAt [Zero R] [Add R] (c : Column R) (i : Nat) : R :=
  c.foldr (fun e acc => if e.1 = i then e.2 + acc else acc) 0

/-- Add to the value stored at a row; a row not stored yet goes in front. -/
def bump [Add R] (c : Column R) (i : Nat) (x : R) : Column R :=
  if c.any (·.1 == i) then c.map fun e => if e.1 = i then (e.1, e.2 + x) else e
  else (i, x) :: c

/-- Add up entries in the order in which they come. -/
def accumulate [Add R] (es : Column R) : Column R :=
  es.foldl (fun acc e => acc.bump e.1 e.2) []

/-- Keep the entries that are not zero. -/
def dropZeros [Entry R] (c : Column R) : Column R :=
  c.filter fun e => !isZero e.2

/-- Whether the rows increase strictly. -/
def isSorted : Column R → Bool
  | [] => true
  | e :: c => c.head?.all (fun d => decide (e.1 < d.1)) && isSorted c

/-- Merge two columns with increasing rows, adding where both store a row. -/
def merge [Add R] : Column R → Column R → Column R
  | [], d => d
  | c, [] => c
  | (i, x) :: c, (j, y) :: d =>
    if i < j then (i, x) :: merge c ((j, y) :: d)
    else if j < i then (j, y) :: merge ((i, x) :: c) d
    else (i, x + y) :: merge c d
termination_by c d => c.length + d.length

end Column

/-- The number of columns. -/
def cols (A : Sparse R) : Nat := A.columns.size

/-- Rows and columns. -/
def shape (A : Sparse R) : Nat × Nat := (A.rows, A.cols)

/-- A column; empty outside the matrix. -/
def column (A : Sparse R) (j : Nat) : Column R := A.columns.getD j []

/-- The entry at row `i` and column `j`. -/
def get [Zero R] [Add R] (A : Sparse R) (i j : Nat) : R := (A.column j).valueAt i

/-- How many positions are stored, zero or not. -/
def stored (A : Sparse R) : Nat := A.columns.foldl (fun n c => n + c.length) 0

/-- The `r × c` matrix whose column `j` stores `f j`. -/
def ofColumns (r c : Nat) (f : Nat → Column R) : Sparse R :=
  ⟨r, Array.ofFn fun j : Fin c => f j⟩

@[simp] theorem rows_ofColumns (r c : Nat) (f : Nat → Column R) : (ofColumns r c f).rows = r := rfl

@[simp] theorem cols_ofColumns (r c : Nat) (f : Nat → Column R) : (ofColumns r c f).cols = c := by
  simp [cols, ofColumns]

@[simp] theorem column_ofColumns {r c j : Nat} (f : Nat → Column R) (hj : j < c) :
    (ofColumns r c f).column j = f j := by
  simp [column, ofColumns, Array.getD, hj]

/-- Nothing stored. -/
def zeros (r c : Nat) : Sparse R := ofColumns r c fun _ => []

/-- The identity. -/
def identity [One R] (n : Nat) : Sparse R := ofColumns n n fun j => [(j, 1)]

/-- The nonzero entries of a dense matrix. -/
def ofDense [Entry R] (A : Dense R) : Sparse R :=
  ofColumns A.rows A.cols fun j =>
    (List.range A.rows).filterMap fun i =>
      if isZero (A.get i j) then none else some (i, A.get i j)

/-- The entries written out. -/
def toDense [Zero R] [Add R] (A : Sparse R) : Dense R := Dense.ofFn A.rows A.cols A.get

/-- Apply a function to what is stored. -/
def map (f : R → S) (A : Sparse R) : Sparse S :=
  ⟨A.rows, A.columns.map fun c => c.map fun e => (e.1, f e.2)⟩

instance : Functor Sparse where
  map := Sparse.map

@[simp] theorem rows_map (f : R → S) (A : Sparse R) : (A.map f).rows = A.rows := rfl

@[simp] theorem cols_map (f : R → S) (A : Sparse R) : (A.map f).cols = A.cols := by
  simp [cols, map]

/-- Change the sign of what is stored. -/
def neg [Entry R] (A : Sparse R) : Sparse R := A.map (-·)

/-- Whether the rows of every column increase strictly. -/
def isSorted (A : Sparse R) : Bool := A.columns.all Column.isSorted

/-- The sum of two matrices of one shape.  Columns in order are merged; if any
column of either matrix is out of order, all are added up entry by entry. -/
def add [Entry R] (A B : Sparse R) : Sparse R :=
  let sum := if A.isSorted && B.isSorted then Column.merge
    else fun c d => Column.accumulate (c ++ d)
  ofColumns A.rows A.cols fun j => (sum (A.column j) (B.column j)).dropZeros

/-- A matrix times a column: for each stored `(k, x)` in turn, column `k` of the
matrix scaled by `x`. -/
def mulColumn [Entry R] (A : Sparse R) (c : Column R) : Column R :=
  (Column.accumulate (c.flatMap fun e => (A.column e.1).map fun d => (d.1, d.2 * e.2))).dropZeros

/-- The product of two matrices, column by column. -/
def mul [Entry R] (A B : Sparse R) : Sparse R :=
  ofColumns A.rows B.cols fun j => A.mulColumn (B.column j)

end Sparse

end ConicModel
