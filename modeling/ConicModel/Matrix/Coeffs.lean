/-
Coefficient matrices: sparse, with real or complex elements.

An operation with a complex operand is carried out in complex numbers
throughout, so its result is complex even where every imaginary part is zero.
Shapes are checked here and nowhere below: `add?` is `none` when the shapes
differ, and a product is only asked for after its inner dimensions were
compared.
-/
import ConicModel.Matrix.Sparse

namespace ConicModel

/-- A sparse matrix of real or complex coefficients. -/
abbrev Coeffs (α : Type) := Numeric Sparse α

namespace Coeffs

variable {α : Type}

/-- The number of rows. -/
def rows (A : Coeffs α) : Nat := A.on Sparse.rows

/-- The number of columns. -/
def cols (A : Coeffs α) : Nat := A.on Sparse.cols

/-- Rows and columns. -/
def shape (A : Coeffs α) : Nat × Nat := (rows A, cols A)

/-- How many positions are stored. -/
def stored (A : Coeffs α) : Nat := A.on Sparse.stored

variable [Entry α]

/-- Nothing stored, with real elements. -/
def zeros (r c : Nat) : Coeffs α := .real (.zeros r c)

/-- The real identity. -/
def identity (n : Nat) : Coeffs α := .real (.identity n)

/-- The nonzero entries of a dense matrix. -/
def ofDense (A : Numeric Dense α) : Coeffs α := A.map Sparse.ofDense

/-- Change the sign of what is stored. -/
def neg (A : Coeffs α) : Coeffs α := A.map Sparse.neg

/-- The sum of two matrices of one shape. -/
def add? (A B : Coeffs α) : Option (Coeffs α) :=
  if shape A = shape B then some (A.map₂ Sparse.add B) else none

/-- The product; the columns of the first match the rows of the second. -/
def mul (A B : Coeffs α) : Coeffs α := A.map₂ Sparse.mul B

/-- What is stored times the imaginary unit. -/
def timesI (A : Coeffs α) : Sparse (Cplx α) := A.toComplex.map (Cplx.I * ·)

/-- A real and an imaginary part as one complex matrix. -/
def join (re im : Coeffs α) : Sparse (Cplx α) := re.toComplex.add (timesI im)

/-- The real parts of what is stored. -/
def realPart (A : Sparse (Cplx α)) : Coeffs α := .real (A.map Cplx.re)

/-- The imaginary parts of what is stored. -/
def imagPart (A : Sparse (Cplx α)) : Coeffs α := .real (A.map Cplx.im)

end Coeffs

end ConicModel
