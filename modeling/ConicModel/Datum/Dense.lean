/-
Sparse matrices among arrays.

A sparse matrix meets an array written out, as an array that keeps two
dimensions.  Its elements are real, complex, or truth values.
-/
import ConicModel.Datum.Elementwise
import ConicModel.Extent

namespace ConicModel.Datum

variable {α : Type}

/-- The kind of the elements of a sparse matrix. -/
def sparseKind (isTruth : Bool) (A : Coeffs α) : Kind :=
  if isTruth then .truth else if A.isComplex then .complex else .real

variable [Scalar α]

/-- A sparse matrix written out as a rectangle. -/
def writeOut (isTruth : Bool) (A : Coeffs α) : Except Mishap (Grid α) := do
  Extent.check [Coeffs.rows A, Coeffs.cols A] 8
  let kind := sparseKind isTruth A
  let cells : List (Atom α) := match A with
    | .real A => A.toDense.data.toList.map .real
    | .complex A => A.toDense.data.toList.map .complex
  pure ⟨some kind, [Coeffs.rows A, Coeffs.cols A], cells.map fun a => .atom 0 (a.cast kind)⟩

/-- A rectangle as an array that keeps two dimensions. -/
def ofRigid (g : Grid α) : Input α := .array 0 true g.kind g.shape g.cells

/-- The number or the text that a sparse matrix takes for a bare one. -/
def bareAtom? : Input α → Option (Atom α)
  | .atom _ .null => none
  | .atom _ a | .element _ _ a => some a
  | .array _ _ _ [] [d] => some d.toAtom
  | _ => none

end ConicModel.Datum
