/-
Sparse matrices from entries in any order.

Each entry names its row and its column.  The entries of a column are brought
into the order of their rows and those of one row are added up from left to
right; a zero that is listed is stored.  Columns that are all in order already
are left as they are.
-/
import ConicModel.Matrix.Introsort
import ConicModel.Matrix.Sparse

namespace ConicModel.Sparse

variable {R : Type}

namespace Column

/-- Whether the rows never decrease. -/
def isOrdered : Column R → Bool
  | [] => true
  | e :: c => c.head?.all (fun d => decide (e.1 ≤ d.1)) && isOrdered c

/-- Add neighbours of one row to the entry in front of them. -/
def gather [Add R] (i : Nat) (x : R) : Column R → Column R
  | [] => [(i, x)]
  | e :: c => if e.1 = i then gather i (x + e.2) c else (i, x) :: gather e.1 e.2 c

/-- Add up neighbours of one row, from left to right. -/
def addNeighbours [Add R] : Column R → Column R
  | [] => []
  | e :: c => gather e.1 e.2 c

end Column

/-- The matrix with the given entries `(row, column, value)`. -/
def ofTriplets [Add R] (r c : Nat) (es : List (Nat × Nat × R)) : Sparse R :=
  let given : Nat → Column R := fun j =>
    es.filterMap fun e => if e.2.1 = j then some (e.1, e.2.2) else none
  let sort : Column R → Column R :=
    if (List.range c).all fun j => Column.isOrdered (given j) then id else Introsort.sort
  ofColumns r c fun j => Column.addNeighbours (sort (given j))

end ConicModel.Sparse
