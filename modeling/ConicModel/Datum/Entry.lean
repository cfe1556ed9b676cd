/-
Entries of data.

A sequence has an entry at every place, negative places counting from the end; a
text has its characters, an array and a sparse matrix their rows, and a mapping
what it holds under its keys.

An entry is set to a pair.  A list and a mapping take the pair as it is, and so
does a loose cell.  A row of an array or of a sparse matrix takes the two members
of the pair, if it has two places and can hold them.
-/
import ConicModel.Datum.Dense
import ConicModel.Shape

namespace ConicModel

/-- A row of a sparse matrix, as a matrix of one row. -/
def Sparse.row {R : Type} (A : Sparse R) (i : Nat) : Sparse R :=
  .ofColumns 1 A.cols fun j =>
    (A.column j).filterMap fun e => if e.1 = i then some (0, e.2) else none

/-- Store values in a row, one for each column. -/
def Sparse.storeRow {R : Type} [Zero R] (A : Sparse R) (i : Nat) (xs : Array R) : Sparse R :=
  .ofColumns A.rows A.cols fun j =>
    let x := xs.getD j 0
    let c := A.column j
    if c.any fun e => e.1 == i then c.map fun e => if e.1 = i then (i, x) else e
    else (c ++ [(i, x)]).mergeSort fun d e => decide (d.1 ≤ e.1)

namespace Datum

variable {α : Type}

/-- The place that an index means. -/
def placeOf (size : Nat) (i : Int) : Except Mishap Nat :=
  let k := if i < 0 then i + size else i
  if 0 ≤ k ∧ k < size then .ok k.toNat else .error .place

/-- A row of an array. -/
def rowAt (rigid : Bool) (kind : Kind) (inner : List Nat) (cells : List (Input α)) (k : Nat) :
    Input α :=
  let width := Grid.volume inner
  let row := (cells.drop (k * width)).take width
  if rigid then .array 0 true kind (1 :: inner) row else ofCells false kind inner row

/-- A row of a sparse matrix as a datum. -/
def sparseRow [Entry α] (isTruth : Bool) (A : Coeffs α) (k : Nat) : Input α :=
  .sparse 0 isTruth (A.map fun A => A.row k)

variable [Scalar α]

/-- The entry under a key. -/
def entry (key : Int) : Input α → Except Mishap (Input α)
  | .atom _ (.text s) => do
    let cs := s.toList.toArray
    let k ← placeOf cs.size key
    pure (.atom 0 (.text ((cs[k]?).elim "" (·.toString))))
  | .list _ xs | .tuple _ xs => do
    let k ← placeOf xs.length key
    pure (xs.getD k (.atom 0 .null))
  | .array _ rigid kind shape cells =>
    match shape with
    | [] => .error .place
    | n :: inner => do pure (rowAt rigid kind inner cells (← placeOf n key))
  | .element .. => .error .place
  | .sparse _ t A => do pure (sparseRow t A (← placeOf (Coeffs.rows A) key))
  | .mapping _ keys values => ((keys.zip values).lookup key).elim (.error .key) .ok
  | _ => .error .sort

/-- The two members of what has exactly two. -/
def twoMembers (d : Input α) : Except Mishap (Input α × Input α) := do
  let members ← match d with
    | .sparse _ t A =>
      if Coeffs.rows A = 2 then pure [sparseRow t A 0, sparseRow t A 1] else pure []
    | d => d.membersOf
  match members with
  | [a, b] => pure (a, b)
  | _ => throw .content

/-! ## Setting an entry -/

/-- A datum as an element of an array. -/
def toElement (kind : Kind) (d : Input α) : Except Mishap (Input α) :=
  match kind, d with
  | .truth, .atom _ a | .truth, .element _ _ a => .ok (ofBool a.truth)
  | .byte, .atom _ a | .whole, .atom _ a | .natural, .atom _ a
  | .byte, .element _ _ a | .whole, .element _ _ a | .natural, .element _ _ a => do
    let n ← atomToInteger a
    if kind.holds n then pure (ofInt n) else throw .range
  | .real, .atom _ a | .real, .element _ _ a => do
    let z ← number a
    if a.isReal then pure (.atom 0 (.real z.re)) else throw .sort
  | .complex, .atom _ a | .complex, .element _ _ a => do pure (.atom 0 (.complex (← number a)))
  | .text, d | .loose, d => .ok d
  | _, _ => .error .sort
where
  number (a : Atom α) : Except Mishap (Cplx α) :=
    match a with
    | .text _ => .error .content
    | a => a.toNumber

/-- The cells of a row that a pair fills. -/
def rowOfPair (kind : Kind) (inner : List Nat) (pair : Input α) :
    Except Mishap (List (Input α)) := do
  let g ← pair.grid.elim (.error .content) .ok
  let row ← (g.fill? inner).elim (.error .content) .ok
  if kind = .loose then pure row.looseCells else row.cells.mapM (toElement kind)

/-- An array with an entry set to a pair. -/
def setRow (rigid : Bool) (kind : Kind) (shape : List Nat) (cells : List (Input α)) (key : Int)
    (pair : Input α) : Except Mishap (List (Input α)) :=
  match shape with
  | [] => .error .place
  | n :: inner => do
    let k ← placeOf n key
    if !rigid && inner.isEmpty && kind = .loose then pure (cells.set k pair)
    else
      let width := Grid.volume inner
      let row ← rowOfPair kind inner pair
      pure (cells.take (k * width) ++ row ++ cells.drop ((k + 1) * width))

/-- A sparse matrix with a row set to a pair. -/
def setSparseRow (isTruth : Bool) (A : Coeffs α) (key : Int) (pair : Input α) :
    Except Mishap (Coeffs α) := do
  let k ← placeOf (Coeffs.rows A) key
  let g ← pair.grid.elim (.error .content) .ok
  let xs ← g.cells.mapM (toElement (sparseKind isTruth A))
  if g.shape.filter (· != 1) ≠ [2] ∨ Coeffs.cols A ≠ 2 then throw .content
  match A with
  | .real A => pure (.real (A.storeRow k (xs.map fun d => d.toAtom.toReal).toArray))
  | .complex A => pure (.complex (A.storeRow k (xs.map fun d => d.toAtom.toCplx).toArray))

/-- A datum with an entry set to a pair. -/
def setEntry (d : Input α) (key : Int) (pair : Input α) : Except Mishap (Input α) :=
  match d with
  | .list s xs => do pure (.list s (xs.set (← placeOf xs.length key) pair))
  | .array s rigid kind shape cells => do
    pure (.array s rigid kind shape (← setRow rigid kind shape cells key pair))
  | .sparse s t A => do pure (.sparse s t (← setSparseRow t A key pair))
  | .mapping s keys values =>
    match keys.idxOf? key with
    | some i => .ok (.mapping s keys (values.set i pair))
    | none => .ok (.mapping s (keys ++ [key]) (values ++ [pair]))
  | _ => .error .sort

end Datum

end ConicModel
