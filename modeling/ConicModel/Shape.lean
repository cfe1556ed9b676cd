/-
The shape asked for a new variable.

Nothing means a scalar, an integer `n` a column of `n` rows, and a sequence of
two numbers rows and columns.  Whatever can be gone through counts as a
sequence, a text by its characters and a matrix by its rows; members are cut off
to integers, a text among them is read as a numeral, and a row or another array
with dimensions is no integer.
-/
import ConicModel.Datum.Grid
import ConicModel.Datum.Quoting

namespace ConicModel

namespace Datum

variable {α : Type} [Scalar α]

/-- A number as an integer, cut off toward zero. -/
def wholeOf : Whole → Except Mishap Int
  | .int n => .ok n
  | .infinite => .error .range
  | .undefined => .error .content

/-- An atom as an integer. -/
def atomToInteger : Atom α → Except Mishap Int
  | .int n => .ok n
  | .bool b => .ok (if b then 1 else 0)
  | .real x => wholeOf (Scalar.truncate x)
  | .text s => (Numeral.read? s).elim (.error .content) .ok
  | .null | .complex _ => .error .sort

/-- A member of a shape as an integer.  A complex number counts by its real part if
it is the element of an array. -/
def toInteger : Input α → Except Mishap Int
  | .atom _ a => atomToInteger a
  | .element _ _ a => atomToInteger a.realPart
  | .array _ _ _ [] [d] => atomToInteger d.toAtom
  | _ => .error .sort

/-- The members of an array along its first dimension. -/
def rowsOf (kind : Kind) (shape : List Nat) (cells : List (Input α)) :
    Except Mishap (List (Input α)) :=
  match shape with
  | [] => .error .sort
  | [_] => .ok (cells.map (ofCell kind))
  | n :: inner =>
    let width := Grid.volume inner
    .ok ((List.range n).map fun i =>
      .array 0 false kind inner ((cells.drop (i * width)).take width))

/-- The members of what can be gone through.  Of a sparse matrix the first row is
enough, because no row is an integer. -/
def membersOf : Input α → Except Mishap (List (Input α))
  | .atom _ (.text s) => .ok (s.toList.map fun c => .atom 0 (.text c.toString))
  | .list _ xs | .tuple _ xs => .ok xs
  | .array _ _ kind shape cells => rowsOf kind shape cells
  | .mapping _ keys _ => .ok (keys.map ofInt)
  | .sparse s t A => .ok (if Coeffs.rows A = 0 then [] else [.sparse s t A])
  | .thing _ o => (o.members.map fun is => is.map ofInt).elim (.error .sort) .ok
  | _ => .error .sort

end Datum

namespace Variable

variable {α : Type} [Scalar α]

/-- The dimensions asked for, before they are checked. -/
def dimensions : Input α → Except Mishap (List Int)
  | .atom _ .null => .ok [1, 1]
  | .atom _ (.int n) => .ok [n, 1]
  | .atom _ (.bool b) => .ok [if b then 1 else 0, 1]
  | .element _ k (.int n) => if k.bounds.isSome then .ok [n, 1] else .error .sort
  | d => do (← d.membersOf).mapM Datum.toInteger

/-- Two positive dimensions, or what is wrong with them. -/
def checkDimensions (ds : List Int) : Except (Fault α) (Nat × Nat) :=
  match ds with
  | [r, c] =>
    if 0 < r ∧ 0 < c then .ok (r.toNat, c.toNat)
    else .error (if ds.all Numeral.isWritable then .dimensionSign r c else .unwritable)
  | ds => .error (if ds.all Numeral.isWritable then .dimensionCount ds else .unwritable)

/-- The shape of a new variable. -/
def normalizeShape (d : Input α) : Except (Fault α) (Nat × Nat) :=
  match dimensions d with
  | .ok ds => checkDimensions ds
  | .error m => .error (.mishap m)

end Variable

end ConicModel
