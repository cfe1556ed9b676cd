/-
Operations on arrays, element by element.

Two rectangles go together when their dimensions agree from the last one back,
a dimension of one or a missing one going with any other.  The cells of the
smaller rectangle are then used again along that dimension.

A bare number has no kind of its own there and takes on that of the other
operand, while everything else is laid out first.  An array that keeps two
dimensions gives arrays that do so too.
-/
import ConicModel.Datum.Grid

namespace ConicModel

/-- The dimensions that two rectangles have together, innermost first. -/
def joinDimensions? : List Nat → List Nat → Option (List Nat)
  | [], t => some t
  | s, [] => some s
  | m :: s, n :: t => do
    let r ← joinDimensions? s t
    if m = n then pure (m :: r)
    else if m = 1 then pure (n :: r)
    else if n = 1 then pure (m :: r)
    else none

/-- The place in a rectangle that goes with place `k` of the joint one; dimensions
are innermost first. -/
def placeIn : List Nat → List Nat → Nat → Nat
  | n :: joint, m :: own, k =>
    (if m = 1 then 0 else k % n) + m * placeIn joint own (k / n)
  | _, _, _ => 0

namespace Grid

variable {α : Type}

/-- Cells of two rectangles in pairs, with the joint shape. -/
def pairs? (g h : Grid α) : Option (List Nat × List (Input α × Input α)) := do
  let joint ← joinDimensions? g.shape.reverse h.shape.reverse
  let xs := g.cells.toArray
  let ys := h.cells.toArray
  let cell := fun (cells : Array (Input α)) (own : List Nat) (k : Nat) =>
    cells.getD (placeIn joint own.reverse k) (.atom 0 .null)
  pure (joint.reverse, (List.range (volume joint)).map fun k =>
    (cell xs g.shape k, cell ys h.shape k))

/-- The cells of a rectangle used again to fill a shape, if they go together. -/
def fill? (g : Grid α) (shape : List Nat) : Option (Grid α) :=
  match g.pairs? ⟨none, shape, []⟩ with
  | some (joint, ps) => if joint = shape then some ⟨g.kind?, shape, ps.map (·.1)⟩ else none
  | none => none

end Grid

/-- An operand of an operation on arrays. -/
inductive Operand (α : Type) where
  /-- A number that takes on the kind of the other operand. -/
  | bare (a : Atom α)
  | laid (g : Grid α)

namespace Operand

variable {α : Type}

/-- A datum as an operand; none if it is not rectangular. -/
def of (d : Input α) : Option (Operand α) :=
  match d with
  | .atom _ (.int n) => some (bare (.int n))
  | .atom _ (.real x) => some (bare (.real x))
  | .atom _ (.complex z) => some (bare (.complex z))
  | d => d.grid.map laid

/-- The kind of the elements. -/
def kind : Operand α → Kind
  | bare a => a.kind
  | laid g => g.kind

/-- An operand as a rectangle. -/
def grid : Operand α → Grid α
  | bare a => .single a.kind (.atom 0 a)
  | laid g => g

/-- An operand as a rectangle whose cells meet those of a kind. -/
def cellsFor (k : Kind) (x : Operand α) : Grid α :=
  match x with
  | bare a => .single k (.atom 0 a)
  | laid g => if k = .loose then { g with cells := g.looseCells } else g

/-- Whether exactly one of two operands holds texts and none is loose. -/
def mixesTexts (x y : Operand α) : Bool :=
  x.kind.sup y.kind = .text && x.kind != y.kind

variable [Scalar α]

/-- The kind of the elements that come of two operands. -/
def joint : Operand α → Operand α → Except Mishap Kind
  | laid g, laid h => .ok (g.kind.sup h.kind)
  | bare a, laid g | laid g, bare a => g.kind.widenTo a
  | bare a, bare b => .ok (a.kind.sup b.kind)

/-- Whether an operand holds integers, of any size if it is a bare number. -/
def isIntegral : Operand α → Bool
  | bare a => a.integer?.isSome
  | laid g => g.kind.isIntegral

/-- The kind in which two operands are compared.  Integers of any size can be
compared with integers, but not with truth values. -/
def jointToCompare (x y : Operand α) : Except Mishap Kind :=
  match x, y with
  | bare a, laid g | laid g, bare a =>
    if a.integer?.isSome && g.kind.isIntegral && g.kind != .truth then .ok .whole
    else g.kind.widenTo a
  | x, y => if x.isIntegral && y.isIntegral then .ok .whole else joint x y

/-- The cells of two operands in pairs, as they are for elements of a kind. -/
def pairs (k : Kind) (x y : Operand α) :
    Except Mishap (List Nat × List (Input α × Input α)) :=
  ((x.cellsFor k).pairs? (y.cellsFor k)).elim (.error .content) .ok

end Operand

namespace Datum

variable {α : Type}

/-- Two data as operands. -/
def operands (a b : Input α) : Except Mishap (Operand α × Operand α) :=
  match Operand.of a, Operand.of b with
  | some x, some y => .ok (x, y)
  | _, _ => .error .content

/-- The shape of a rigid array whose elements were laid out in another one.  Only
two dimensions can be longer than one. -/
def rigidShape (shape : List Nat) : Except Mishap (List Nat) :=
  if shape.length = 2 then .ok shape
  else
    match shape.filter (1 < ·) with
    | [] => .ok [1, 1]
    | [n] => .ok [1, n]
    | [m, n] => .ok [m, n]
    | _ => .error .content

/-- What an operation on two data gives, from the cells that came of it. -/
def gather (a b : Input α) (kind : Kind) (shape : List Nat) (cells : List (Input α)) :
    Except Mishap (Input α) :=
  if a.isRigid || b.isRigid then do
    pure (.array 0 true kind (← rigidShape shape) cells)
  else .ok (ofCells false kind shape cells)

end Datum

end ConicModel
