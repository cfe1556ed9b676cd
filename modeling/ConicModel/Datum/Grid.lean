/-
Data laid out as arrays.

A datum is laid out as a rectangle of cells.  Nested sequences are rectangular
when all members of a sequence have one shape, and they may be nested 64 deep.
The cells have one kind, the least that holds them all; a sequence without any
counts as real.  Cells that are something else than numbers and texts, such as a
missing value or an integer beyond 64 bits, make the whole rectangle loose.

An `ArrayView` is the same for those who only want numbers: cells of every kind
of numbers are reals or complex numbers there.
-/
import ConicModel.Datum

namespace ConicModel

/-- A rectangle of data: the kind of its cells, its shape, and the cells in order. -/
structure Grid (α : Type) where
  /-- None if nothing in the rectangle has a kind. -/
  kind? : Option Kind
  shape : List Nat
  cells : List (Input α)

namespace Grid

variable {α : Type}

/-- The kind of the cells. -/
def kind (g : Grid α) : Kind := g.kind?.getD .real

/-- The kind of the cells of two rectangles side by side. -/
def joinKinds : Option Kind → Option Kind → Option Kind
  | some k, some l => some (k.sup l)
  | some k, none => some k
  | none, l => l

/-- Put the members of a sequence side by side; none if their shapes differ. -/
def stack (gs : List (Grid α)) : Option (Grid α) :=
  match gs with
  | [] => some ⟨none, [0], []⟩
  | g :: rest =>
    if rest.all (fun h => h.shape == g.shape) then
      some ⟨(gs.map (·.kind?)).foldl joinKinds none, gs.length :: g.shape, gs.flatMap (·.cells)⟩
    else none

/-- A rectangle without dimensions. -/
def single (kind : Kind) (d : Input α) : Grid α := ⟨some kind, [], [d]⟩

/-- The keys of a thing as a rectangle. -/
def ofKeys (keys : List Int) : Grid α :=
  let cells : List (Atom α) := keys.map .int
  ⟨(cells.map fun a => some a.kind).foldl joinKinds none, [keys.length],
    cells.map fun a => .atom 0 a⟩

/-- The number of elements of a shape. -/
def volume (shape : List Nat) : Nat := shape.foldl (· * ·) 1

end Grid

namespace Datum

variable {α : Type}

/-- How many dimensions an array can have. -/
def maxDimensions : Nat := 64

mutual

/-- Lay a datum out as a rectangle, however deep it is nested. -/
def spread : Input α → Option (Grid α)
  | list _ xs | tuple _ xs => (spreadAll xs).bind Grid.stack
  | array _ _ k shape cells => some ⟨some k, shape, cells⟩
  | atom s a => some (.single a.kind (atom s a))
  | element s k a => some (.single k (element s k a))
  | thing s o =>
    match o.members with
    | some keys => some (.ofKeys keys)
    | none => some (.single .loose (thing s o))
  | d => some (.single .loose d)

/-- Lay out the members of a sequence. -/
def spreadAll : List (Input α) → Option (List (Grid α))
  | [] => some []
  | d :: ds => do
    let g ← spread d
    let gs ← spreadAll ds
    pure (g :: gs)

end

/-- A datum as a rectangle; none if nested sequences are not rectangular or too
deep. -/
def grid (d : Input α) : Option (Grid α) :=
  (spread d).bind fun g => if g.shape.length ≤ maxDimensions then some g else none

/-- The element of an array as a bare atom. -/
def bare : Input α → Input α
  | element _ _ a => atom 0 a
  | d => d

end Datum

/-- The cells of a rectangle among loose ones: elements of arrays are no longer
told from other data, but loose cells stay as they are. -/
def Grid.looseCells {α : Type} (g : Grid α) : List (Input α) :=
  if g.kind = .loose then g.cells else g.cells.map Datum.bare

/-- A datum read as an array. -/
inductive ArrayView (α : Type) where
  | numbers (a : Numeric NdArray α)
  | texts (g : Grid α)
  | loose (g : Grid α)

namespace ArrayView

variable {α : Type}

/-- The shape of the array. -/
def shape : ArrayView α → List Nat
  | numbers a => a.dims
  | texts g => g.shape
  | loose g => g.shape

variable [Scalar α]

/-- A rectangle as an array. -/
def ofGrid (g : Grid α) : ArrayView α :=
  match g.kind with
  | .text => texts g
  | .loose => loose g
  | .complex => numbers (.complex ⟨g.shape, (g.cells.map fun d => d.toAtom.toCplx).toArray⟩)
  | _ => numbers (.real ⟨g.shape, (g.cells.map fun d => d.toAtom.toReal).toArray⟩)

end ArrayView

/-- A datum as an array; none if it is not rectangular. -/
def Datum.toArray {α : Type} [Scalar α] (d : Input α) : Option (ArrayView α) :=
  d.grid.map .ofGrid

end ConicModel
