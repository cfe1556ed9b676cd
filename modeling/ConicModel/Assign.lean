/-
Assigning values to variables.

What a variable accepts depends on its shape and its sign alone.  The shape is
looked at first: a number fits a scalar variable, a vector fits a column of its
length, a matrix fits its own shape.  Then the elements have to be numbers, and
for a real sign they must have no imaginary part.  An accepted value is stored
with the elements the variable has at that moment; a later change of sign does
not touch it.  A refused value changes nothing.
-/
import ConicModel.Datum.Grid
import ConicModel.Datum.Quoting

namespace ConicModel

/-- Why a value is not accepted. -/
inductive Refusal where
  /-- A nested sequence that is not rectangular. -/
  | ragged
  /-- A number for a variable that is not scalar. -/
  | numberForMatrix
  /-- A vector for a variable that is not a column. -/
  | vectorForMatrix
  /-- A vector of the wrong length for a column. -/
  | vectorLength (found : Nat)
  /-- An array of the wrong shape. -/
  | arrayShape (found : List Nat)
  /-- Something else than numbers. -/
  | notNumeric
  /-- Imaginary parts under a real sign. -/
  | complex
deriving DecidableEq

section

variable {F : Type → Type} [Functor F] {α : Type} [Scalar α]

/-- Convert elements for a sign.  A complex sign makes them complex; any other
sign asks that every imaginary part is zero and drops it. -/
def Numeric.convert (sign : Sign) (isReal : F (Cplx α) → Bool) (x : Numeric F α) :
    Except Refusal (Numeric F α) :=
  if sign = .complex then .ok (.complex x.toComplex)
  else
    match x with
    | .real x => .ok (.real x)
    | .complex z => if isReal z then .ok (.real (Cplx.re <$> z)) else .error .complex

end

namespace Variable

variable {α : Type} [Scalar α]

/-- The entries of an array as a matrix of the variable's shape. -/
def lay (x : Variable) (a : Numeric NdArray α) : Numeric Dense α :=
  a.map fun a => .ofRowMajor x.rows x.cols a.data

/-- The single element of an array without dimensions. -/
def single (a : Numeric NdArray α) : Number α :=
  match a with
  | .real a => .real (a.data.getD 0 0 : α)
  | .complex a => .complex (a.data.getD 0 0 : Cplx α)

/-- Whether an array of a shape fits, whatever its elements. -/
def fits (x : Variable) (shape : List Nat) : Except Refusal Unit :=
  match shape with
  | [] => if x.rows = 1 ∧ x.cols = 1 then .ok () else .error .numberForMatrix
  | [n] =>
    if x.cols ≠ 1 then .error .vectorForMatrix
    else if x.rows ≠ n then .error (.vectorLength n)
    else .ok ()
  | s => if s = [x.rows, x.cols] then .ok () else .error (.arrayShape s)

/-- The value stored when a fitting array is assigned under a sign. -/
def store (x : Variable) (sign : Sign) : ArrayView α → Except Refusal (Value α)
  | .numbers a =>
    if a.dims = [] then
      .number <$> (single a).convert sign fun z : Cplx α => isZero z.im
    else .matrix <$> (x.lay a).convert sign fun A => A.all fun z => isZero z.im
  | _ => .error .notNumeric

/-- The value stored when a datum is assigned under a sign. -/
def accept (x : Variable) (sign : Sign) (d : Input α) : Except Refusal (Value α) :=
  match d with
  | .sparse .. => .error (.arrayShape [])
  | d =>
    match d.toArray with
    | none => .error .ragged
    | some a => do
      x.fits a.shape
      x.store sign a

/-- A datum that was refused, as it is shown: everything with dimensions has been
laid out as an array of the variable's shape. -/
def shown (x : Variable) (d : Input α) : Input α :=
  match d.grid with
  | some g => if g.shape = [] then d else .array 0 false g.kind [x.rows, x.cols] g.cells
  | none => d

end Variable

namespace Vars

variable {α : Type} [Scalar α]

/-- Change the state of a variable. -/
def change (vars : Vars α) (x : Variable) (f : VarState α → VarState α) : Vars α :=
  vars.update x.id f

/-- The refusal of a datum as a fault, with the datum quoted if it is no number. -/
def refuse (vars : Vars α) (x : Variable) (d : Input α) : Refusal → Make α (Value α)
  | .ragged => throw (.mishap .content)
  | .numberForMatrix => throw (.numberForMatrix (x.rows, x.cols))
  | .vectorForMatrix => throw (.vectorForMatrix (x.rows, x.cols))
  | .vectorLength n => throw (.vectorLength (x.rows, x.cols) n)
  | .arrayShape s => throw (.arrayShape (x.rows, x.cols) s)
  | .notNumeric => do throw (.valueNotNumeric (← (x.shown d).quote vars))
  | .complex => throw (.valueComplex (vars.state x).sign)

/-- Assign a value to a variable. -/
def assign (vars : Vars α) (x : Variable) (d : Input α) : Make α (Vars α) := do
  let v ← match x.accept (vars.state x).sign d with
    | .ok v => pure v
    | .error r => refuse vars x d r
  pure (vars.change x fun s => { s with value := some v })

/-- Hold a variable at its value, so that it counts as a constant. -/
def fix (vars : Vars α) (x : Variable) : Make α (Vars α) :=
  if (vars.state x).value.isNone then throw .fixUnvalued
  else pure (vars.change x fun s => { s with fixed := true })

/-- Assign a value and hold the variable at it. -/
def fixAt (vars : Vars α) (x : Variable) (d : Input α) : Make α (Vars α) := do
  (← vars.assign x d).fix x

/-- Turn a variable into a decision variable again; the value stays. -/
def free (vars : Vars α) (x : Variable) : Vars α :=
  vars.change x fun s => { s with fixed := false }

end Vars

end ConicModel
