/-
Objectives: sparse affine maps from decision variables to flattened entries.

An objective says how the column-major entries of an expression depend on the
variables,

    vec e = Σ_v (R_v · vec (re v) + I_v · vec (im v)) + c,

with one entry `(R_v, I_v)` under the identity of each variable and the offset
`(re c, im c)` as a column under `constantKey`.  Identities start at one, so the
key of the constant is none of them.  `I_v` already carries the imaginary unit.

Entries are written once.  Setting an entry checks three things in this order:
the key is new, both parts have one shape, and the rows agree with the entries
already there.  Sums and products make new objectives and keep the order of
entries: those of the left operand, then what the right one adds.
-/
import ConicModel.Matrix.Coeffs
import ConicModel.Table

namespace ConicModel

/-- The key of the constant entry. -/
def constantKey : Id := 0

/-- One entry of an objective: the coefficients of a variable's real part and of
its imaginary part. -/
structure Part (α : Type) where
  real : Coeffs α
  imag : Coeffs α

/-- A sparse affine map, one entry per variable and one for the constant. -/
structure Objective (α : Type) where
  entries : Table (Part α) := []

/-- Why an operation on objectives is refused. -/
inductive ObjectiveFault where
  /-- The key has an entry already. -/
  | taken (key : Id)
  /-- The two parts of an entry differ in shape. -/
  | partsDiffer (real imag : Nat × Nat)
  /-- The rows of an entry differ from those of the objective. -/
  | rowsDiffer (key : Id) (found expected : Nat)
  /-- Two objectives with different rows. -/
  | sumRows (left right : Nat)
  /-- Two entries under one key with different columns. -/
  | sumColumns
  /-- A matrix whose columns do not match the rows. -/
  | premultiply (rows : Nat) (shape : Nat × Nat)
  /-- No entry under the key. -/
  | missing (key : Id)
deriving DecidableEq

namespace Part

variable {α : Type} [Entry α]

/-- Change the sign of both parts. -/
def neg (p : Part α) : Part α := ⟨Coeffs.neg p.real, Coeffs.neg p.imag⟩

/-- The sum of two parts of one shape. -/
def add? (p q : Part α) : Option (Part α) := do
  pure ⟨← Coeffs.add? p.real q.real, ← Coeffs.add? p.imag q.imag⟩

/-- A matrix times both parts. -/
def premultiply (M : Coeffs α) (p : Part α) : Part α :=
  ⟨Coeffs.mul M p.real, Coeffs.mul M p.imag⟩

/-- A complex matrix times the offset `re + i·im`, split again. -/
def premultiplyJoined (M : Sparse (Cplx α)) (p : Part α) : Part α :=
  let offset := M.mul (Coeffs.join p.real p.imag)
  ⟨Coeffs.realPart offset, Coeffs.imagPart offset⟩

end Part

namespace Objective

variable {α : Type}

/-- The objective without entries. -/
def empty : Objective α := {}

/-- The common number of rows; none if there is no entry. -/
def rows (o : Objective α) : Option Nat := o.entries.head?.map fun e => Coeffs.rows e.2.real

/-- The keys in entry order. -/
def keys (o : Objective α) : List Id := o.entries.ids

/-- The keys other than the constant's. -/
def variableIds (o : Objective α) : List Id := o.keys.filter (· != constantKey)

/-- The entry under a key. -/
def get? (o : Objective α) (key : Id) : Option (Part α) := o.entries.get? key

/-- Add an entry. -/
def set (o : Objective α) (key : Id) (p : Part α) : Except ObjectiveFault (Objective α) :=
  if o.entries.has key then .error (.taken key)
  else if Coeffs.shape p.real ≠ Coeffs.shape p.imag then
    .error (.partsDiffer (Coeffs.shape p.real) (Coeffs.shape p.imag))
  else
    match o.rows with
    | some n =>
      if Coeffs.rows p.real = n then .ok ⟨o.entries.push key p⟩
      else .error (.rowsDiffer key (Coeffs.rows p.real) n)
    | none => .ok ⟨o.entries.push key p⟩

/-- The objective with the given entries, set one after the other. -/
def ofEntries (es : Table (Part α)) : Except ObjectiveFault (Objective α) :=
  es.foldlM (fun o e => o.set e.1 e.2) empty

variable [Entry α]

/-- The entry of a sum under a key that the left operand has with part `p`. -/
def sumEntry (b : Objective α) (key : Id) (p : Part α) : Except ObjectiveFault (Id × Part α) :=
  match b.get? key with
  | none => .ok (key, p)
  | some q =>
    match p.add? q with
    | some s => .ok (key, s)
    | none => .error .sumColumns

/-- The sum: entries of `a`, added to those of `b` under the same key, then the
entries that only `b` has. -/
def add (a b : Objective α) : Except ObjectiveFault (Objective α) :=
  match a.rows, b.rows with
  | some m, some n =>
    if m = n then do
      let shared ← a.entries.mapM fun e => sumEntry b e.1 e.2
      ofEntries (shared ++ b.entries.filter fun e => !a.entries.has e.1)
    else .error (.sumRows m n)
  | _, _ => ofEntries (a.entries ++ b.entries)

/-- Change the sign of every entry. -/
def neg (o : Objective α) : Objective α := ⟨o.entries.map fun e => (e.1, e.2.neg)⟩

/-- The difference `a + (-b)`. -/
def sub (a b : Objective α) : Except ObjectiveFault (Objective α) := a.add b.neg

/-- The entry of `M · o` that comes from an entry of `o`.  A complex matrix mixes
the two parts of the constant, so they are joined first and split afterwards. -/
def premultiplyEntry (M : Coeffs α) (key : Id) (p : Part α) : Part α :=
  match M with
  | .complex C => if key = constantKey then p.premultiplyJoined C else p.premultiply M
  | .real _ => p.premultiply M

/-- The objective of `M · vec e` for a constant matrix `M`. -/
def premultiply (o : Objective α) (M : Coeffs α) : Except ObjectiveFault (Objective α) :=
  match o.rows with
  | some n =>
    if Coeffs.cols M = n then ofEntries (o.entries.map fun e => (e.1, premultiplyEntry M e.1 e.2))
    else .error (.premultiply n (Coeffs.shape M))
  | none => .ok empty

/-- The objective of a constant column. -/
def ofColumn : Numeric Dense α → Objective α
  | .real A => ⟨[(constantKey, ⟨.real (.ofDense A), .zeros A.rows A.cols⟩)]⟩
  | .complex A =>
    ⟨[(constantKey, ⟨.real (.ofDense (A.map Cplx.re)), .real (.ofDense (A.map Cplx.im))⟩)]⟩

/-- The objective of a constant matrix: one constant entry that holds its
column-major flattening. -/
def ofConstant (A : Numeric Dense α) : Objective α := ofColumn (A.map Dense.vec)

/-- The offset as a flat array, row by row.  It is complex when the real part is,
or as soon as anything is stored in the imaginary part. -/
def offset (o : Objective α) : Numeric Array α :=
  match o.get? constantKey with
  | none => .real (Array.replicate (o.rows.getD 0) 0)
  | some p =>
    if Coeffs.stored p.imag = 0 then
      match p.real with
      | .real A => .real A.toDense.data
      | .complex A => .complex A.toDense.data
    else
      let im := p.imag.toComplex.toDense.map (Cplx.I * ·)
      .complex (Array.zipWith (· + ·) p.real.toComplex.toDense.data im.data)

end Objective

/-! ## Written forms -/

/-- How a key is listed. -/
def Objective.keyText (key : Id) : String :=
  if key = constantKey then "constant" else toString key

/-- How an objective is shown: its rows and its keys. -/
def Objective.text {α : Type} (o : Objective α) : String :=
  let rows := match o.rows with
    | some n => toString n
    | none => "None"
  let keys := ", ".intercalate (o.keys.map keyText)
  s!"ConicObjective(rows={rows}, keys=[{keys}])"

end ConicModel
