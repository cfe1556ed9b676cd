/-
Making constants, products and constraints.

Every node takes its identity from the ledger, and the order in which it does so
is part of the behaviour, also where construction fails afterwards: a constraint
takes its identity before its operands are promoted, a Kronecker product after,
and spreading a scalar constant over a shape makes a second constant.
-/
import ConicModel.Datum.Grid
import ConicModel.Datum.Quoting

namespace ConicModel

variable {α : Type} [Scalar α]

/-- A constant from data.  A number is one-by-one, a vector is a column, and the
sign is inferred unless it is given. -/
def makeConstant (vars : Vars α) (d : Input α) (sign : Option Sign := none) :
    Make α (Constant α) := do
  let id ← Make.freshId
  match d with
  | .thing _ (.expr e) =>
    let _ ← Make.trust (e.verdict vars)
    throw (.constantOfExpr (e.text vars))
  | d =>
    match ← Make.ofOption (.mishap .content) d.toArray with
    | .numbers a =>
      let A ← Make.ofOption (.constantShape a.dims) (a.map? NdArray.toColumns?)
      pure ⟨id, A, sign.getD (Sign.ofMatrix A)⟩
    | _ => throw (.constantNotNumeric (← d.quote vars))

/-- An operand as an expression: expressions are passed through, numbers, sequences
and arrays become constants. -/
def asExpr (vars : Vars α) (d : Input α) : Make α (Expr α) :=
  match d with
  | .thing _ (.expr e) => pure e
  | .atom _ .null | .atom _ (.text _) | .sparse .. | .mapping .. | .record .. | .thing .. =>
    throw (.notExpression d.className)
  | d => .const <$> makeConstant vars d

/-- The Kronecker product of two operands. -/
def makeKron (vars : Vars α) (a b : Input α) : Make α (Expr α) := do
  let a ← asExpr vars a
  let b ← asExpr vars b
  let id ← Make.freshId
  if (← Make.trust (a.verdict vars)) = .constant then pure (.kron id a b) else throw .kronLeft

/-- A scalar constant spread over a shape; its sign goes along. -/
def Constant.spread (c : Constant α) (shape : Nat × Nat) : Make α (Constant α) := do
  let id ← Make.freshId
  pure ⟨id, c.value.map fun A => .replicate shape.1 shape.2 A.head, c.sign⟩

/-- Bring two operands to one shape.  A scalar constant is spread over the shape
of the other operand; the right operand is tried first. -/
def broadcast (l r : Expr α) : Make α (Expr α × Expr α) :=
  if l.shape = r.shape then pure (l, r)
  else
    match l, r with
    | l, .const c =>
      if c.shape = (1, 1) then do pure (l, .const (← c.spread l.shape))
      else
        match l with
        | .const b => if b.shape = (1, 1) then do pure (.const (← b.spread c.shape), .const c)
          else throw (.sidesDiffer l.shape c.shape)
        | _ => throw (.sidesDiffer l.shape c.shape)
    | .const b, r =>
      if b.shape = (1, 1) then do pure (.const (← b.spread r.shape), r)
      else throw (.sidesDiffer b.shape r.shape)
    | l, r => throw (.sidesDiffer l.shape r.shape)

/-- Check the sides of a constraint: inequalities are between real sides, and
semidefinite constraints between square ones. -/
def checkSides (vars : Vars α) (c : Constraint α) : Make α (Constraint α) :=
  match c.relation with
  | .atLeast | .atMost => if c.isComplex vars then throw .complexInequality else pure c
  | .equal => pure c
  | .semidefinite =>
    if c.shape.1 = c.shape.2 then pure c else throw (.sidesNotSquare c.shape)

/-- A constraint between two operands. -/
def makeConstraint (vars : Vars α) (relation : Relation) (lhs rhs : Input α) :
    Make α (Constraint α) := do
  let id ← Make.freshId
  let l ← asExpr vars lhs
  let r ← asExpr vars rhs
  let (l, r) ← broadcast l r
  checkSides vars ⟨id, relation, l, r⟩

/-- The constraint that a sign stands for: `d ≥ 0` or `d ≤ 0`. -/
def constraintOfSign (vars : Vars α) (sign : Sign) (d : Input α) : Make α (Constraint α) :=
  match sign with
  | .positive => makeConstraint vars .atLeast d (.ofInt 0)
  | .negative => makeConstraint vars .atMost d (.ofInt 0)
  | s => throw (.signWithoutConstraint s)

/-- The constraint that the sign of an expression stands for. -/
def signConstraint (vars : Vars α) (x : Expr α) : Make α (Constraint α) :=
  constraintOfSign vars (x.sign vars) (.thing 0 (.expr x))

end ConicModel
