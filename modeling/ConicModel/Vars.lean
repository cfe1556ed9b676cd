/-
The changing part of decision variables.

A variable starts free, without a value.  Assigning gives it a value, fixing
makes everything treat it as a constant, freeing turns it back into a decision
variable and keeps the value.  All of this is in its `VarState`; `Vars` has one
for each variable, in the order in which the variables were made, and one for a
stand-in that was told to be constant.
-/
import ConicModel.Datum

namespace ConicModel

/-- What can stand in the list attached to a variable.  The library attaches
constraints; whoever edits the list by hand may put anything there. -/
inductive Attached (α : Type) where
  | node (n : Node α)
  /-- Something without an identity. -/
  | foreign (d : Input α)

namespace Attached

variable {α : Type}

/-- The identity of an attached item; something foreign has none. -/
def id? : Attached α → Option Id
  | node n => some n.id
  | foreign _ => none

/-- A datum as an attached item. -/
def ofInput : Input α → Attached α
  | .thing _ (.expr e) => node (.expr e)
  | .thing _ (.constraint c) => node (.constraint c)
  | d => foreign d

/-- An attached item as a datum. -/
def toInput : Attached α → Input α
  | node n => n.toInput
  | foreign d => d

end Attached

/-- A stored value.  A bare number is kept apart from a one-by-one matrix: both
can be assigned to a scalar variable, and each is given back as it was. -/
inductive Value (α : Type) where
  | number (z : Number α)
  | matrix (A : Numeric Dense α)

namespace Value

variable {α : Type}

/-- The value as a matrix; a number is one-by-one. -/
def toMatrix : Value α → Numeric Dense α
  | number (.real x) => .real (.replicate 1 1 x)
  | number (.complex z) => .complex (.replicate 1 1 z)
  | matrix A => A

end Value

/-- What may change about a variable. -/
structure VarState (α : Type) where
  value : Option (Value α) := none
  fixed : Bool := false
  sign : Sign := .noSign
  kind : VarKind := .continuous
  attached : List (Attached α) := []

/-- The states of all variables, by identity. -/
abbrev Vars (α : Type) := Table (VarState α)

namespace Vars

variable {α : Type}

/-- The state of a variable. -/
def state (vars : Vars α) (x : Variable) : VarState α := (vars.get? x.id).getD {}

/-- Whether what has this identity is held constant. -/
def isHeld (vars : Vars α) (i : Id) : Bool := (vars.get? i).any (·.fixed)

/-- Hold what has this identity constant, without asking for a value. -/
def hold (vars : Vars α) (i : Id) : Vars α :=
  if vars.has i then vars.update i fun s => { s with fixed := true }
  else vars.push i { fixed := true }

end Vars

/-- A variable is affine, or constant while it is fixed. -/
def VarState.curvature {α : Type} (s : VarState α) : Curvature :=
  if s.fixed then .constant else .affine

namespace Expr

variable {α : Type}

/-- The sign of an expression. -/
def sign (vars : Vars α) : Expr α → Sign
  | var x => (vars.state x).sign
  | const c => c.sign
  | kron _ a b => (sign vars a).mul (sign vars b)
  | stub s => s.sign

/-- How many entries of a solution vector an expression takes: its real parts, and
after them its imaginary parts if it is complex. -/
def width (vars : Vars α) (e : Expr α) : Nat :=
  if e.sign vars = .complex then 2 * e.length else e.length

/-- The curvature of an expression, with the doubts met.  A product whose left
operand is not constant at this moment is certified as nothing; that operand may
have been freed since the product was made.  A stand-in that is held counts as
constant whatever its curvature. -/
def verdict (vars : Vars α) : Expr α → Verdict
  | var x => ⟨(vars.state x).curvature, []⟩
  | const _ => ⟨.constant, []⟩
  | kron _ a b =>
    (verdict vars a).andThen fun va =>
      if va = .constant then
        (verdict vars b).andThen fun vb =>
          if vb = .constant then ⟨.constant, []⟩ else vb.scale (a.sign vars)
      else .notDcp .nonconstantLeft
  | stub s => ⟨if vars.isHeld s.id then .constant else s.curvature, []⟩

/-- The curvature of an expression. -/
def curvature (vars : Vars α) (e : Expr α) : Curvature := (e.verdict vars).curvature

/-- The constraints attached to an expression; only variables have any. -/
def attached (vars : Vars α) : Expr α → List (Attached α)
  | var x => (vars.state x).attached
  | _ => []

end Expr

namespace Constraint

variable {α : Type}

/-- Whether one of the sides is complex. -/
def isComplex (vars : Vars α) (c : Constraint α) : Bool :=
  decide (c.lhs.sign vars = .complex) || decide (c.rhs.sign vars = .complex)

/-- The curvature of `x - y`. -/
def differenceVerdict (vars : Vars α) (x y : Expr α) : Verdict :=
  (x.verdict vars).andThen fun vx => (y.verdict vars).andThen fun vy => vx.add vy.negate

/-- The verdict on a constraint.  An inequality asks that its smaller side minus
its larger side is convex, an equality and a semidefinite constraint that the
difference is affine. -/
def verdict (vars : Vars α) (c : Constraint α) : Verdict :=
  match c.relation with
  | .atLeast => inequality (differenceVerdict vars c.rhs c.lhs)
  | .atMost => inequality (differenceVerdict vars c.lhs c.rhs)
  | .equal => (differenceVerdict vars c.lhs c.rhs).andThen fun v =>
      match v with
      | .convex | .concave => .notDcp (.curvedEquality v)
      | v => ⟨v, []⟩
  | .semidefinite => (differenceVerdict vars c.lhs c.rhs).andThen fun v =>
      match v with
      | .affine | .constant => ⟨v, []⟩
      | v => .notDcp (.curvedSemidefinite v)
where
  inequality (gap : Verdict) : Verdict :=
    gap.andThen fun v => if v = .concave then .notDcp .concaveGap else ⟨v, []⟩

end Constraint

/-! ## Evaluation -/

/-- Why an expression has no value. -/
inductive Unvalued where
  /-- A variable below it has no value. -/
  | unset
  /-- A stand-in below it has none at all. -/
  | stub
deriving DecidableEq

namespace Expr

variable {α : Type}

/-- The value of an expression, from the values stored in its variables. -/
def evaluate [Entry α] (vars : Vars α) : Expr α → Except Unvalued (Value α)
  | var x =>
    match (vars.state x).value with
    | some v => .ok v
    | none => .error .unset
  | const c => .ok (.matrix c.value)
  | kron _ a b => do
    let va ← evaluate vars a
    let vb ← evaluate vars b
    pure (.matrix (va.toMatrix.map₂ Dense.kron vb.toMatrix))
  | stub _ => .error .stub

end Expr

/-! ## Written forms -/

/-- The written form of a shape. -/
def shapeText : Nat × Nat → String
  | (r, c) => s!"({r}, {c})"

/-- The class shown for an expression. -/
def Expr.className {α : Type} : Expr α → String
  | var _ => "Variable"
  | const _ => "Constant"
  | kron .. => "Kron"
  | stub _ => "Stub"

/-- How an expression is shown. -/
def Expr.text {α : Type} (vars : Vars α) (e : Expr α) : String :=
  s!"{e.className}(id={e.id}, shape={shapeText e.shape}, " ++
    s!"vexity={(e.curvature vars).text}, sign={(e.sign vars).text})"

/-- The class shown for a relation. -/
def Relation.className : Relation → String
  | atLeast => "GtConstraint"
  | atMost => "LtConstraint"
  | equal => "EqConstraint"
  | semidefinite => "SDPConstraint"

/-- How a constraint is shown. -/
def Constraint.text {α : Type} (c : Constraint α) : String :=
  s!"{c.relation.className}(id={c.id}, shape={shapeText c.shape})"

end ConicModel
