/-
Room for what a session makes.

No size is too large for an expression, a constraint or a compilation.  A session
runs in some memory, though, and looks for room before it makes any of them.  It
looks for what a variable alone can make large, which takes up no room itself: the
scalar constant that is spread over its shape on the other side of a constraint, and
the identity that it is compiled to while it is free.

A constraint that is refused here has taken the identities it would have taken.  A
compilation that is refused here has not begun.
-/
import ConicModel.Compile
import ConicModel.Extent
import ConicModel.Model

namespace ConicModel

variable {α : Type}

/-! ## Sides of constraints -/

/-- Look for room for an expression that is brought to a shape.  Only a scalar
constant is spread. -/
def Expr.fitOver (shape : Nat × Nat) : Expr α → Except Mishap Unit
  | const c =>
    if c.shape = (1, 1) then
      Extent.check [shape.1, shape.2] (if c.value.isComplex then 16 else 8)
    else .ok ()
  | _ => .ok ()

/-- Look for room for two operands that are brought to one shape. -/
def Expr.fitTogether (l r : Expr α) : Except Mishap Unit := do
  if l.shape ≠ r.shape then
    l.fitOver r.shape
    r.fitOver l.shape

variable [Scalar α]

/-- Look for room for the sides of a constraint.  Identities are taken only if there
is none; what is wrong with the operands themselves is left to the constraint. -/
def fitSides (vars : Vars α) (l r : Input α) : Make α Unit := fun ledger =>
  let operands : Make α (Expr α × Expr α) := do
    let _ ← Make.freshId
    pure (← asExpr vars l, ← asExpr vars r)
  match operands ledger with
  | .ok (l, r) after =>
    match l.fitTogether r with
    | .ok _ => .ok () ledger
    | .error m => .error (.mishap m) after
  | .error .. => .ok () ledger

/-- Look for room for the zero that a sign is stated with. -/
def fitSign (vars : Vars α) (sign : Sign) (d : Input α) : Make α Unit :=
  if sign.isOneSided then fitSides vars d (.ofInt 0) else pure ()

/-- Look for room for the zero that a semidefinite variable is compared with. -/
def fitSemidefinite (shape : Input α) : Except Mishap Unit :=
  match Variable.normalizeShape shape with
  | .ok (rows, cols) => Extent.check [rows, cols] 8
  | .error _ => .ok ()

/-! ## Compilations -/

omit [Scalar α] in
/-- Look for room for the identities of the free variables that a walk comes to, in
the order in which it does.  Where the walk is refused, the search ends. -/
def fitWalk (vars : Vars α) : Nat → List Id → List (Attached α) → Except Mishap Unit
  | 0, _, _ | _, _, [] | _, _, .foreign _ :: _ => .ok ()
  | n + 1, seen, .node m :: rest =>
    if seen.contains m.id then fitWalk vars n seen rest
    else
      match m with
      | .constraint c =>
        fitWalk vars n (c.id :: seen) (.node (.expr c.lhs) :: .node (.expr c.rhs) :: rest)
      | .expr (.const _) => fitWalk vars n seen rest
      | .expr (.kron id a b) =>
        if a.curvature vars = .constant then fitWalk vars n (id :: seen) (.node (.expr b) :: rest)
        else .ok ()
      | .expr (.stub s) => do
        Extent.checkIdentity (s.rows * s.cols)
        fitWalk vars n (s.id :: seen) rest
      | .expr (.var x) =>
        if (vars.state x).fixed then fitWalk vars n seen rest
        else do
          Extent.checkIdentity (x.rows * x.cols)
          fitWalk vars n (x.id :: seen) ((vars.state x).attached ++ rest)

omit [Scalar α] in
/-- Look for room for the compilation of nodes into a cache.  A node has at most two
below it, and each is gone into once. -/
def fitCompilation {κ ρ : Type} (vars : Vars α) (cache : Cache κ ρ) (roots : List (Node α)) :
    Except Mishap Unit :=
  let roots := roots.map Attached.node
  let items := roots ++ vars.flatMap fun e => e.2.attached
  let steps := items.foldl (fun n item => n + 2 * item.depth) 0
  fitWalk vars steps (cache.exprs.ids ++ cache.constraints.ids) roots

end ConicModel
