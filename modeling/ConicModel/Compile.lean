/-
Compiling expressions and constraints, once per cache.

A cache is the memory of one compilation pass: what was compiled of every
expression, what was lowered of every constraint, and the latter once more in the
order in which it was found.  Compiling an expression first looks it up.  A free
variable is entered before the constraints of its sign and its attached list are
lowered, because those may lead back to it; a Kronecker product and a constraint
may be entered by such a detour while their operands are compiled, so both look
themselves up a second time before they enter anything.  What stands in an
attached list without an identity cannot be lowered, and the walk stops there.

Expressions compile to objectives and constraints to records.  A cache that was
filled by hand may hold something else in their place, so the walk is written
over what it computes with (`Compiled`): it needs the objectives of leaves, a
difference, a change of sign, and a product with a matrix.

Models can be cyclic, so the walk (`walkExpr`, `walkConstraint`) carries a bound
on its depth.  Between two free variables it only goes down expressions, and a
free variable that has been entered is not walked again; `depthBound` is
therefore enough, and `compileExpr` and `compileConstraint` run the walk with
it.
-/
import ConicModel.Construction
import ConicModel.Matrix.Kronecker

namespace ConicModel

/-- What a compilation computes with: `κ` stands for expressions, `ρ` for lowered
constraints. -/
class Compiled (α : outParam Type) (κ : Type) (ρ : outParam Type) where
  /-- An objective as what it is entered as. -/
  ofObjective : Objective α → κ
  /-- The difference. -/
  sub : κ → κ → Except (Fault α) κ
  /-- The sign changed. -/
  neg : κ → Except (Fault α) κ
  /-- The product with a matrix from the left, if there are products at all. -/
  premultiply : κ → Except (Fault α) (Coeffs α → Except (Fault α) κ)
  /-- A lowered constraint. -/
  record : κ → Cone → Int → ρ

instance {α : Type} [Entry α] : Compiled α (Objective α) (Record α) where
  ofObjective o := o
  sub a b := (a.sub b).mapError .objective
  neg o := .ok o.neg
  premultiply o := .ok fun M => (o.premultiply M).mapError .objective
  record o cone size := ⟨o, cone, size⟩

/-- The memory of one compilation pass. -/
structure Cache (κ ρ : Type) where
  exprs : Table κ := []
  constraints : Table ρ := []
  /-- What was lowered, in the order in which it was found. -/
  records : List ρ := []

namespace Cache

variable {α κ ρ : Type}

/-- Enter what was compiled of an expression. -/
def putExpr (c : Cache κ ρ) (id : Id) (o : κ) : Except (Fault α) (Cache κ ρ) :=
  if c.exprs.has id then .error (.cachedExpr id) else .ok { c with exprs := c.exprs.push id o }

/-- Enter what was lowered of a constraint. -/
def putConstraint (c : Cache κ ρ) (id : Id) (r : ρ) : Except (Fault α) (Cache κ ρ) :=
  if c.constraints.has id then .error (.cachedConstraint id)
  else .ok { c with constraints := c.constraints.push id r, records := c.records ++ [r] }

end Cache

/-- What a compilation pass changes. -/
structure Pass (κ ρ : Type) where
  ledger : Ledger := {}
  cache : Cache κ ρ := {}

/-- Why a walk stops early: for a cause, or because its depth was used up. -/
inductive Halt (α : Type) where
  | fault (f : Fault α)
  | depth

/-- A part of a compilation pass. -/
abbrev Walk (α κ ρ : Type) := EStateM (Halt α) (Pass κ ρ)

namespace Walk

variable {α κ ρ β : Type}

/-- Stop for a cause. -/
def refuse (f : Fault α) : Walk α κ ρ β := throw (.fault f)

/-- Make something on the way. -/
def make (m : Make α β) : Walk α κ ρ β := fun p =>
  match m p.ledger with
  | .ok x l => .ok x { p with ledger := l }
  | .error f l => .error (.fault f) { p with ledger := l }

/-- Take a result, or stop for its reason. -/
def ofExcept {ε : Type} (why : ε → Fault α) : Except ε β → Walk α κ ρ β
  | .ok x => pure x
  | .error e => refuse (why e)

/-- What was entered for an expression. -/
def lookExpr (id : Id) : Walk α κ ρ (Option κ) := fun p =>
  .ok (p.cache.exprs.get? id) p

/-- What was entered for a constraint. -/
def lookConstraint (id : Id) : Walk α κ ρ (Option ρ) := fun p =>
  .ok (p.cache.constraints.get? id) p

/-- Enter something for an expression and go on with it. -/
def enterExpr (id : Id) (o : κ) : Walk α κ ρ κ := fun p =>
  match p.cache.putExpr id o with
  | .ok c => .ok o { p with cache := c }
  | .error f => .error (.fault f) p

/-- Enter something for a constraint and go on with it. -/
def enterConstraint (id : Id) (r : ρ) : Walk α κ ρ ρ := fun p =>
  match p.cache.putConstraint id r with
  | .ok c => .ok r { p with cache := c }
  | .error f => .error (.fault f) p

end Walk

variable {α : Type} [Scalar α]

/-- The objective of a free variable: the identity on its real part, `i` times
the identity on its imaginary part if it is complex, and no offset. -/
def Objective.ofVariable (x : Variable) (sign : Sign) : Objective α :=
  let n := x.rows * x.cols
  let imag : Coeffs α :=
    if sign = .complex then .complex ((Sparse.identity n).map (Cplx.I * ·)) else .zeros n n
  ⟨[(x.id, ⟨.identity n, imag⟩), (constantKey, ⟨.zeros n 1, .zeros n 1⟩)]⟩

/-- The objective of a stand-in: the identity under its own identity. -/
def Objective.ofStub (s : Stub) : Objective α :=
  let n := s.rows * s.cols
  ⟨[(s.id, ⟨.identity n, .zeros n n⟩)]⟩

/-- The cone of a constraint. -/
def Constraint.cone (vars : Vars α) (c : Constraint α) : Cone :=
  match c.relation with
  | .atLeast | .atMost => .nonneg
  | .equal => .zero
  | .semidefinite => if c.isComplex vars then .hermitian else .semidefinite

variable {κ ρ : Type} [Compiled α κ ρ]

/-- What is lowered of a constraint whose difference is known. -/
def Constraint.lower (vars : Vars α) (c : Constraint α) (difference : κ) :
    Except (Fault α) ρ := do
  let o ← if c.relation = .atMost then Compiled.neg difference else .ok difference
  pure (Compiled.record o (c.cone vars) c.size)

/-- Enter an expression by its value. -/
def walkConstant (vars : Vars α) (e : Expr α) : Walk α κ ρ κ := do
  let v ← Walk.ofExcept .unvalued (e.evaluate vars)
  Walk.enterExpr e.id (Compiled.ofObjective (.ofConstant v.toMatrix))

/-- Whether a sign stands for a constraint. -/
def Sign.isOneSided : Sign → Bool
  | positive | negative => true
  | noSign | complex => false

mutual

/-- Compile an expression within a depth. -/
def walkExpr (vars : Vars α) : Nat → Expr α → Walk α κ ρ κ
  | 0, _ => throw .depth
  | n + 1, e => do
    match ← Walk.lookExpr e.id with
    | some o => pure o
    | none =>
      match e with
      | .const _ => walkConstant vars e
      | .stub s => Walk.enterExpr s.id (Compiled.ofObjective (.ofStub s))
      | .var x =>
        if (vars.state x).fixed then walkConstant vars e
        else do
          let o ← Walk.enterExpr x.id
            (Compiled.ofObjective (.ofVariable x (vars.state x).sign))
          if (vars.state x).sign.isOneSided then
            let c ← Walk.make (signConstraint vars e)
            let _ ← walkConstraint vars n c
          (vars.state x).attached.forM fun item => walkAttached vars n item
          pure o
      | .kron id a b =>
        if (← Walk.make (Make.trust (a.verdict vars))) ≠ .constant then Walk.refuse .kronLeft
        else if (← Walk.make (Make.trust (b.verdict vars))) = .constant then walkConstant vars e
        else do
          let child ← walkExpr vars n b
          match ← Walk.lookExpr id with
          | some o => pure o
          | none =>
            let times ← Walk.ofExcept (·) (Compiled.premultiply child)
            let v ← Walk.ofExcept .unvalued (a.evaluate vars)
            let K := v.toMatrix.map fun A => kroneckerOperator A b.shape.1 b.shape.2
            Walk.enterExpr id (← Walk.ofExcept (·) (times K))

/-- Lower a constraint within a depth. -/
def walkConstraint (vars : Vars α) : Nat → Constraint α → Walk α κ ρ ρ
  | 0, _ => throw .depth
  | n + 1, c => do
    match ← Walk.lookConstraint c.id with
    | some r => pure r
    | none =>
      let l ← walkExpr vars n c.lhs
      let r ← walkExpr vars n c.rhs
      let d ← Walk.ofExcept (·) (Compiled.sub l r)
      let lowered ← Walk.ofExcept (·) (c.lower vars d)
      match ← Walk.lookConstraint c.id with
      | some r => pure r
      | none => Walk.enterConstraint c.id lowered

/-- Compile an attached item within a depth. -/
def walkAttached (vars : Vars α) : Nat → Attached α → Walk α κ ρ Unit
  | 0, _ => throw .depth
  | n + 1, .node (.constraint c) => do let _ ← walkConstraint vars n c
  | n + 1, .node (.expr e) => do let _ ← walkExpr vars n e
  | _ + 1, .foreign _ => Walk.refuse (.mishap .feature)

end

/-! ## How deep a walk goes -/

/-- How far a walk goes down an expression. -/
def Expr.depth {α : Type} : Expr α → Nat
  | kron _ _ b => b.depth + 1
  | _ => 1

/-- How far a walk goes down a constraint. -/
def Constraint.depth {α : Type} (c : Constraint α) : Nat := max c.lhs.depth c.rhs.depth + 1

/-- How far a walk goes down an attached item. -/
def Attached.depth {α : Type} : Attached α → Nat
  | node (.constraint c) => c.depth + 1
  | node (.expr e) => e.depth + 1
  | foreign _ => 1

/-- How far a walk goes from one free variable to the next.  A sign constraint
takes two steps. -/
def Vars.depth {α : Type} (vars : Vars α) : Nat :=
  (vars.flatMap fun e => e.2.attached).foldl (fun n item => max n item.depth) 2

/-- A depth that suffices for a walk from something of the given depth. -/
def depthBound {α : Type} (vars : Vars α) (start : Nat) : Nat :=
  start + vars.length * (vars.depth + 1)

/-! ## Compilation -/

/-- A compilation: it may be refused, and what it changed stays changed. -/
abbrev Compile (α κ ρ : Type) := EStateM (Fault α) (Pass κ ρ)

/-- Run a walk that has depth enough. -/
def Walk.run {α κ ρ β : Type} (w : Walk α κ ρ β) : Compile α κ ρ β := fun p =>
  match w p with
  | .ok x p => .ok x p
  | .error (.fault f) p => .error f p
  | .error .depth p => .error (.mishap .range) p

/-- Compile an expression. -/
def compileExpr (vars : Vars α) (e : Expr α) : Compile α κ ρ κ :=
  (walkExpr vars (depthBound vars e.depth) e).run

/-- Lower a constraint. -/
def compileConstraint (vars : Vars α) (c : Constraint α) : Compile α κ ρ ρ :=
  (walkConstraint vars (depthBound vars c.depth) c).run

/-- Compile the left side of a constraint minus its right side. -/
def compileDifference (vars : Vars α) (c : Constraint α) : Compile α κ ρ κ := do
  let l ← compileExpr vars c.lhs
  let r ← compileExpr vars c.rhs
  match Compiled.sub l r with
  | .ok d => pure d
  | .error f => throw f

end ConicModel
