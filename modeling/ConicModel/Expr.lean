/-
Expressions and constraints.

An expression is a tree: decision variables and constants at the leaves,
Kronecker products above them.  A node never changes after it is made, so its
identity, its shape and its operands are part of the tree.  What does change
about a variable (its value, whether it is fixed, its sign, the constraints
attached to it) is kept apart, in `Vars`; a leaf only names the variable.  The
tree is finite even when the model is cyclic: the way back from a variable to a
constraint that mentions it leads through `Vars`.
-/
import ConicModel.Curvature
import ConicModel.Table

namespace ConicModel

/-- A registry, told apart by a text.  The text stands for the registry as a thing and not
for a label on it: two registries have two texts, also where they were labelled alike.
Messages write the text. -/
structure ContextName where
  text : String
deriving DecidableEq, Inhabited

/-- The registry that every session starts with. -/
def ContextName.main : ContextName := ⟨"default"⟩

/-- What never changes about a decision variable. -/
structure Variable where
  id : Id
  rows : Nat
  cols : Nat
  /-- The registry named when the variable was made. -/
  home : ContextName
deriving DecidableEq

/-- A literal matrix.  Its sign is inferred from the entries or given by hand. -/
structure Constant (α : Type) where
  id : Id
  value : Numeric Dense α
  sign : Sign

/-- A stand-in for an expression of which only the attributes are known. -/
structure Stub where
  id : Id
  rows : Nat
  cols : Nat
  curvature : Curvature
  sign : Sign
deriving DecidableEq

/-- An expression. -/
inductive Expr (α : Type) where
  | var (x : Variable)
  | const (c : Constant α)
  /-- The Kronecker product of a constant left operand and any right one. -/
  | kron (id : Id) (a b : Expr α)
  | stub (s : Stub)

namespace Constant

variable {α : Type}

/-- Rows and columns. -/
def shape (c : Constant α) : Nat × Nat := c.value.on Dense.shape

end Constant

namespace Expr

variable {α : Type}

/-- The identity of a node. -/
def id : Expr α → Id
  | var x => x.id
  | const c => c.id
  | kron i _ _ => i
  | stub s => s.id

/-- Rows and columns. -/
def shape : Expr α → Nat × Nat
  | var x => (x.rows, x.cols)
  | const c => c.shape
  | kron _ a b => (a.shape.1 * b.shape.1, a.shape.2 * b.shape.2)
  | stub s => (s.rows, s.cols)

/-- The number of entries. -/
def length (e : Expr α) : Nat := e.shape.1 * e.shape.2

/-- Whether there is exactly one row and one column. -/
def isScalar (e : Expr α) : Bool := decide (e.shape = (1, 1))

end Expr

/-! ## Constraints -/

/-- How a constraint relates its two sides. -/
inductive Relation where
  | atLeast
  | atMost
  | equal
  /-- The left side minus the right one is positive semidefinite. -/
  | semidefinite
deriving DecidableEq

/-- A constraint between two expressions of one shape. -/
structure Constraint (α : Type) where
  id : Id
  relation : Relation
  lhs : Expr α
  rhs : Expr α

namespace Constraint

variable {α : Type}

/-- The common shape of the two sides. -/
def shape (c : Constraint α) : Nat × Nat := c.lhs.shape

/-- The number of entries related. -/
def size (c : Constraint α) : Nat := c.lhs.length

end Constraint

/-- What has an identity: an expression or a constraint. -/
inductive Node (α : Type) where
  | expr (e : Expr α)
  | constraint (c : Constraint α)

/-- The identity of a node. -/
def Node.id {α : Type} : Node α → Id
  | expr e => e.id
  | constraint c => c.id

end ConicModel
