/-
Why an operation is refused.

Each constructor is one cause, with what a reader needs to be told about it.  A
cause without words of its own is a `Mishap`: input that no rule of the library
speaks about, such as a ragged sequence or a missing entry.  The wording is in
`Fault.message`, apart from the causes.
-/
import ConicModel.Vars

namespace ConicModel

/-- Why an operation is refused. -/
inductive Fault (α : Type) where
  /-- An objective refuses an entry, a sum or a product. -/
  | objective (f : ObjectiveFault)
  /-- A number for a variable that is not scalar. -/
  | numberForMatrix (shape : Nat × Nat)
  /-- A vector for a variable that is not a column. -/
  | vectorForMatrix (shape : Nat × Nat)
  /-- A vector of the wrong length for a column. -/
  | vectorLength (shape : Nat × Nat) (found : Nat)
  /-- An array of the wrong shape. -/
  | arrayShape (shape : Nat × Nat) (found : List Nat)
  /-- A value that is no number. -/
  | valueNotNumeric (value : Datum α String)
  /-- A value with imaginary parts for a variable of a real sign. -/
  | valueComplex (sign : Sign)
  /-- A constant of an expression. -/
  | constantOfExpr (text : String)
  /-- A constant of something that is no number. -/
  | constantNotNumeric (value : Datum α String)
  /-- A constant with too many dimensions. -/
  | constantShape (found : List Nat)
  /-- An operand that is neither an expression nor data. -/
  | notExpression (className : String)
  /-- Sides of a constraint whose shapes differ. -/
  | sidesDiffer (lhs rhs : Nat × Nat)
  /-- A Kronecker product whose left operand is not constant. -/
  | kronLeft
  /-- An inequality between complex sides. -/
  | complexInequality
  /-- A constraint asked for a truth value. -/
  | truthValue (relation : Relation)
  /-- A semidefinite constraint on sides that are not square. -/
  | sidesNotSquare (shape : Nat × Nat)
  /-- A semidefinite variable that is not square. -/
  | variableNotSquare (hermitian : Bool) (rows cols : Datum α String)
  /-- A shape without exactly two dimensions. -/
  | dimensionCount (found : List Int)
  /-- A shape with a dimension that is not positive. -/
  | dimensionSign (rows cols : Int)
  /-- Both ways of saying what kind a variable is. -/
  | setsAndKind
  /-- Names of sets that do not exist. -/
  | unknownSets (names : List String)
  /-- A variable that is registered already. -/
  | registered (id : Id) (context : ContextName)
  /-- No variable of that identity. -/
  | unregistered (id : Id) (context : ContextName)
  /-- A sign that implies no constraint. -/
  | signWithoutConstraint (sign : Sign)
  /-- Evaluation without a value. -/
  | unvalued (reason : Unvalued)
  /-- Fixing without a value. -/
  | fixUnvalued
  /-- An expression compiled already. -/
  | cachedExpr (id : Id)
  /-- A constraint recorded already. -/
  | cachedConstraint (id : Id)
  /-- A solution vector shorter than its layout. -/
  | solutionLength (found : Nat) (expected : Datum α String)
  /-- A place in a layout whose width is not the variable's. -/
  | layoutWidth (found : Datum α String) (id : Id) (expected : Nat)
  /-- An integer that is too long to be written in a message. -/
  | unwritable
  /-- Something no rule speaks about. -/
  | mishap (m : Mishap)
  /-- A name that nothing is bound to. -/
  | unbound

/-- What construction and compilation let the user know without refusing. -/
inductive Notice where
  /-- The rules certify nothing. -/
  | doubt (d : Doubt)
  /-- The old way of naming sets was used. -/
  | oldSets
deriving DecidableEq

/-- What making things uses up: the next identity, and the notices given. -/
structure Ledger where
  nextId : Id := 1
  notices : List Notice := []

/-- Making something: it may be refused, and what was used up stays used up. -/
abbrev Make (α : Type) := EStateM (Fault α) Ledger

namespace Make

variable {α : Type}

/-- Take the next identity. -/
def freshId : Make α Id := fun l => .ok l.nextId { l with nextId := l.nextId + 1 }

/-- Give notice. -/
def notice (n : Notice) : Make α Unit := fun l => .ok () { l with notices := l.notices ++ [n] }

/-- Use a verdict: its doubts are given notice of. -/
def trust (v : Verdict) : Make α Curvature := fun l =>
  .ok v.curvature { l with notices := l.notices ++ v.doubts.map .doubt }

/-- Take a result, or refuse for its reason. -/
def ofExcept {ε β : Type} (why : ε → Fault α) : Except ε β → Make α β
  | .ok x => pure x
  | .error e => throw (why e)

/-- Take a result, or refuse. -/
def ofOption {β : Type} (why : Fault α) : Option β → Make α β
  | some x => pure x
  | none => throw why

end Make

end ConicModel
