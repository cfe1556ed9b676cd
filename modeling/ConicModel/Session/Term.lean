/-
Terms: data with names in it.

What a session is given is written before it is known what its names stand for.
A term is such a text: data, names of things made earlier, the variable that is
being built, and Kronecker products to be made on the spot.  Evaluating a term
goes from left to right and gives an input; a place where nothing usable is
written refuses when it is come to.
-/
import ConicModel.Construction

namespace ConicModel

/-- Data with names in it. -/
inductive Term (α : Type) where
  | null
  | bool (b : Bool)
  | int (n : Int)
  | real (x : α)
  | complex (z : Cplx α)
  | text (s : String)
  | list (ts : List (Term α))
  | tuple (ts : List (Term α))
  | array (a : Numeric NdArray α)
  | sparse (A : Coeffs α)
  /-- A mapping without entries. -/
  | mapping
  /-- The thing a name is bound to. -/
  | name (s : String)
  /-- The variable being built. -/
  | self
  | kron (a b : Term α)
  /-- Nothing usable. -/
  | unusable (m : Mishap)

/-- What the names of a term stand for. -/
structure Scope (α : Type) where
  input : String → Option (Input α)
  self : Option Variable := none

namespace Term

variable {α : Type} [Scalar α]

mutual

/-- The input that a term stands for. -/
def eval (vars : Vars α) (scope : Scope α) : Term α → Make α (Input α)
  | null => pure (.atom 0 .null)
  | bool b => pure (.ofBool b)
  | int n => pure (.ofInt n)
  | real x => pure (.atom 0 (.real x))
  | complex z => pure (.atom 0 (.complex z))
  | text s => pure (.atom 0 (.text s))
  | list ts => .list 0 <$> evalList vars scope ts
  | tuple ts => .tuple 0 <$> evalList vars scope ts
  | array a => pure (.ofNumbers a)
  | sparse A => pure (.sparse 0 false A)
  | mapping => pure (.mapping 0 [] [])
  | name s => Make.ofOption .unbound (scope.input s)
  | self => (fun x => .thing 0 (.expr (.var x))) <$> Make.ofOption .unbound scope.self
  | kron a b => do
    let a ← eval vars scope a
    let b ← eval vars scope b
    (fun e => .thing 0 (.expr e)) <$> makeKron vars a b
  | unusable m => throw (.mishap m)

/-- The inputs that terms stand for. -/
def evalList (vars : Vars α) (scope : Scope α) : List (Term α) → Make α (List (Input α))
  | [] => pure []
  | t :: ts => do
    let d ← eval vars scope t
    let ds ← evalList vars scope ts
    pure (d :: ds)

end

end Term

end ConicModel
