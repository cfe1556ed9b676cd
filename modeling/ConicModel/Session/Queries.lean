/-
Questions that need no session, and the running of steps.

A step starts without notices.  Its reply is the answer or the fault, with the
notices given on the way, each once, in the order in which they were first
given.
-/
import ConicModel.Session.Registries

namespace ConicModel

/-- What comes back from a step. -/
structure Reply (α : Type) where
  outcome : Except (Fault α) (Answer α)
  notices : List Notice

namespace Session

variable {α : Type} [Scalar α]

/-- The curvature of a sum, of a multiple: a verdict whose doubts are notices. -/
def verdict (v : Verdict) : Op α (Answer α) := .curvature <$> make fun _ => Make.trust v

/-- The sign of a term. -/
def signOfTerm (t : Term α) : Op α (Answer α) := do
  let d ← eval t
  match d.toArray with
  | none => refuse .content
  | some a => .sign <$> make fun vars => Sign.ofView vars a

/-- The shape that a term asks for. -/
def shapeOfTerm (t : Term α) : Op α (Answer α) := do
  let d ← eval t
  .shape <$> accept (Variable.normalizeShape d)

/-- The matrix of the Kronecker operator for data and a shape.  A vector is a row.
What is not numeric is asked for its truth, element by element, before it is
refused.  A negative dimension is refused unless the other one is zero, when there
is nothing to lay out. -/
def kroneckerOf (d : Input α) (shape : List Int) : Make α (Coeffs α) := do
  let a ← Make.ofOption (.mishap .content) (d.toArray)
  if 2 < a.shape.length then throw (.mishap .content)
  let (m, n) ← match shape with
    | [m, n] => pure (m, n)
    | _ => throw (.mishap .content)
  match a with
  | .numbers a =>
    let A ← Make.ofOption (.mishap .content) (a.map? NdArray.toRows?)
    if m * n ≠ 0 ∧ (m < 0 ∨ n < 0) then throw (.mishap .content)
    else
      Make.ofExcept .mishap do
        Extent.check [m.toNat] 8
        Extent.check [n.toNat] 8
        Extent.check [m.toNat, n.toNat] 8
      pure (A.map fun A => kroneckerOperator A m.toNat n.toNat)
  | .texts g | .loose g => refuseCells g.cells

/-- The Kronecker operator of a term. -/
def kroneckerOfTerm (t : Term α) (shape : List Int) : Op α (Answer α) := do
  let d ← eval t
  .matrix <$> make fun _ => kroneckerOf d shape

/-- Run a step. -/
def run (op : Op α (Answer α)) (s : Session α) : Reply α × Session α :=
  let start := { s with model := { s.model with ledger := { s.model.ledger with notices := [] } } }
  match op start with
  | .ok a s => (⟨.ok a, s.model.ledger.notices.eraseDups⟩, s)
  | .error f s => (⟨.error f, s.model.ledger.notices.eraseDups⟩, s)

end Session

end ConicModel
