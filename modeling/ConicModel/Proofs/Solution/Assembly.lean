/-
# Assembly and scattering agree

A solver is given the records of a pass and a layout, and answers with a vector.  It reads
a record at the blocks of the vector: for a variable placed at `o` with `n` entries,
`R · x[o, o + n)` and, if the variable is complex, `I · x[o + n, o + 2n)`, and then the
offset (`Layout.realPart`, `Layout.imagPart`).  What it has read there is what the two
sides of the constraint evaluate to once the vector was scattered with the same layout.
-/
import ConicModel.Proofs.Compile.Meaning
import ConicModel.Proofs.Solution.Scatter

namespace ConicModel

variable {α : Type} [Scalar α]

/-- The real parts that a vector has for a variable, by identity. -/
def Layout.realPart (l : Layout) (xs : Array α) (i : Id) (k : Nat) : α :=
  (l.get? i).elim 0 fun s => xs.getD (s.offset.toNat + k) 0

/-- The imaginary parts: the second half of the place of a complex variable. -/
def Layout.imagPart (vars : Vars α) (l : Layout) (xs : Array α) (i : Id) (k : Nat) : α :=
  (l.get? i).elim 0 fun s =>
    if ((vars.get? i).getD {}).sign = .complex then
      xs.getD (s.offset.toNat + (s.width / 2).toNat + k) 0
    else 0

variable [LawfulEntry α]

end ConicModel
