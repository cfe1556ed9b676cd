/-
Truth values of data.

Data count as true unless they are empty, zero or missing.  An expression always
does, and a constraint refuses to be asked.  An array counts as its element if it
has only one.  A sparse matrix can be asked if it is one-by-one, and counts as
true if it stores its entry, even as zero.
-/
import ConicModel.Fault

namespace ConicModel.Datum

variable {α : Type} [Scalar α]

mutual

/-- Whether a datum counts as true. -/
def truth : Input α → Make α Bool
  | .atom _ a | .element _ _ a => pure a.truth
  | .list _ xs | .tuple _ xs => pure (!xs.isEmpty)
  | .array _ _ _ _ cells => truthOfOnly cells
  | .sparse _ _ A =>
    if Coeffs.shape A = (1, 1) then pure (decide (Coeffs.stored A ≠ 0))
    else throw (.mishap .content)
  | .mapping _ keys _ => pure (!keys.isEmpty)
  | .record .. => pure true
  | .thing _ (.constraint c) => throw (.truthValue c.relation)
  | .thing _ (.objective o) => pure (!o.entries.isEmpty)
  | .thing _ (.expr _) => pure true

/-- Whether the only member of a sequence counts as true. -/
def truthOfOnly : List (Input α) → Make α Bool
  | [d] => truth d
  | _ => throw (.mishap .content)

end

end ConicModel.Datum
