/-
Data quoted in messages.

A message about data shows them as they are written, so every thing inside is
written out when the message is made: what is written of an expression depends on
the state of its variables at that moment.  Writing out an expression gives notice
of its doubts, and an integer that is too long cannot be written at all.
-/
import ConicModel.Fault
import ConicModel.Text.Numeral

namespace ConicModel

namespace Thing

variable {α : Type}

/-- The class shown for a thing. -/
def className : Thing α → String
  | expr e => e.className
  | constraint c => c.relation.className
  | objective _ => "ConicObjective"

/-- How a thing is shown. -/
def text [Scalar α] (vars : Vars α) : Thing α → String
  | expr e => e.text vars
  | constraint c => c.text
  | objective o => o.toObjective.text

/-- The doubts met when a thing is shown: the written form of an expression names
its curvature. -/
def doubts (vars : Vars α) : Thing α → List Doubt
  | expr e => (e.verdict vars).doubts
  | _ => []

end Thing

/-- Refuse to write an integer that is too long. -/
def Make.writable {α : Type} (n : Int) : Make α Unit :=
  if Numeral.isWritable n then pure () else throw .unwritable

namespace Datum

variable {α : Type}

/-- The class shown for a datum that is no expression and cannot become one. -/
def className : Input α → String
  | thing _ o => o.className
  | record .. => "ConicConstraint"
  | mapping .. => "dict"
  | sparse .. => "csc_matrix"
  | atom _ (.text _) => "str"
  | _ => "NoneType"

mutual

/-- Give notice of the doubts met when a datum is written, and refuse if it cannot
be. -/
def survey (vars : Vars α) : Input α → Make α Unit
  | atom _ (.int n) => Make.writable n
  | list _ xs | tuple _ xs | array _ _ _ _ xs | mapping _ _ xs => surveyAll vars xs
  | record _ o _ _ => survey vars o
  | thing _ o => (o.doubts vars).forM fun d => Make.notice (.doubt d)
  | _ => pure ()

/-- The same for the members of a sequence. -/
def surveyAll (vars : Vars α) : List (Input α) → Make α Unit
  | [] => pure ()
  | d :: ds => do
    survey vars d
    surveyAll vars ds

end

/-- A datum with every thing written out, as it is quoted in a message. -/
def quote [Scalar α] (vars : Vars α) (d : Input α) : Make α (Datum α String) := do
  survey vars d
  pure (d.mapThings (·.text vars))

end Datum

end ConicModel
