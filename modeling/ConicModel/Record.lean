/-
Lowered constraints.

A record says that an objective lies in a cone, which is all that is left of a
constraint when it has been compiled.
-/
import ConicModel.Objective

namespace ConicModel

/-- The cones of the problem assembly.  A record made by hand may name another. -/
inductive Cone where
  | nonneg | zero | semidefinite | hermitian
  | other (name : String)
deriving DecidableEq

/-- A lowered constraint: the objective lies in the cone. -/
structure Record (α : Type) where
  objective : Objective α
  cone : Cone
  /-- The number of rows of the objective. -/
  size : Int

/-- The written form of a cone. -/
def Cone.text : Cone → String
  | nonneg => "NonNeg"
  | zero => "Zero"
  | semidefinite => "SDP"
  | hermitian => "HermitianSDP"
  | other name => name

/-- The cone of a written form. -/
def Cone.ofText (s : String) : Cone :=
  if s = nonneg.text then nonneg
  else if s = zero.text then zero
  else if s = semidefinite.text then semidefinite
  else if s = hermitian.text then hermitian
  else other s

end ConicModel
