/-
Curvature and sign: the disciplined convex programming rules.

`Curvature.add`, `negate` and `scale` say what is known of `x + y`, `-x` and
`c * x` from what is known of the parts, `Sign.mul` does the same for the sign
of a product.  `notDcp` is no curvature of its own: it is the verdict that the
rules certify nothing, and every rule that gives it for the first time also says
why.  A `Verdict` is a curvature together with the reasons met on the way, in
the order in which they were met.
-/
import ConicModel.Matrix.Dense

namespace ConicModel

/-- What is known of the curvature of an expression. -/
inductive Curvature where
  | constant | affine | convex | concave | notDcp
deriving DecidableEq, Inhabited

/-- The range of the entries of an expression. -/
inductive Sign where
  | positive | negative | noSign | complex
deriving DecidableEq, Inhabited

/-- What values a decision variable may take. -/
inductive VarKind where
  | continuous | integer | binary
deriving DecidableEq, Inhabited

/-- Why the composition rules certify nothing. -/
inductive Doubt where
  /-- A sum of a convex and a concave part. -/
  | sum (a b : Curvature)
  /-- A curved expression times a constant of undecided sign. -/
  | scaled (v : Curvature) (s : Sign)
  /-- An inequality whose smaller side minus its larger side is concave. -/
  | concaveGap
  /-- An equality with a curved difference. -/
  | curvedEquality (v : Curvature)
  /-- A semidefinite constraint on an expression that is not affine. -/
  | curvedSemidefinite (v : Curvature)
  /-- A Kronecker product whose left operand is not constant. -/
  | nonconstantLeft
deriving DecidableEq

/-- A curvature with the doubts met while finding it. -/
structure Verdict where
  curvature : Curvature
  doubts : List Doubt := []

namespace Verdict

/-- Go on with a verdict: the doubts of the first step come first. -/
def andThen (v : Verdict) (f : Curvature → Verdict) : Verdict :=
  ⟨(f v.curvature).curvature, v.doubts ++ (f v.curvature).doubts⟩

/-- The verdict `notDcp` for a reason. -/
def notDcp (d : Doubt) : Verdict := ⟨.notDcp, [d]⟩

@[simp] theorem curvature_andThen (v : Verdict) (f : Curvature → Verdict) :
    (v.andThen f).curvature = (f v.curvature).curvature := rfl

@[simp] theorem curvature_notDcp (d : Doubt) : (notDcp d).curvature = .notDcp := rfl

end Verdict

namespace Curvature

/-- The curvature of `-x`. -/
def negate : Curvature → Curvature
  | convex => concave
  | concave => convex
  | v => v

/-- The curvature of `x + y`: a constant adds nothing, an affine part gives way
to the other one, and a convex and a concave part cannot be combined. -/
def add : Curvature → Curvature → Verdict
  | notDcp, _ => ⟨notDcp, []⟩
  | _, notDcp => ⟨notDcp, []⟩
  | constant, b => ⟨b, []⟩
  | a, constant => ⟨a, []⟩
  | affine, b => ⟨b, []⟩
  | a, affine => ⟨a, []⟩
  | a, b => if a = b then ⟨a, []⟩ else .notDcp (.sum a b)

/-- The curvature of `c * x` for a constant `c` of the given sign. -/
def scale (v : Curvature) (s : Sign) : Verdict :=
  match v with
  | constant | affine | notDcp => ⟨v, []⟩
  | convex | concave =>
    match s with
    | .positive => ⟨v, []⟩
    | .negative => ⟨v.negate, []⟩
    | .noSign | .complex => .notDcp (.scaled v s)

end Curvature

namespace Sign

/-- The sign of a product. -/
def mul : Sign → Sign → Sign
  | complex, _ => complex
  | _, complex => complex
  | noSign, _ => noSign
  | _, noSign => noSign
  | a, b => if a = b then positive else negative

/-- The sign of real entries.  No entries at all, like only zeros, is positive;
an entry that is not a number leaves the sign undecided. -/
def ofReals {α : Type} [Scalar α] (xs : Array α) : Sign :=
  if xs.all Scalar.isNonneg then positive
  else if xs.all Scalar.isNonpos then negative
  else noSign

/-- The sign of a matrix; complex elements are complex whatever their values. -/
def ofMatrix {α : Type} [Scalar α] : Numeric Dense α → Sign
  | .real A => ofReals A.data
  | .complex _ => complex

end Sign

/-! ## Written forms -/

/-- The written form of a curvature. -/
def Curvature.text : Curvature → String
  | constant => "constant"
  | affine => "affine"
  | convex => "convex"
  | concave => "concave"
  | notDcp => "not_dcp"

/-- The written form of a sign. -/
def Sign.text : Sign → String
  | positive => "positive"
  | negative => "negative"
  | noSign => "no_sign"
  | complex => "complex"

/-- The written form of a kind of variable. -/
def VarKind.text : VarKind → String
  | continuous => "continuous"
  | integer => "integer"
  | binary => "binary"

/-- How a curvature is shown as a member of its kind. -/
def Curvature.memberText (v : Curvature) : String := "Vexity." ++ v.text.toUpper

/-- How a sign is shown as a member of its kind. -/
def Sign.memberText (s : Sign) : String := "Sign." ++ s.text.toUpper

/-- How a kind of variable is shown as a member of its kind. -/
def VarKind.memberText (k : VarKind) : String := "VarType." ++ k.text.toUpper

/-- The curvature of a written form. -/
def Curvature.ofText? (s : String) : Option Curvature :=
  [constant, affine, convex, concave, notDcp].find? fun v => v.text == s

/-- The sign of a written form. -/
def Sign.ofText? (s : String) : Option Sign :=
  [positive, negative, noSign, complex].find? fun v => v.text == s

/-- The kind of variable of a written form. -/
def VarKind.ofText? (s : String) : Option VarKind :=
  [continuous, integer, binary].find? fun v => v.text == s

/-- A doubt in words. -/
def Doubt.text : Doubt → String
  | sum a b => s!"sum of {a.text} and {b.text} expressions"
  | scaled v s => s!"{v.text} expression scaled by a constant of sign {s.text}"
  | concaveGap => "inequality with a concave left side minus right side"
  | curvedEquality v => s!"equality between expressions with {v.text} difference"
  | curvedSemidefinite v => s!"semidefinite constraint on a {v.text} expression"
  | nonconstantLeft => "kron with a non-constant left operand"

end ConicModel
