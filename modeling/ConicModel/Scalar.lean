/-
The numbers a model is written over.

Every definition of the library is generic in its scalars, so that one text
serves two readings: run over binary64 floats it answers a modelling session,
read over an exact ordered field it is the subject of the theorems.  Nothing
here asks for laws; a law is assumed where a theorem uses it.

Complex numbers are plain pairs.  Their product is the four-product formula
with no special case, also when an imaginary part is zero, because over floats
`∞ · 0` is not `0` and a shortcut would be seen.
-/

namespace ConicModel

/-- What a matrix may hold: ring operations and a test for zero.  The test is a
separate field because a float is compared with zero, not with its own bits. -/
class Entry (R : Type) extends Zero R, One R, Add R, Sub R, Mul R, Neg R where
  isZero : R → Bool

export Entry (isZero)

/-- A number cut off after its units, where that makes sense. -/
inductive Whole where
  | int (n : Int)
  | infinite
  | undefined
deriving DecidableEq

/-- The real numbers of a model. -/
class Scalar (α : Type) extends Entry α where
  /-- The test `x ≤ y`; a float that is not a number fails it on either side. -/
  le : α → α → Bool
  /-- The scalar nearest to an integer. -/
  ofInt : Int → α
  /-- The integer part, toward zero. -/
  truncate : α → Whole

namespace Scalar

variable {α : Type} [Scalar α]

/-- The test `0 ≤ x`. -/
def isNonneg (x : α) : Bool := le 0 x

/-- The test `x ≤ 0`. -/
def isNonpos (x : α) : Bool := le x 0

/-- The test `x = y`. -/
def eq (x y : α) : Bool := le x y && le y x

/-- The test `x < y`. -/
def lt (x y : α) : Bool := le x y && !le y x

/-- The test `n ≤ x` for an integer, without rounding it first. -/
def intLe (n : Int) (x : α) : Bool :=
  match truncate x with
  | .int t => decide (n < t) || (decide (n = t) && le (ofInt t) x)
  | .infinite => isNonneg x
  | .undefined => false

/-- The test `x ≤ n` for an integer, without rounding it first. -/
def leInt (x : α) (n : Int) : Bool :=
  match truncate x with
  | .int t => decide (t < n) || (decide (t = n) && le x (ofInt t))
  | .infinite => isNonpos x
  | .undefined => false

/-- The scalar nearest to an integer, unless it is too large for any. -/
def ofInt? (n : Int) : Option α :=
  let x : α := ofInt n
  if truncate x = .infinite then none else some x

end Scalar

/-- A complex number over `α`. -/
@[ext] structure Cplx (α : Type) where
  re : α
  im : α
deriving DecidableEq, Inhabited

namespace Cplx

variable {α : Type} [Entry α]

/-- The real number `x` as a complex one. -/
def ofReal (x : α) : Cplx α := ⟨x, 0⟩

/-- The imaginary unit. -/
def I : Cplx α := ⟨0, 1⟩

instance : Entry (Cplx α) where
  zero := ⟨0, 0⟩
  one := ⟨1, 0⟩
  add z w := ⟨z.re + w.re, z.im + w.im⟩
  sub z w := ⟨z.re - w.re, z.im - w.im⟩
  neg z := ⟨-z.re, -z.im⟩
  mul z w := ⟨z.re * w.re - z.im * w.im, z.re * w.im + z.im * w.re⟩
  isZero z := isZero z.re && isZero z.im

@[simp] theorem zero_re : (0 : Cplx α).re = 0 := rfl
@[simp] theorem zero_im : (0 : Cplx α).im = 0 := rfl
@[simp] theorem one_re : (1 : Cplx α).re = 1 := rfl
@[simp] theorem one_im : (1 : Cplx α).im = 0 := rfl
@[simp] theorem add_re (z w : Cplx α) : (z + w).re = z.re + w.re := rfl
@[simp] theorem add_im (z w : Cplx α) : (z + w).im = z.im + w.im := rfl
@[simp] theorem sub_re (z w : Cplx α) : (z - w).re = z.re - w.re := rfl
@[simp] theorem sub_im (z w : Cplx α) : (z - w).im = z.im - w.im := rfl
@[simp] theorem neg_re (z : Cplx α) : (-z).re = -z.re := rfl
@[simp] theorem neg_im (z : Cplx α) : (-z).im = -z.im := rfl
@[simp] theorem mul_re (z w : Cplx α) : (z * w).re = z.re * w.re - z.im * w.im := rfl
@[simp] theorem mul_im (z w : Cplx α) : (z * w).im = z.re * w.im + z.im * w.re := rfl
@[simp] theorem ofReal_re (x : α) : (ofReal x).re = x := rfl
@[simp] theorem ofReal_im (x : α) : (ofReal x).im = 0 := rfl
@[simp] theorem I_re : (I : Cplx α).re = 0 := rfl
@[simp] theorem I_im : (I : Cplx α).im = 1 := rfl

end Cplx

/-- Something held either with real or with complex elements.  The element type
is part of a value and not read off its entries: a complex array whose imaginary
parts are all zero is still complex, and an operation with one complex operand
has a complex result. -/
inductive Numeric (F : Type → Type) (α : Type) where
  | real (x : F α)
  | complex (x : F (Cplx α))

namespace Numeric

variable {F G : Type → Type} {α β : Type}

/-- Whether the element type is complex. -/
def isComplex : Numeric F α → Bool
  | real _ => false
  | complex _ => true

/-- Read off something that does not depend on the element type, such as a shape. -/
def on (f : ∀ {R : Type}, F R → β) : Numeric F α → β
  | real x => f x
  | complex x => f x

/-- Apply an operation that keeps the element type. -/
def map [Entry α] (f : ∀ {R : Type} [Entry R], F R → G R) : Numeric F α → Numeric G α
  | real x => real (f x)
  | complex x => complex (f x)

/-- The same elements, all complex. -/
def toComplex [Functor F] [Entry α] : Numeric F α → F (Cplx α)
  | real x => Cplx.ofReal <$> x
  | complex x => x

/-- Apply a binary operation.  Two real operands give a real result; otherwise
both are made complex first. -/
def map₂ [Functor F] [Entry α] (f : ∀ {R : Type} [Entry R], F R → F R → G R) :
    Numeric F α → Numeric F α → Numeric G α
  | real x, real y => real (f x y)
  | x, y => complex (f x.toComplex y.toComplex)

end Numeric

/-- A single element is mapped as it is. -/
instance functorId : Functor Id where
  map f x := f x

/-- A single number, real or complex. -/
abbrev Number (α : Type) := Numeric Id α

end ConicModel
