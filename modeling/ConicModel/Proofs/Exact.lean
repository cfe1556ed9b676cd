/-
# Exact scalars

Every definition of the library is generic in its scalars and asks for no law.
The theorems read the same definitions over scalars that do obey laws.

`LawfulEntry R` says that the operations of `R` are those of a commutative ring and
that the test for zero is right.  It is a property of the operations already there:
the ring structure that comes of it has the very same sum and product, so a law
can be used on a definition of the library without a change of its text.

The law passes from real to complex numbers.  `OrderedEntry R` adds those of an order, which
complex numbers have not.  The rationals have both.
-/
import Mathlib.Algebra.BigOperators.Ring.Finset
import Mathlib.Algebra.Order.Ring.Rat
import Mathlib.Tactic.Ring
import ConicModel.Scalar

namespace ConicModel

/-- The operations are those of a commutative ring, and zero is recognised. -/
class LawfulEntry (R : Type) [Entry R] : Prop where
  add_assoc (a b c : R) : a + b + c = a + (b + c)
  add_comm (a b : R) : a + b = b + a
  zero_add (a : R) : 0 + a = a
  neg_add_cancel (a : R) : -a + a = 0
  sub_eq_add_neg (a b : R) : a - b = a + -b
  mul_assoc (a b c : R) : a * b * c = a * (b * c)
  mul_comm (a b : R) : a * b = b * a
  one_mul (a : R) : 1 * a = a
  mul_add (a b c : R) : a * (b + c) = a * b + a * c
  isZero_iff (a : R) : isZero a = true ↔ a = 0

namespace LawfulEntry

variable {R : Type} [Entry R] [L : LawfulEntry R]

/-- The group of the sums. -/
instance (priority := low) toAddCommGroup : AddCommGroup R where
  toAdd := Entry.toAdd
  toZero := Entry.toZero
  toNeg := Entry.toNeg
  toSub := Entry.toSub
  add_assoc := L.add_assoc
  zero_add := L.zero_add
  add_zero a := by
    rw [L.add_comm]
    exact L.zero_add a
  add_comm := L.add_comm
  neg_add_cancel := L.neg_add_cancel
  sub_eq_add_neg := L.sub_eq_add_neg
  nsmul := nsmulRec
  zsmul := zsmulRec

/-- A product with zero is its own double. -/
theorem mul_zero (a : R) : a * 0 = 0 := by
  have double : a * 0 + a * 0 = a * 0 := by rw [← L.mul_add, L.zero_add]
  exact add_eq_left.mp double

/-- The ring that the operations form. -/
instance (priority := low) toCommRing : CommRing R where
  toAddCommGroup := toAddCommGroup
  toMul := Entry.toMul
  toOne := Entry.toOne
  mul_assoc := L.mul_assoc
  mul_comm := L.mul_comm
  one_mul := L.one_mul
  mul_one a := by
    rw [L.mul_comm]
    exact L.one_mul a
  left_distrib := L.mul_add
  right_distrib a b c := by rw [L.mul_comm, L.mul_add, L.mul_comm c a, L.mul_comm c b]
  zero_mul a := by
    rw [L.mul_comm]
    exact mul_zero a
  mul_zero := mul_zero

@[simp] theorem isZero_zero : isZero (0 : R) = true := (L.isZero_iff 0).mpr rfl

theorem eq_zero_of_isZero {a : R} (h : isZero a = true) : a = 0 := (L.isZero_iff a).mp h

end LawfulEntry

/-! ## Ordered scalars -/

/-- The operations are those of an ordered ring. -/
class OrderedEntry (R : Type) [Entry R] [PartialOrder R] : Prop extends LawfulEntry R where
  add_le_add_left (a b : R) (h : a ≤ b) (c : R) : c + a ≤ c + b
  zero_le_one : (0 : R) ≤ 1
  mul_nonneg (a b : R) : 0 ≤ a → 0 ≤ b → 0 ≤ a * b

instance (priority := low) OrderedEntry.toIsOrderedRing {R : Type} [Entry R] [PartialOrder R]
    [L : OrderedEntry R] : IsOrderedRing R :=
  haveI : IsOrderedAddMonoid R :=
    ⟨fun a b h c => add_comm c a ▸ add_comm c b ▸ L.add_le_add_left a b h c, L.add_le_add_left⟩
  haveI : ZeroLEOneClass R := ⟨L.zero_le_one⟩
  IsOrderedRing.of_mul_nonneg fun a b => L.mul_nonneg a b

/-! ## Complex numbers -/

namespace Cplx

variable {α : Type} [Entry α] [LawfulEntry α]

instance : LawfulEntry (Cplx α) where
  add_assoc a b c := by ext <;> simp [add_assoc]
  add_comm a b := by ext <;> simp [add_comm]
  zero_add a := by ext <;> simp
  neg_add_cancel a := by ext <;> simp
  sub_eq_add_neg a b := by ext <;> simp [sub_eq_add_neg]
  mul_assoc a b c := by ext <;> simp only [mul_re, mul_im] <;> ring
  mul_comm a b := by ext <;> simp only [mul_re, mul_im] <;> ring
  one_mul a := by ext <;> simp
  mul_add a b c := by ext <;> simp only [mul_re, mul_im, add_re, add_im] <;> ring
  isZero_iff a := by
    show (isZero a.re && isZero a.im) = true ↔ a = 0
    rw [Bool.and_eq_true, LawfulEntry.isZero_iff, LawfulEntry.isZero_iff]
    constructor
    · rintro ⟨hre, him⟩
      exact Cplx.ext hre him
    · rintro rfl
      exact ⟨rfl, rfl⟩

omit [LawfulEntry α] in
@[simp] theorem ofReal_zero : (ofReal 0 : Cplx α) = 0 := rfl

omit [LawfulEntry α] in
@[simp] theorem ofReal_one : (ofReal 1 : Cplx α) = 1 := rfl

@[simp] theorem ofReal_add (x y : α) : ofReal (x + y) = ofReal x + ofReal y := by
  ext <;> simp

@[simp] theorem ofReal_neg (x : α) : ofReal (-x) = -ofReal x := by ext <;> simp

@[simp] theorem ofReal_mul (x y : α) : ofReal (x * y) = ofReal x * ofReal y := by
  ext <;> simp

/-- A complex number is its real part and `i` times its imaginary part. -/
theorem re_add_I_mul_im (z : Cplx α) : ofReal z.re + I * ofReal z.im = z := by
  ext <;> simp

end Cplx

/-! ## The rationals -/

instance : Entry ℚ where
  zero := 0
  one := 1
  add := (· + ·)
  sub := (· - ·)
  mul := (· * ·)
  neg := (- ·)
  isZero q := decide (q = 0)

instance : Scalar ℚ where
  le p q := decide (p ≤ q)
  ofInt n := n
  truncate q := .int (q.num.tdiv q.den)

instance : LawfulEntry ℚ where
  add_assoc := add_assoc (G := ℚ)
  add_comm := add_comm (G := ℚ)
  zero_add := zero_add (M := ℚ)
  neg_add_cancel := neg_add_cancel (G := ℚ)
  sub_eq_add_neg := sub_eq_add_neg (G := ℚ)
  mul_assoc := mul_assoc (G := ℚ)
  mul_comm := mul_comm (G := ℚ)
  one_mul := one_mul (M := ℚ)
  mul_add := mul_add (R := ℚ)
  isZero_iff _ := decide_eq_true_iff

instance : OrderedEntry ℚ where
  add_le_add_left _ _ h c := add_le_add_right (α := ℚ) h c
  zero_le_one := zero_le_one (α := ℚ)
  mul_nonneg _ _ := mul_nonneg (α := ℚ)

end ConicModel
