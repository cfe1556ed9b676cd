/-
# What the rules certify

The rules of curvature are tables, and here is what the tables mean.  A curvature describes
real functions of the decision variables (`Curvature.Describes`): a constant one depends on
no variable, an affine one is an affine map, a convex or concave one is that, and of what is
certified as nothing, nothing is said.  Each rule is right about whatever functions its
operands describe.

Entries may be complex.  Their real and imaginary parts are then real functions of the same
variables; a curved entry has no imaginary part, as there is no order on complex numbers
(`Curvature.DescribesEntry`).

A product multiplies each entry by one of a constant, so `Curvature.scale` is right about
products if the sign is right about the constant.  An inequality that is certified bounds a
convex gap by zero, and an equality or a semidefinite constraint that is certified asks that
an affine difference is zero or in a cone, so that what meets a certified constraint is a
convex set.

The functions and the number of variables are arbitrary, and so is the ordered ring.
-/
import Mathlib.Analysis.Convex.Function
import Mathlib.Geometry.Convex.Cone.Basic
import ConicModel.Proofs.Evaluation

namespace ConicModel

variable {α : Type} [Entry α] [PartialOrder α] [OrderedEntry α]
  {E : Type*} [AddCommGroup E] [Module α E]

/-- What a sign says of an entry. -/
def Sign.Agrees (s : Sign) (z : Cplx α) : Prop :=
  match s with
  | positive => 0 ≤ z.re ∧ z.im = 0
  | negative => z.re ≤ 0 ∧ z.im = 0
  | noSign | complex => True

namespace Curvature

/-! ## The tables -/

/-- Constant or affine: no curvature at all. -/
def IsFlat (v : Curvature) : Prop := v = constant ∨ v = affine

/-- Convex or concave. -/
def IsCurved (v : Curvature) : Prop := v = convex ∨ v = concave

instance : DecidablePred IsFlat := fun _ => inferInstanceAs (Decidable (_ ∨ _))

instance : DecidablePred IsCurved := fun _ => inferInstanceAs (Decidable (_ ∨ _))

section Tables

variable {v w : Curvature}

theorem isFlat_of_negate : v.negate.IsFlat → v.IsFlat := by cases v <;> decide

theorem isCurved_of_negate : v.negate.IsCurved → v.IsCurved := by cases v <;> decide

theorem add_self_of_flat (flat : v.IsFlat) : (v.add v).curvature = v := by
  obtain rfl | rfl := flat <;> rfl

theorem add_negate_of_flat (flat : v.IsFlat) : (v.add v.negate).curvature = v := by
  obtain rfl | rfl := flat <;> rfl

/-- Nothing curved is flattened by a sum. -/
theorem flat_of_add_negate (flat : (v.add w.negate).curvature.IsFlat) : v.IsFlat ∧ w.IsFlat := by
  revert flat
  cases v <;> cases w <;> decide

theorem scale_of_flat (flat : v.IsFlat) (s : Sign) : (v.scale s).curvature = v := by
  obtain rfl | rfl := flat <;> rfl

theorem scale_positive (v : Curvature) : (v.scale .positive).curvature = v := by cases v <;> rfl

theorem scale_negative (v : Curvature) : (v.scale .negative).curvature = v.negate := by
  cases v <;> rfl

end Tables

/-! ## Real functions -/

/-- What a curvature says of a real function of the decision variables. -/
def Describes (v : Curvature) (f : E → α) : Prop :=
  match v with
  | constant => ∀ x y, f x = f y
  | affine => ∃ g : E →ᵃ[α] α, ∀ x, f x = g x
  | convex => ConvexOn α Set.univ f
  | concave => ConcaveOn α Set.univ f
  | notDcp => True

namespace Describes

variable {v w : Curvature} {f g : E → α}

theorem affine_of_constant (h : constant.Describes f) : affine.Describes f :=
  ⟨.const α E (f 0), fun x => h x 0⟩

theorem convex_of_affine (h : affine.Describes f) : convex.Describes f := by
  obtain ⟨g, hg⟩ := h
  rw [funext hg]
  exact ⟨convex_univ, fun x _ y _ a b _ _ one => (Convex.combo_affine_apply one).le⟩

theorem concave_of_affine (h : affine.Describes f) : concave.Describes f := by
  obtain ⟨g, hg⟩ := h
  rw [funext hg]
  exact ⟨convex_univ, fun x _ y _ a b _ _ one => (Convex.combo_affine_apply one).ge⟩

/-- The sum with an affine function, unless the other is constant. -/
theorem affine_add (hf : affine.Describes f) (hg : v.Describes g) (curved : v ≠ .constant) :
    v.Describes fun x => f x + g x := by
  cases v with
  | constant => exact (curved rfl).elim
  | affine =>
      obtain ⟨k, hk⟩ := hf
      obtain ⟨l, hl⟩ := hg
      exact ⟨k + l, fun x => congrArg₂ (· + ·) (hk x) (hl x)⟩
  | convex => exact ConvexOn.add (convex_of_affine hf) hg
  | concave => exact ConcaveOn.add (concave_of_affine hf) hg
  | notDcp => trivial

/-- The sum with a constant function. -/
theorem constant_add (hf : constant.Describes f) (hg : v.Describes g) :
    v.Describes fun x => f x + g x := by
  by_cases flat : v = .constant
  · subst flat
    exact fun x y => congrArg₂ (· + ·) (hf x y) (hg x y)
  · exact affine_add (affine_of_constant hf) hg flat

/-- The rule for sums. -/
theorem add (hf : v.Describes f) (hg : w.Describes g) :
    (v.add w).curvature.Describes fun x => f x + g x := by
  have swap {u : Curvature} (h : u.Describes fun x => g x + f x) :
      u.Describes fun x => f x + g x := by
    have same : (fun x => f x + g x) = fun x => g x + f x := funext fun x => add_comm _ _
    rwa [same]
  cases v with
  | notDcp => trivial
  | constant =>
      cases w with
      | notDcp => trivial
      | constant | affine | convex | concave => exact constant_add hf hg
  | affine =>
      cases w with
      | notDcp => trivial
      | constant => exact swap (constant_add hg hf)
      | affine | convex | concave => exact affine_add hf hg (by decide)
  | convex =>
      cases w with
      | notDcp | concave => trivial
      | constant => exact swap (constant_add hg hf)
      | affine => exact swap (affine_add hg hf (by decide))
      | convex => exact ConvexOn.add hf hg
  | concave =>
      cases w with
      | notDcp | convex => trivial
      | constant => exact swap (constant_add hg hf)
      | affine => exact swap (affine_add hg hf (by decide))
      | concave => exact ConcaveOn.add hf hg

/-- The rule for a change of sign. -/
theorem negate (hf : v.Describes f) : v.negate.Describes fun x => -f x := by
  cases v with
  | constant => exact fun x y => congrArg (- ·) (hf x y)
  | affine =>
      obtain ⟨k, hk⟩ := hf
      exact ⟨-k, fun x => congrArg (- ·) (hk x)⟩
  | convex => exact ConvexOn.neg hf
  | concave => exact ConcaveOn.neg hf
  | notDcp => trivial

/-- Without a curvature the sign of the factor is no matter. -/
theorem mul_of_flat (flat : v.IsFlat) (a : α) (h : v.Describes f) :
    v.Describes fun x => a * f x := by
  obtain rfl | rfl := flat
  · exact fun x y => congrArg (a * ·) (h x y)
  · obtain ⟨k, hk⟩ := h
    exact ⟨a • k, fun x => congrArg (a * ·) (hk x)⟩

/-- A multiple by what is not negative. -/
theorem smul {a : α} (ha : 0 ≤ a) (hf : v.Describes f) : v.Describes fun x => a * f x := by
  cases v with
  | constant => exact mul_of_flat (.inl rfl) a hf
  | affine => exact mul_of_flat (.inr rfl) a hf
  | convex => exact ConvexOn.smul ha hf
  | concave => exact ConcaveOn.smul ha hf
  | notDcp => trivial

/-- A difference, read as the sum with a negated term. -/
theorem sub (hf : v.Describes f) (hg : w.Describes g) :
    (v.add w.negate).curvature.Describes fun x => f x - g x := by
  have same : (fun x => f x - g x) = fun x => f x + -g x := funext fun x => sub_eq_add_neg _ _
  rw [same]
  exact add hf (negate hg)

/-! ### Flat functions -/

theorem affine_of_flat (flat : v.IsFlat) (h : v.Describes f) : affine.Describes f := by
  obtain rfl | rfl := flat
  · exact affine_of_constant h
  · exact h

/-! ### Comparing -/

/-- What an inequality asks of its gap. -/
theorem convex_of_gap (h : v.Describes f) (certified : v ≠ .notDcp) (gap : v ≠ .concave) :
    ConvexOn α Set.univ f := by
  cases v with
  | constant => exact convex_of_affine (affine_of_constant h)
  | affine => exact convex_of_affine h
  | convex => exact h
  | concave => exact (gap rfl).elim
  | notDcp => exact (certified rfl).elim

/-- The smaller side minus the larger one is what has to be convex. -/
theorem convex_setOf_le (hf : v.Describes f) (hg : w.Describes g)
    (certified : (v.add w.negate).curvature ≠ .notDcp)
    (gap : (v.add w.negate).curvature ≠ .concave) : Convex α {x | f x ≤ g x} := by
  have below : {x | f x ≤ g x} = {x ∈ Set.univ | f x - g x ≤ 0} :=
    Set.ext fun x => by simp
  rw [below]
  exact (convex_of_gap (sub hf hg) certified gap).convex_le 0

end Describes

/-! ## Complex entries -/

/-- What a curvature says of a complex function of the decision variables.  Complex numbers
have no order, so what is curved is real. -/
structure DescribesEntry (v : Curvature) (f : E → Cplx α) : Prop where
  re : v.Describes fun x => (f x).re
  im : v.IsFlat → v.Describes fun x => (f x).im
  real : v.IsCurved → ∀ x, (f x).im = 0

namespace DescribesEntry

variable {v w : Curvature} {f g : E → Cplx α}

theorem of_notDcp (f : E → Cplx α) : notDcp.DescribesEntry f where
  re := trivial
  im _ := trivial
  real curved := (by decide : ¬notDcp.IsCurved) curved |>.elim

theorem eq_of_constant (h : constant.DescribesEntry f) (x y : E) : f x = f y :=
  Cplx.ext (h.re x y) (h.im (.inl rfl) x y)

/-- Entries that are real. -/
theorem of_real {f : E → α} (h : v.Describes f) :
    v.DescribesEntry fun x => Cplx.ofReal (f x) where
  re := h
  im flat := by
    have zero : constant.Describes fun _ : E => (0 : α) := fun _ _ => rfl
    obtain rfl | rfl := flat
    · exact zero
    · exact zero.affine_of_constant
  real _ _ := rfl

theorem negate (h : v.DescribesEntry f) : v.negate.DescribesEntry fun x => -f x where
  re := h.re.negate
  im flat := (h.im (isFlat_of_negate flat)).negate
  real curved x := (congrArg (- ·) (h.real (isCurved_of_negate curved) x)).trans neg_zero

/-- A multiple by a real number that is not negative. -/
theorem smul {z : Cplx α} (nonneg : 0 ≤ z.re) (real : z.im = 0) (h : v.DescribesEntry f) :
    v.DescribesEntry fun x => z * f x := by
  have re (x : E) : (z * f x).re = z.re * (f x).re := by simp [real]
  have im (x : E) : (z * f x).im = z.re * (f x).im := by simp [real]
  constructor
  · simpa only [re] using h.re.smul nonneg
  · intro flat
    simpa only [im] using (h.im flat).smul nonneg
  · intro curved x
    rw [im, h.real curved x, mul_zero]

/-- Any multiple of what is flat. -/
theorem mul_of_flat (flat : v.IsFlat) (z : Cplx α) (h : v.DescribesEntry f) :
    v.DescribesEntry fun x => z * f x := by
  -- Either part is a combination of both parts.
  have re : v.Describes fun x => z.re * (f x).re - z.im * (f x).im := by
    have parts := (h.re.mul_of_flat flat z.re).sub ((h.im flat).mul_of_flat flat z.im)
    rwa [add_negate_of_flat flat] at parts
  have im : v.Describes fun x => z.re * (f x).im + z.im * (f x).re := by
    have parts := ((h.im flat).mul_of_flat flat z.re).add (h.re.mul_of_flat flat z.im)
    rwa [add_self_of_flat flat] at parts
  refine ⟨re, fun _ => im, fun curved => ?_⟩
  obtain rfl | rfl := flat <;> exact (by decide : ¬IsCurved _) curved |>.elim

/-- The rule for products: the sign has to be right about the factor. -/
theorem scale {s : Sign} {z : Cplx α} (sign : s.Agrees z) (h : v.DescribesEntry f) :
    (v.scale s).curvature.DescribesEntry fun x => z * f x := by
  have undecided (u : Sign) (doubt : ¬v.IsFlat → (v.scale u).curvature = .notDcp) :
      (v.scale u).curvature.DescribesEntry fun x => z * f x := by
    by_cases flat : v.IsFlat
    · rw [scale_of_flat flat]
      exact mul_of_flat flat z h
    · rw [doubt flat]
      exact of_notDcp _
  cases s with
  | positive =>
      obtain ⟨nonneg, real⟩ := sign
      rw [scale_positive]
      exact smul nonneg real h
  | negative =>
      obtain ⟨nonpos, real⟩ := sign
      -- The opposite factor is not negative.
      have opposite : v.negate.DescribesEntry fun x => -(-z * f x) :=
        (smul (neg_nonneg.mpr nonpos) (by simp [real]) h).negate
      rw [scale_negative]
      simpa only [neg_mul, neg_neg] using opposite
  | noSign => exact undecided _ (by cases v <;> decide)
  | complex => exact undecided _ (by cases v <;> decide)

/-- A flat difference is affine, both its parts together. -/
theorem exists_affine_sub (hf : v.DescribesEntry f) (hg : w.DescribesEntry g)
    (flat : (v.add w.negate).curvature.IsFlat) :
    ∃ d : E →ᵃ[α] α × α, ∀ x, d x = ((f x - g x).re, (f x - g x).im) := by
  obtain ⟨flat_f, flat_g⟩ := flat_of_add_negate flat
  obtain ⟨re, hre⟩ := (hf.re.sub hg.re).affine_of_flat flat
  obtain ⟨im, him⟩ := ((hf.im flat_f).sub (hg.im flat_g)).affine_of_flat flat
  exact ⟨re.prod im, fun x => Prod.ext (hre x).symm (him x).symm⟩

end DescribesEntry

end Curvature

/-! ## Expressions -/

namespace Expr

/-- A matrix that depends on the decision variables stands for an expression: it has the
shape of the expression, and the curvature of the expression describes its entries. -/
structure Realised (vars : Vars α) (e : Expr α) (F : E → Numeric Dense α) : Prop where
  shape : ∀ x, (F x).toComplex.shape = e.shape
  entry : ∀ i < e.shape.1, ∀ j < e.shape.2,
    (e.curvature vars).DescribesEntry fun x => (F x).toComplex.get i j

namespace Realised

variable {vars : Vars α} {a b : Expr α} {G F : E → Numeric Dense α}

/-- An entry of a product is an entry of the left operand times one of the right one. -/
theorem kron_entry (hG : a.Realised vars G) (hF : b.Realised vars F) {i j : Nat}
    (hi : i < a.shape.1 * b.shape.1) (hj : j < a.shape.2 * b.shape.2) :
    ∃ p < a.shape.1, ∃ q < a.shape.2, ∃ k < b.shape.1, ∃ l < b.shape.2,
      ∀ x, ((G x).map₂ Dense.kron (F x)).toComplex.get i j
        = (G x).toComplex.get p q * (F x).toComplex.get k l := by
  have rows : 0 < b.shape.1 := Nat.pos_of_ne_zero fun none => by simp [none] at hi
  have cols : 0 < b.shape.2 := Nat.pos_of_ne_zero fun none => by simp [none] at hj
  refine ⟨i / b.shape.1, Nat.div_lt_of_lt_mul (Nat.mul_comm .. ▸ hi),
    j / b.shape.2, Nat.div_lt_of_lt_mul (Nat.mul_comm .. ▸ hj),
    i % b.shape.1, Nat.mod_lt i rows, j % b.shape.2, Nat.mod_lt j cols, fun x => ?_⟩
  obtain ⟨rowsG, colsG⟩ := Prod.mk.inj (hG.shape x)
  obtain ⟨rowsF, colsF⟩ := Prod.mk.inj (hF.shape x)
  rw [← rowsG, ← rowsF] at hi
  rw [← colsG, ← colsF] at hj
  rw [Numeric.get_kron _ _ hi hj, Dense.get_kron _ _ hi hj, rowsF, colsF]

/-- The product of two matrices stands for the product of what they stand for. -/
theorem kron (hG : a.Realised vars G) (hF : b.Realised vars F)
    (signs : ∀ x, ∀ i < a.shape.1, ∀ j < a.shape.2,
      (a.sign vars).Agrees ((G x).toComplex.get i j)) (id : Id) :
    (Expr.kron id a b).Realised vars fun x => (G x).map₂ Dense.kron (F x) where
  shape x := by
    rw [Numeric.shape_toComplex, Numeric.shape_kron, ← Numeric.shape_toComplex,
      ← Numeric.shape_toComplex, hG.shape x, hF.shape x]
    rfl
  entry i hi j hj := by
    obtain ⟨p, hp, q, hq, k, hk, l, hl, product⟩ := kron_entry hG hF hi hj
    rw [curvature_kron, funext product]
    split
    · rename_i constant
      have left (x : E) : (G x).toComplex.get p q = (G 0).toComplex.get p q := by
        have entry := hG.entry p hp q hq
        rw [constant] at entry
        exact entry.eq_of_constant x 0
      simp only [left]
      exact (hF.entry k hk l hl).scale (signs 0 p hp q hq)
    · exact Curvature.DescribesEntry.of_notDcp _

end Realised

end Expr

/-! ## Constraints -/

namespace Constraint

/-- What it is that the values of the two sides meet a constraint.  Inequalities are between
the real parts, and the semidefinite order is that of any cone of matrices, each entry
being a real and an imaginary part. -/
def Met (c : Constraint α) (K : ConvexCone α (Fin c.shape.1 × Fin c.shape.2 → α × α))
    (L R : Numeric Dense α) : Prop :=
  match c.relation with
  | .atLeast => ∀ i < c.shape.1, ∀ j < c.shape.2,
      (R.toComplex.get i j).re ≤ (L.toComplex.get i j).re
  | .atMost => ∀ i < c.shape.1, ∀ j < c.shape.2,
      (L.toComplex.get i j).re ≤ (R.toComplex.get i j).re
  | .equal => ∀ i < c.shape.1, ∀ j < c.shape.2, L.toComplex.get i j = R.toComplex.get i j
  | .semidefinite =>
      (fun p => let d := L.toComplex.get p.1 p.2 - R.toComplex.get p.1 p.2
        (d.re, d.im)) ∈ K

variable {vars : Vars α}

omit [PartialOrder α] [OrderedEntry α] in
/-- Certified inequalities have a gap that is neither curved down nor uncertified. -/
theorem inequality_certified {gap : Verdict}
    (certified : (verdict.inequality gap).curvature ≠ .notDcp) :
    gap.curvature ≠ .notDcp ∧ gap.curvature ≠ .concave := by
  revert certified
  rw [verdict.inequality, Verdict.curvature_andThen]
  cases gap.curvature <;> decide

omit [Entry α] [PartialOrder α] [OrderedEntry α] in
/-- Certified equalities and semidefinite constraints have a flat difference. -/
theorem isFlat_of_certified {c : Constraint α}
    (two_sided : c.relation = .equal ∨ c.relation = .semidefinite)
    (certified : (c.verdict vars).curvature ≠ .notDcp) :
    ((c.lhs.curvature vars).add (c.rhs.curvature vars).negate).curvature.IsFlat := by
  change (differenceVerdict vars c.lhs c.rhs).curvature.IsFlat
  revert certified
  rw [verdict]
  obtain equal | semidefinite := two_sided
  · rw [equal, Verdict.curvature_andThen]
    cases (differenceVerdict vars c.lhs c.rhs).curvature <;> decide
  · rw [semidefinite, Verdict.curvature_andThen]
    cases (differenceVerdict vars c.lhs c.rhs).curvature <;> decide

/-- What holds entry by entry on convex sets holds of all entries on one. -/
theorem convex_setOf_entries {P : Nat → Nat → E → Prop} {r k : Nat}
    (entries : ∀ i < r, ∀ j < k, Convex α {x | P i j x}) :
    Convex α {x | ∀ i < r, ∀ j < k, P i j x} :=
  fun _ hx _ hy _ _ ha hb one i hi j hj =>
    entries i hi j hj (hx i hi j hj) (hy i hi j hj) ha hb one

/-- What meets a certified constraint is a convex set. -/
theorem convex_setOf_met {c : Constraint α} {L R : E → Numeric Dense α}
    (sides : c.rhs.shape = c.shape) (hL : c.lhs.Realised vars L) (hR : c.rhs.Realised vars R)
    (certified : (c.verdict vars).curvature ≠ .notDcp)
    (K : ConvexCone α (Fin c.shape.1 × Fin c.shape.2 → α × α)) :
    Convex α {x | c.Met K (L x) (R x)} := by
  have left := hL.entry
  have right := hR.entry
  rw [sides] at right
  obtain ⟨id, relation, lhs, rhs⟩ := c
  cases relation with
  | atLeast =>
      obtain ⟨some, gap⟩ := inequality_certified certified
      exact convex_setOf_entries fun i hi j hj =>
        (right i hi j hj).re.convex_setOf_le (left i hi j hj).re some gap
  | atMost =>
      obtain ⟨some, gap⟩ := inequality_certified certified
      exact convex_setOf_entries fun i hi j hj =>
        (left i hi j hj).re.convex_setOf_le (right i hi j hj).re some gap
  | equal =>
      have flat := isFlat_of_certified (.inl rfl) certified
      refine convex_setOf_entries fun i hi j hj => ?_
      obtain ⟨d, hd⟩ := (left i hi j hj).exists_affine_sub (right i hi j hj) flat
      have zero : {x | (L x).toComplex.get i j = (R x).toComplex.get i j} = Set.preimage d {0} := by
        ext x
        rw [Set.mem_preimage, hd, Set.mem_singleton_iff, Prod.mk_eq_zero]
        exact sub_eq_zero.symm.trans Cplx.ext_iff
      rw [zero]
      exact (convex_singleton 0).affine_preimage d
  | semidefinite =>
      have flat := isFlat_of_certified (.inr rfl) certified
      change ConvexCone α (Fin lhs.shape.1 × Fin lhs.shape.2 → α × α) at K
      choose d hd using fun p : Fin lhs.shape.1 × Fin lhs.shape.2 =>
        (left p.1 p.1.2 p.2 p.2.2).exists_affine_sub (right p.1 p.1.2 p.2 p.2.2) flat
      have inside : {x | Met ⟨id, .semidefinite, lhs, rhs⟩ K (L x) (R x)}
          = Set.preimage (AffineMap.pi d) K := by
        ext x
        exact iff_of_eq (congrArg (· ∈ K) (funext fun p => (hd p x).symm))
      rw [inside]
      exact K.convex.affine_preimage (AffineMap.pi d)

end Constraint

/-! ## Functions of one variable -/

/-- A one-by-one matrix. -/
def Numeric.cell (q : α) : Numeric Dense α := .real (.replicate 1 1 q)

omit [PartialOrder α] [OrderedEntry α] in
theorem Numeric.get_cell (q : α) : (cell q).toComplex.get 0 0 = Cplx.ofReal q := by
  refine (Dense.get_map Cplx.ofReal_zero (Dense.replicate 1 1 q) 0 0).trans ?_
  exact congrArg Cplx.ofReal (Dense.get_ofFn _ Nat.one_pos Nat.one_pos)

/-- A function of one variable as a matrix. -/
theorem Expr.Realised.of_cell {vars : Vars α} {e : Expr α} {f : α → α} (scalar : e.shape = (1, 1))
    (h : (e.curvature vars).Describes f) : e.Realised vars fun x => .cell (f x) where
  shape _ := scalar.symm
  entry i hi j hj := by
    rw [scalar] at hi hj
    obtain rfl := Nat.lt_one_iff.mp hi
    obtain rfl := Nat.lt_one_iff.mp hj
    simpa only [Numeric.get_cell] using Curvature.DescribesEntry.of_real h

theorem Curvature.Describes.square (nonneg : ∀ d : α, 0 ≤ d * d) :
    convex.Describes fun x : α => x * x := by
  refine ⟨convex_univ, fun x _ y _ a b ha hb one => ?_⟩
  obtain rfl : b = 1 - a := eq_sub_of_add_eq' one
  refine sub_nonneg.mp ?_
  have gap : a • (x * x) + (1 - a) • (y * y) - (a • x + (1 - a) • y) * (a • x + (1 - a) • y)
      = a * (1 - a) * ((x - y) * (x - y)) := by
    simp only [smul_eq_mul]
    ring
  rw [gap]
  exact mul_nonneg (mul_nonneg ha hb) (nonneg (x - y))

/-- `-2 * s ≥ -8`, where `s` is known to be convex. -/
def boundedSquare : Constraint ℚ where
  id := 5
  relation := .atLeast
  lhs := .kron 3 (.const ⟨1, .cell (-2), .negative⟩) (.stub ⟨2, 1, 1, .convex, .noSign⟩)
  rhs := .const ⟨4, .cell (-8), .negative⟩

/-! ## The verdicts -/

/-- The verdicts are right about all functions that the operands may stand for: what meets a
certified constraint is a convex set, and the entries of a product have the curvature that
the product is certified with, if the sign of the left operand is right about its entries. -/
theorem verdicts_sound (vars : Vars α) :
    (∀ (c : Constraint α) (L R : E → Numeric Dense α), c.rhs.shape = c.shape →
      c.lhs.Realised vars L → c.rhs.Realised vars R → (c.verdict vars).curvature ≠ .notDcp →
      ∀ K : ConvexCone α (Fin c.shape.1 × Fin c.shape.2 → α × α),
        Convex α {x | c.Met K (L x) (R x)}) ∧
    (∀ (id : Id) (a b : Expr α) (G F : E → Numeric Dense α),
      a.Realised vars G → b.Realised vars F →
      (∀ x, ∀ i < a.shape.1, ∀ j < a.shape.2,
        (a.sign vars).Agrees ((G x).toComplex.get i j)) →
      (Expr.kron id a b).Realised vars fun x => (G x).map₂ Dense.kron (F x)) :=
  ⟨fun _ _ _ sides hL hR certified => Constraint.convex_setOf_met sides hL hR certified,
    fun id _ _ _ _ hG hF signs => Expr.Realised.kron hG hF signs id⟩

/-- The square stands for what is known to be convex, and between any two solutions there
are only solutions. -/
theorem boundedSquare_convex : (boundedSquare.verdict []).curvature = .convex ∧
    ∀ x y a b : ℚ, 0 ≤ a → 0 ≤ b → a + b = 1 →
      boundedSquare.Met ⊤ ((Numeric.cell (-2)).map₂ Dense.kron (.cell (x * x))) (.cell (-8)) →
      boundedSquare.Met ⊤ ((Numeric.cell (-2)).map₂ Dense.kron (.cell (y * y))) (.cell (-8)) →
      boundedSquare.Met ⊤ ((Numeric.cell (-2)).map₂ Dense.kron
        (.cell ((a * x + b * y) * (a * x + b * y)))) (.cell (-8)) := by
  have verdict : (boundedSquare.verdict []).curvature = .convex := rfl
  have sound := @verdicts_sound ℚ _ _ _ ℚ LawfulEntry.toAddCommGroup
    (@Semiring.toModule ℚ (LawfulEntry.toCommRing (R := ℚ)).toSemiring) []
  have product := sound.2 3 (.const ⟨1, .cell (-2), .negative⟩)
    (.stub ⟨2, 1, 1, .convex, .noSign⟩) (fun _ => .cell (-2)) (fun x => .cell (x * x))
    (.of_cell rfl fun _ _ => rfl) (.of_cell rfl (.square (mul_self_nonneg (R := ℚ))))
    (fun _ i hi j hj => by
      obtain rfl := Nat.lt_one_iff.mp hi
      obtain rfl := Nat.lt_one_iff.mp hj
      rw [Numeric.get_cell]
      exact ⟨by decide, rfl⟩)
  have convex := sound.1 boundedSquare _ (fun _ => .cell (-8)) rfl product
    (.of_cell rfl fun _ _ => rfl) (by rw [verdict]; decide) ⊤
  exact ⟨verdict, fun x y a b ha hb one hx hy => convex hx hy ha hb one⟩

end ConicModel
