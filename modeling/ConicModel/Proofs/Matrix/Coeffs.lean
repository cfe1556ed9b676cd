/-
# Entries of coefficient matrices

Coefficients are real or complex, and an operation with one complex operand is carried
out in complex numbers.  `Coeffs.entry` reads either sort as a complex number, and
read that way an operation on coefficients is the operation on matrices, whatever the
sorts of its operands.
-/
import ConicModel.Proofs.Matrix.Entries
import Mathlib.Algebra.BigOperators.Group.Finset.Sigma
import ConicModel.Matrix.Coeffs

namespace ConicModel

open Finset

namespace Coeffs

variable {α : Type}

@[simp] theorem rows_zeros (r c : Nat) : rows (zeros r c : Coeffs α) = r := rfl

@[simp] theorem cols_zeros (r c : Nat) : cols (zeros r c : Coeffs α) = c := Sparse.cols_zeros r c

variable [Entry α]

/-- A coefficient as a complex number. -/
def entry (A : Coeffs α) (i j : Nat) : Cplx α := A.toComplex.get i j

@[simp] theorem rows_neg (A : Coeffs α) : rows (neg A) = rows A := by
  cases A <;> rfl

@[simp] theorem cols_neg (A : Coeffs α) : cols (neg A) = cols A := by
  cases A <;> exact Sparse.cols_neg _

@[simp] theorem rows_mul (A B : Coeffs α) : rows (mul A B) = rows A := by
  cases A <;> cases B <;> rfl

theorem cols_toComplex (A : Coeffs α) : A.toComplex.cols = cols A := by
  cases A
  · exact Sparse.cols_map _ _
  · rfl

@[simp] theorem cols_mul (A B : Coeffs α) : cols (mul A B) = cols B := by
  cases A <;> cases B
  · exact Sparse.cols_mul _ _
  · exact Sparse.cols_mul _ _
  · exact (Sparse.cols_mul _ _).trans (Sparse.cols_map _ _)
  · exact Sparse.cols_mul _ _

/-- A sum is only made of matrices of one shape, and it has that shape. -/
theorem shape_add {A B C : Coeffs α} (h : add? A B = some C) :
    rows B = rows A ∧ cols B = cols A ∧ rows C = rows A ∧ cols C = cols A := by
  rw [add?] at h
  split at h
  · rename_i same
    obtain ⟨hrows, hcols⟩ := Prod.mk.inj same
    cases h
    refine ⟨hrows.symm, hcols.symm, ?_, ?_⟩
    · cases A <;> cases B <;> rfl
    · cases A <;> cases B
      · exact Sparse.cols_add _ _
      · exact (Sparse.cols_add _ _).trans (Sparse.cols_map _ _)
      · exact Sparse.cols_add _ _
      · exact Sparse.cols_add _ _
  · cases h

variable [LawfulEntry α]

theorem entry_real (A : Sparse α) (i j : Nat) :
    entry (.real A) i j = Cplx.ofReal (A.get i j) :=
  Sparse.get_map Cplx.ofReal_zero Cplx.ofReal_add A i j

omit [LawfulEntry α] in
theorem entry_complex (A : Sparse (Cplx α)) (i j : Nat) :
    entry (.complex A : Coeffs α) i j = A.get i j := rfl

@[simp] theorem entry_zeros (r c i j : Nat) : entry (zeros r c : Coeffs α) i j = 0 := by
  rw [zeros, entry_real, Sparse.get_zeros, Cplx.ofReal_zero]

theorem entry_neg (A : Coeffs α) (i j : Nat) : entry (neg A) i j = -entry A i j := by
  cases A with
  | real A =>
      show entry (.real A.neg) i j = _
      rw [entry_real, entry_real, Sparse.get_neg, Cplx.ofReal_neg]
  | complex A => exact Sparse.get_neg A i j

/-- The entries of a sum. -/
theorem entry_add {A B C : Coeffs α} (h : add? A B = some C) {j : Nat} (hj : j < cols A)
    (i : Nat) : entry C i j = entry A i j + entry B i j := by
  rw [add?] at h
  split at h
  · cases h
    cases A with
    | real A =>
        cases B with
        | real B =>
            show entry (.real (A.add B)) i j = _
            rw [entry_real, entry_real, entry_real, Sparse.get_add A B hj, Cplx.ofReal_add]
        | complex B =>
            exact Sparse.get_add _ B (lt_of_lt_of_eq hj (Sparse.cols_map _ A).symm) i
    | complex A => cases B <;> exact Sparse.get_add A _ hj i
  · cases h

/-- The entries of a product. -/
theorem entry_mul (A B : Coeffs α) {j : Nat} (hj : j < cols B) (i : Nat) :
    entry (mul A B) i j = ∑ k ∈ range (cols A), entry A i k * entry B k j := by
  have general (C : Sparse (Cplx α)) (D : Sparse (Cplx α)) (hC : C = A.toComplex)
      (hD : D = B.toComplex) :
      (C.mul D).get i j = ∑ k ∈ range (cols A), entry A i k * entry B k j := by
    subst hC hD
    rw [Sparse.get_mul _ _ (lt_of_lt_of_eq hj (cols_toComplex B).symm), cols_toComplex]
    rfl
  cases A with
  | real A =>
      cases B with
      | real B =>
          show entry (.real (A.mul B)) i j = _
          rw [entry_real, Sparse.get_mul A B hj]
          simp only [entry_real, ← Cplx.ofReal_mul]
          exact map_sum (AddMonoidHom.mk' (Cplx.ofReal (α := α)) Cplx.ofReal_add) _ _
      | complex B => exact general _ _ rfl rfl
  | complex A => cases B <;> exact general _ _ rfl rfl

/-- The entries of a real and an imaginary part put together. -/
theorem get_join (re im : Coeffs α) {j : Nat} (hj : j < cols re) (i : Nat) :
    (join re im).get i j = entry re i j + Cplx.I * entry im i j := by
  rw [join, Sparse.get_add _ _ (lt_of_lt_of_eq hj (cols_toComplex re).symm), timesI,
    Sparse.get_map (mul_zero Cplx.I) (fun x y => mul_add Cplx.I x y)]
  rfl

/-- Split into its parts, a complex number comes together again. -/
theorem entry_parts (A : Sparse (Cplx α)) (i j : Nat) :
    entry (realPart A) i j + Cplx.I * entry (imagPart A) i j = A.get i j := by
  rw [realPart, imagPart, entry_real, entry_real,
    Sparse.get_map (f := Cplx.re) rfl (fun _ _ => rfl),
    Sparse.get_map (f := Cplx.im) rfl (fun _ _ => rfl), Cplx.re_add_I_mul_im]

/-! ## A matrix times a real column -/

/-- Row `i` of a matrix times a column of real numbers. -/
def times (A : Coeffs α) (x : Nat → α) (i : Nat) : Cplx α :=
  ∑ j ∈ range (cols A), entry A i j * Cplx.ofReal (x j)

@[simp] theorem times_zeros (r c : Nat) (x : Nat → α) (i : Nat) :
    times (zeros r c : Coeffs α) x i = 0 := by
  simp [times]

theorem times_neg (A : Coeffs α) (x : Nat → α) (i : Nat) : times (neg A) x i = -times A x i := by
  simp only [times, cols_neg, entry_neg, neg_mul, sum_neg_distrib]

theorem times_add {A B C : Coeffs α} (h : add? A B = some C) (x : Nat → α) (i : Nat) :
    times C x i = times A x i + times B x i := by
  obtain ⟨-, hB, -, hC⟩ := shape_add h
  rw [times, times, times, hB, hC, ← sum_add_distrib]
  refine sum_congr rfl fun j hj => ?_
  rw [entry_add h (mem_range.mp hj), add_mul]

/-- A product times a column is the first matrix times the column that the second one
gives. -/
theorem times_mul (A B : Coeffs α) (x : Nat → α) (i : Nat) :
    times (mul A B) x i = ∑ l ∈ range (cols A), entry A i l * times B x l := by
  simp only [times, mul_sum]
  rw [sum_comm, cols_mul]
  refine sum_congr rfl fun j hj => ?_
  rw [entry_mul A B (mem_range.mp hj), sum_mul]
  exact sum_congr rfl fun l _ => mul_assoc ..

/-- The identity picks a place, times whatever it was multiplied with. -/
theorem times_scaled_identity (z : Cplx α) (n : Nat) (x : Nat → α) {i : Nat} (hi : i < n) :
    times (.complex ((Sparse.identity n).map (z * ·)) : Coeffs α) x i = z * Cplx.ofReal (x i) := by
  have cols : cols (.complex ((Sparse.identity n).map (z * ·)) : Coeffs α) = n :=
    (Sparse.cols_map _ _).trans (Sparse.cols_identity n)
  rw [times, cols, sum_eq_single i]
  · rw [entry_complex, Sparse.get_map (mul_zero z) (fun a b => mul_add z a b),
      Sparse.get_identity hi, if_pos rfl, mul_one]
  · intro j hj ne
    rw [entry_complex, Sparse.get_map (mul_zero z) (fun a b => mul_add z a b),
      Sparse.get_identity (mem_range.mp hj), if_neg ne.symm, mul_zero, zero_mul]
  · intro h
    exact absurd (mem_range.mpr hi) h

theorem times_identity (n : Nat) (x : Nat → α) {i : Nat} (hi : i < n) :
    times (identity n : Coeffs α) x i = Cplx.ofReal (x i) := by
  have cols : cols (identity n : Coeffs α) = n := Sparse.cols_identity n
  rw [times, cols, sum_eq_single i]
  · rw [identity, entry_real, Sparse.get_identity hi, if_pos rfl, Cplx.ofReal_one, one_mul]
  · intro j hj ne
    rw [identity, entry_real, Sparse.get_identity (mem_range.mp hj), if_neg ne.symm,
      Cplx.ofReal_zero, zero_mul]
  · intro h
    exact absurd (mem_range.mpr hi) h

end Coeffs

end ConicModel
