/-
# Kronecker products one inside the other

The Kronecker product is associative, so multiplying by `C` and then by `A` is multiplying by
`A ⊗ C`.  Said of operators: that of `A` on the products with `C`, times that of `C`, is that
of `A ⊗ C` (`sum_kroneckerOperator_kron`).

The operators number their rows and columns in mixed radices, each in its own, and nothing has
to be computed with these.  A column of an operator is what the operator makes of a matrix with
a single one, so the law for operators is associativity read at such a matrix.
-/
import ConicModel.Proofs.Matrix.Positions
import ConicModel.Proofs.Evaluation

namespace ConicModel

open Finset

/-! ## Associativity -/

section Associativity

variable {R : Type} [Entry R] [LawfulEntry R]

omit [Entry R] [LawfulEntry R] in
/-- An index names a block and a place in it. -/
theorem exists_index {p q i : Nat} (hi : i < p * q) : ∃ a < p, ∃ k < q, i = a * q + k := by
  have pos : 0 < q := Nat.pos_of_ne_zero fun h => by simp [h] at hi
  exact ⟨i / q, Nat.div_lt_of_lt_mul (Nat.mul_comm p q ▸ hi), i % q, Nat.mod_lt i pos,
    (Nat.div_add_mod' i q).symm⟩

/-- A place in three factors is one digit for each, however they are grouped. -/
theorem Dense.kron_assoc (A B C : Dense R) : (A.kron B).kron C = A.kron (B.kron C) := by
  refine ext_get (Nat.mul_assoc ..) (Nat.mul_assoc ..) fun i hi j hj => ?_
  have grouped (a b c q s : Nat) : (a * q + b) * s + c = a * (q * s) + (b * s + c) := by ring
  obtain ⟨i', hi', c, hc, rfl⟩ := exists_index (p := A.rows * B.rows) hi
  obtain ⟨a, ha, b, hb, rfl⟩ := exists_index hi'
  obtain ⟨j', hj', f, hf, rfl⟩ := exists_index (p := A.cols * B.cols) hj
  obtain ⟨d, hd, e, he, rfl⟩ := exists_index hj'
  calc ((A.kron B).kron C).get ((a * B.rows + b) * C.rows + c) ((d * B.cols + e) * C.cols + f)
      = (A.kron B).get (a * B.rows + b) (d * B.cols + e) * C.get c f :=
        get_kron_block _ C (index_lt ha hb) (index_lt hd he) hc hf
    _ = A.get a d * B.get b e * C.get c f := by rw [get_kron_block A B ha hd hb he]
    _ = A.get a d * (B.kron C).get (b * C.rows + c) (e * C.cols + f) := by
        rw [mul_assoc, get_kron_block B C hb he hc hf]
    _ = (A.kron (B.kron C)).get (a * (B.rows * C.rows) + (b * C.rows + c))
          (d * (B.cols * C.cols) + (e * C.cols + f)) :=
        (get_kron_block A (B.kron C) ha hd (index_lt hb hc) (index_lt he hf)).symm
    _ = (A.kron (B.kron C)).get ((a * B.rows + b) * C.rows + c)
          ((d * B.cols + e) * C.cols + f) := by rw [grouped, grouped]

end Associativity

/-! ## Operators -/

section Operators

variable {R : Type} [Entry R] [LawfulEntry R]

/-- The matrix with a one at a place of its flattening, and zeros elsewhere. -/
def Dense.single (m n c : Nat) : Dense R :=
  ofFn m n fun k l => if l * m + k = c then 1 else 0

omit [LawfulEntry R] in
theorem Dense.entry_of_single {m n c d : Nat} (hd : d < m * n) :
    (single m n c : Dense R).vec.get d 0 = if d = c then 1 else 0 := by
  have hm : 0 < m := Nat.pos_of_ne_zero fun h => by simp [h] at hd
  rw [get_vec _ hd]
  refine (get_ofFn _ (Nat.mod_lt d hm) (Nat.div_lt_of_lt_mul hd)).trans ?_
  simp only [Nat.div_add_mod']

/-- A column of an operator is what it makes of a single one. -/
theorem get_kroneckerOperator (A : Dense R) {m n r c : Nat} (hr : r < A.rows * m * (A.cols * n))
    (hc : c < m * n) :
    (kroneckerOperator A m n).get r c = (A.kron (.single m n c)).vec.get r 0 := by
  have product : ∑ d ∈ range (m * n),
      (kroneckerOperator A m n).get r d * (Dense.single m n c).vec.get d 0
        = (A.kron (.single m n c)).vec.get r 0 := sum_kroneckerOperator A (.single m n c) hr
  rw [← product, sum_eq_single c]
  · rw [Dense.entry_of_single hc, if_pos rfl, mul_one]
  · intro d hd ne
    rw [Dense.entry_of_single (mem_range.mp hd), if_neg ne, mul_zero]
  · intro out
    exact absurd (mem_range.mpr hc) out

/-- The operator of a product is the product of the operators. -/
theorem sum_kroneckerOperator_kron (A C : Dense R) {m n r c : Nat}
    (hr : r < A.rows * C.rows * m * (A.cols * C.cols * n)) (hc : c < m * n) :
    ∑ l ∈ range (C.rows * m * (C.cols * n)),
        (kroneckerOperator A (C.rows * m) (C.cols * n)).get r l
          * (kroneckerOperator C m n).get l c
      = (kroneckerOperator (A.kron C) m n).get r c := by
  have hr' : r < A.rows * (C.rows * m) * (A.cols * (C.cols * n)) := by
    rwa [Nat.mul_assoc A.rows, Nat.mul_assoc A.cols] at hr
  calc _ = ∑ l ∈ range (C.rows * m * (C.cols * n)),
        (kroneckerOperator A (C.rows * m) (C.cols * n)).get r l
          * (C.kron (.single m n c)).vec.get l 0 := by
        refine sum_congr rfl fun l hl => ?_
        rw [get_kroneckerOperator C (mem_range.mp hl) hc]
    _ = (A.kron (C.kron (.single m n c))).vec.get r 0 :=
        sum_kroneckerOperator A (C.kron (.single m n c)) hr'
    _ = ((A.kron C).kron (.single m n c)).vec.get r 0 := by rw [Dense.kron_assoc]
    _ = (kroneckerOperator (A.kron C) m n).get r c :=
        (get_kroneckerOperator (A.kron C) hr hc).symm

end Operators

/-! ## Either element type -/

namespace Numeric

variable {α : Type} [Entry α] [LawfulEntry α]

theorem toComplex_kron (A B : Numeric Dense α) :
    (A.map₂ Dense.kron B).toComplex = A.toComplex.kron B.toComplex := by
  refine Dense.ext_get ?rows ?cols fun i hi j hj => get_kron A B ?_ ?_
  case rows => cases A <;> cases B <;> rfl
  case cols => cases A <;> cases B <;> rfl
  all_goals cases A <;> cases B <;> assumption

/-- The element type does not depend on the grouping either. -/
theorem kron_assoc (A B C : Numeric Dense α) :
    (A.map₂ Dense.kron B).map₂ Dense.kron C = A.map₂ Dense.kron (B.map₂ Dense.kron C) := by
  have complex : (A.map₂ Dense.kron B).toComplex.kron C.toComplex
      = A.toComplex.kron (B.map₂ Dense.kron C).toComplex := by
    rw [toComplex_kron, toComplex_kron, Dense.kron_assoc]
  cases A with
  | complex A => cases B <;> cases C <;> exact congrArg _ complex
  | real A =>
      cases B with
      | complex B => cases C <;> exact congrArg _ complex
      | real B =>
          cases C with
          | complex C => exact congrArg _ complex
          | real C => exact congrArg _ (Dense.kron_assoc A B C)

/-- The operator of a constant, as coefficients. -/
theorem entry_operator {A : Numeric Dense α} {p q m n r c : Nat} (hA : A.on Dense.shape = (p, q))
    (hr : r < p * m * (q * n)) (hc : c < m * n) :
    Coeffs.entry (A.map fun A => kroneckerOperator A m n) r c
      = (kroneckerOperator A.toComplex m n).get r c := by
  cases A with
  | complex A => rfl
  | real A =>
      obtain ⟨rfl, rfl⟩ := Prod.mk.inj hA
      refine (Coeffs.entry_real _ r c).trans ?_
      exact (get_kroneckerOperator_map Cplx.ofReal_zero A hr hc).symm

/-- The operator of a product of constants is the product of their operators. -/
theorem sum_entry_operator {A C : Numeric Dense α} {p q s t m n r c : Nat}
    (hA : A.on Dense.shape = (p, q)) (hC : C.on Dense.shape = (s, t))
    (hr : r < p * (s * m) * (q * (t * n))) (hc : c < m * n) :
    ∑ l ∈ range (s * m * (t * n)),
        Coeffs.entry (A.map fun A => kroneckerOperator A (s * m) (t * n)) r l
          * Coeffs.entry (C.map fun C => kroneckerOperator C m n) l c
      = Coeffs.entry ((A.map₂ Dense.kron C).map fun D => kroneckerOperator D m n) r c := by
  have whole : (A.map₂ Dense.kron C).on Dense.shape = (p * s, q * t) := by
    rw [shape_kron, hA, hC]
  have hr' : r < p * s * m * (q * t * n) := by
    rwa [← Nat.mul_assoc p, ← Nat.mul_assoc q] at hr
  have complexA := (shape_toComplex A).trans hA
  have complexC := (shape_toComplex C).trans hC
  rw [entry_operator whole hr' hc, toComplex_kron]
  obtain ⟨rfl, rfl⟩ := Prod.mk.inj complexA
  obtain ⟨rfl, rfl⟩ := Prod.mk.inj complexC
  rw [← sum_kroneckerOperator_kron _ _ hr' hc]
  refine sum_congr rfl fun l hl => ?_
  rw [entry_operator hA hr (mem_range.mp hl), entry_operator hC (mem_range.mp hl) hc]

end Numeric

end ConicModel
