/-
# The Kronecker operator is the Kronecker product

`kroneckerOperator A m n` stores, in the column of entry `(k, l)`, one value for each
nonzero entry `(i, j)` of `A`.  Read at a row, a column is therefore a double sum,
and the row names the only pair that counts in it.  Times the flattening of an
`m × n` matrix `B` this gives the flattening of `A ⊗ B`, entry by entry
(`sum_kroneckerOperator`).

A row `r` of the product is split twice: into the place `r % (p * m)` inside a column
of `A ⊗ B` and the column `r / (p * m)`, and each of these into a place in `A` and a
place in `B`.
-/
import ConicModel.Proofs.Matrix.Entries
import ConicModel.Matrix.Kronecker

namespace ConicModel

open Finset

/-- Two parts of an index can be read off by division and remainder. -/
theorem split_index {m k a b : Nat} (hk : k < m) : a * m + k = b ↔ a = b / m ∧ k = b % m := by
  constructor
  · rintro rfl
    rw [Nat.add_comm, Nat.add_mul_div_right _ _ (by omega), Nat.add_mul_mod_self_right,
      Nat.div_eq_of_lt hk, Nat.mod_eq_of_lt hk, Nat.zero_add]
    exact ⟨rfl, rfl⟩
  · rintro ⟨rfl, rfl⟩
    exact Nat.div_add_mod' b m

variable {R : Type} [Entry R] [LawfulEntry R]

theorem valueAt_flatMap_range (n : Nat) (f : Nat → Sparse.Column R) (r : Nat) :
    Sparse.Column.valueAt ((List.range n).flatMap f) r
      = ∑ j ∈ range n, Sparse.Column.valueAt (f j) r := by
  induction n with
  | zero => rfl
  | succ n ih =>
      rw [List.range_succ, List.flatMap_append, Sparse.Column.valueAt_append, ih, sum_range_succ]
      simp

/-- Read at a row, the column of entry `(k, l)` gives the entry of `A` whose block has
that row at `(k, l)`, if there is one. -/
theorem valueAt_kroneckerColumn (A : Dense R) {m n k l r : Nat} (hk : k < m) (hl : l < n)
    (hr : r < A.rows * m * (A.cols * n)) :
    (kroneckerColumn A m n k l).valueAt r
      = if k = r % (A.rows * m) % m ∧ l = r / (A.rows * m) % n
        then A.get (r % (A.rows * m) / m) (r / (A.rows * m) / n) else 0 := by
  have hrow : r % (A.rows * m) / m < A.rows := by
    refine Nat.div_lt_of_lt_mul ?_
    rw [Nat.mul_comm m]
    exact Nat.mod_lt _ (Nat.pos_of_ne_zero fun h0 => by simp [h0] at hr)
  have hcol : r / (A.rows * m) / n < A.cols := by
    refine Nat.div_lt_of_lt_mul (Nat.div_lt_of_lt_mul ?_)
    rwa [Nat.mul_comm n]
  -- A stored row is `r` only for one pair of indices.
  have place (i j : Nat) (hi : i < A.rows) :
      i * m + k + (j * n + l) * (A.rows * m) = r ↔
        (i = r % (A.rows * m) / m ∧ k = r % (A.rows * m) % m) ∧
          j = r / (A.rows * m) / n ∧ l = r / (A.rows * m) % n := by
    have hik : i * m + k < A.rows * m :=
      calc i * m + k < i * m + m := Nat.add_lt_add_left hk _
        _ = (i + 1) * m := (Nat.succ_mul i m).symm
        _ ≤ A.rows * m := Nat.mul_le_mul_right m hi
    rw [Nat.add_comm, split_index hik, split_index hk, split_index hl]
    exact and_comm
  have inner (j : Nat) :
      Sparse.Column.valueAt ((List.range A.rows).filterMap fun i =>
        if isZero (A.get i j) then none
        else some (i * m + k + (j * n + l) * (A.rows * m), A.get i j)) r
        = if j = r / (A.rows * m) / n then
            if k = r % (A.rows * m) % m ∧ l = r / (A.rows * m) % n
            then A.get (r % (A.rows * m) / m) j else 0
          else 0 := by
    rw [Sparse.valueAt_filterMap_range A.rows
        (fun i => i * m + k + (j * n + l) * (A.rows * m)) (fun i => A.get i j),
      sum_eq_single (r % (A.rows * m) / m)]
    · simp only [place _ _ hrow, true_and]
      split_ifs <;> simp_all
    · intro i hi hne
      rw [if_neg fun h => hne ((place i j (mem_range.mp hi)).mp h).1.1]
    · intro h
      exact absurd (mem_range.mpr hrow) h
  rw [kroneckerColumn, valueAt_flatMap_range]
  simp only [inner]
  rw [sum_ite_eq', if_pos (mem_range.mpr hcol)]

/-- The operator takes the flattening of `B` to that of `A ⊗ B`. -/
theorem sum_kroneckerOperator (A B : Dense R) {r : Nat}
    (hr : r < A.rows * B.rows * (A.cols * B.cols)) :
    ∑ c ∈ range (B.rows * B.cols),
        (kroneckerOperator A B.rows B.cols).get r c * B.vec.get c 0
      = (A.kron B).vec.get r 0 := by
  have hm : 0 < B.rows := Nat.pos_of_ne_zero fun h0 => by simp [h0] at hr
  have hn : 0 < B.cols := Nat.pos_of_ne_zero fun h0 => by simp [h0] at hr
  have hp : 0 < A.rows * B.rows := Nat.pos_of_ne_zero fun h0 => by simp [h0] at hr
  have hrow : r % (A.rows * B.rows) < A.rows * B.rows := Nat.mod_lt _ hp
  have hcol : r / (A.rows * B.rows) < A.cols * B.cols := Nat.div_lt_of_lt_mul hr
  have hk : r % (A.rows * B.rows) % B.rows < B.rows := Nat.mod_lt _ hm
  have hl : r / (A.rows * B.rows) % B.cols < B.cols := Nat.mod_lt _ hn
  have target : r / (A.rows * B.rows) % B.cols * B.rows + r % (A.rows * B.rows) % B.rows
      < B.rows * B.cols :=
    calc _ < r / (A.rows * B.rows) % B.cols * B.rows + B.rows := Nat.add_lt_add_left hk _
      _ = (r / (A.rows * B.rows) % B.cols + 1) * B.rows := (Nat.succ_mul _ _).symm
      _ ≤ B.cols * B.rows := Nat.mul_le_mul_right _ hl
      _ = B.rows * B.cols := Nat.mul_comm ..
  rw [sum_eq_single (r / (A.rows * B.rows) % B.cols * B.rows + r % (A.rows * B.rows) % B.rows)]
  · obtain ⟨hdiv, hmod⟩ := (split_index (a := r / (A.rows * B.rows) % B.cols) hk).mp rfl
    rw [kroneckerOperator, Sparse.get_ofColumns _ target, ← hdiv, ← hmod,
      valueAt_kroneckerColumn A hk hl hr, if_pos ⟨rfl, rfl⟩, Dense.get_vec B target,
      Dense.get_vec (A.kron B) hr, ← hdiv, ← hmod]
    exact (Dense.get_kron A B hrow hcol).symm
  · intro c hc hne
    have hc : c < B.rows * B.cols := mem_range.mp hc
    rw [kroneckerOperator, Sparse.get_ofColumns _ hc,
      valueAt_kroneckerColumn A (Nat.mod_lt _ hm) (Nat.div_lt_of_lt_mul hc) hr, if_neg, zero_mul]
    rintro ⟨hmod, hdiv⟩
    exact hne ((split_index hk).mpr ⟨hdiv.symm, hmod.symm⟩).symm
  · intro h
    exact absurd (mem_range.mpr target) h

end ConicModel
