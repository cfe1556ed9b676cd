/-
# What the Kronecker operator stores

The operator of a `p × q` matrix `A` on `m × n` matrices is listed entry by entry: for each
nonzero entry `(i, j)` of `A`, in the order of its rows, and for each position `(k, l)` of the
argument, in the same order, the value `A i j` at the row `(i·m + k) + (j·n + l)·(p·m)` and
the column `k + l·m` (`kroneckerTriplets`).

Row and column together name all four indices, so no position is listed twice and nothing has
to be added up when the list is brought into columns.  The operator stores the list and no
more: every column of it is what the list has for that column, with the rows in increasing
order (`column_kroneckerOperator_perm`, `kroneckerColumn_sorted`).  What is stored can be
counted from this.  `kroneckerOperator_vectorises` puts it together with what the operator
does to the flattening of a matrix.
-/
import ConicModel.Proofs.Matrix.Kronecker
import Mathlib.Algebra.BigOperators.Fin
import Mathlib.Data.List.ProdSigma

namespace ConicModel

open Finset

variable {R : Type}

/-- The place `k` in the block `i`. -/
theorem index_lt {p q i k : Nat} (hi : i < p) (hk : k < q) : i * q + k < p * q :=
  calc i * q + k < i * q + q := Nat.add_lt_add_left hk _
    _ = (i + 1) * q := (Nat.succ_mul i q).symm
    _ ≤ p * q := Nat.mul_le_mul_right q hi

/-! ## Matrices known by their entries -/

/-- Two matrices of one shape with the same entries are the same. -/
theorem Dense.ext_get [Zero R] {A B : Dense R} (rows : A.rows = B.rows) (cols : A.cols = B.cols)
    (entries : ∀ i < A.rows, ∀ j < A.cols, A.get i j = B.get i j) : A = B := by
  obtain ⟨r, c, xs, hx⟩ := A
  obtain ⟨r', c', ys, hy⟩ := B
  obtain rfl : r = r' := rows
  obtain rfl : c = c' := cols
  have data : xs = ys := by
    refine Array.ext (hx.trans hy.symm) fun k hk hk' => ?_
    have inside : k < r * c := hx ▸ hk
    have pos : 0 < c := Nat.pos_of_ne_zero fun h => by simp [h] at inside
    have same := entries (k / c) (Nat.div_lt_of_lt_mul (Nat.mul_comm .. ▸ inside)) (k % c)
      (Nat.mod_lt k pos)
    simpa [get, Nat.mod_lt k pos, Nat.div_add_mod', Array.getD, hk, hk'] using same
  subst data
  rfl

namespace Sparse

/-- The columns are counted one after the other. -/
theorem stored_eq_sum (A : Sparse R) :
    A.stored = (A.columns.toList.map List.length).sum := by
  have step (xs : List (Column R)) (n : Nat) :
      xs.foldl (fun n c => n + c.length) n = n + (xs.map List.length).sum := by
    induction xs generalizing n with
    | nil => rfl
    | cons x xs ih => rw [List.foldl_cons, ih, List.map_cons, List.sum_cons, Nat.add_assoc]
  rw [stored, ← Array.foldl_toList, step, Nat.zero_add]

/-- What is stored is stored in the columns. -/
theorem stored_ofColumns (r c : Nat) (f : Nat → Column R) :
    (ofColumns r c f).stored = ∑ j ∈ range c, (f j).length := by
  rw [stored_eq_sum, ofColumns, Array.toList_ofFn, List.map_ofFn, List.sum_ofFn]
  exact Fin.sum_univ_eq_sum_range (fun j => (f j).length) c

end Sparse

/-! ## The list of entries -/

section Entries

variable [Entry R]

/-- The positions of the entries that are not zero, row by row. -/
def Dense.nonzeros (A : Dense R) : List (Nat × Nat) :=
  (List.range A.rows ×ˢ List.range A.cols).filter fun p => !isZero (A.get p.1 p.2)

/-- The entries `(row, column, value)` of the operator. -/
def kroneckerTriplets (A : Dense R) (m n : Nat) : List (Nat × Nat × R) :=
  (A.nonzeros ×ˢ (List.range m ×ˢ List.range n)).map fun t =>
    (t.1.1 * m + t.2.1 + (t.1.2 * n + t.2.2) * (A.rows * m), t.2.1 + t.2.2 * m,
      A.get t.1.1 t.1.2)

theorem Dense.mem_nonzeros {A : Dense R} {i j : Nat} :
    (i, j) ∈ A.nonzeros ↔ (i < A.rows ∧ j < A.cols) ∧ isZero (A.get i j) = false := by
  rw [nonzeros, List.mem_filter, List.mem_product, List.mem_range, List.mem_range,
    Bool.not_eq_true']

theorem Dense.nodup_nonzeros (A : Dense R) : A.nonzeros.Nodup :=
  ((List.nodup_range).product List.nodup_range).filter _

theorem mem_kroneckerTriplets {A : Dense R} {m n r c : Nat} {x : R} :
    (r, c, x) ∈ kroneckerTriplets A m n ↔ ∃ i j k l, (i, j) ∈ A.nonzeros ∧ k < m ∧ l < n ∧
      i * m + k + (j * n + l) * (A.rows * m) = r ∧ k + l * m = c ∧ A.get i j = x := by
  simp only [kroneckerTriplets, List.mem_map, Prod.exists, List.mem_product, List.mem_range,
    Prod.mk.injEq]
  constructor
  · rintro ⟨i, j, k, l, ⟨hij, hk, hl⟩, hr, hc, hx⟩
    exact ⟨i, j, k, l, hij, hk, hl, hr, hc, hx⟩
  · rintro ⟨i, j, k, l, hij, hk, hl, hr, hc, hx⟩
    exact ⟨i, j, k, l, ⟨hij, hk, hl⟩, hr, hc, hx⟩

/-- A row and a column name the indices they were made from. -/
theorem kronecker_place_inj {p m n i j k l i' j' k' l' : Nat} (hi : i < p) (hk : k < m)
    (hi' : i' < p) (hk' : k' < m) (hl : l < n) (hl' : l' < n)
    (row : i * m + k + (j * n + l) * (p * m) = i' * m + k' + (j' * n + l') * (p * m)) :
    i = i' ∧ j = j' ∧ k = k' ∧ l = l' := by
  rw [Nat.add_comm, Nat.add_comm (i' * m + k')] at row
  obtain ⟨high, rest⟩ := (split_index (index_lt hi hk)).mp row
  obtain ⟨high', rest'⟩ := (split_index (index_lt hi' hk')).mp
    (rfl : (j' * n + l') * (p * m) + (i' * m + k') = _)
  obtain ⟨hj, hl⟩ := (split_index hl).mp (high.trans high'.symm)
  obtain ⟨hj', hl'⟩ := (split_index hl').mp (rfl : j' * n + l' = _)
  obtain ⟨hi, hk⟩ := (split_index hk).mp (rest.trans rest'.symm)
  obtain ⟨hi', hk'⟩ := (split_index hk').mp (rfl : i' * m + k' = _)
  exact ⟨hi.trans hi'.symm, hj.trans hj'.symm, hk.trans hk'.symm, hl.trans hl'.symm⟩

/-- No position is listed twice. -/
theorem nodup_kroneckerTriplets (A : Dense R) (m n : Nat) :
    ((kroneckerTriplets A m n).map fun t => (t.1, t.2.1)).Nodup := by
  rw [kroneckerTriplets, List.map_map]
  refine List.Nodup.map_on ?_
    (A.nodup_nonzeros.product ((List.nodup_range).product List.nodup_range))
  rintro ⟨⟨i, j⟩, k, l⟩ ht ⟨⟨i', j'⟩, k', l'⟩ ht' same
  simp only [List.mem_product, Dense.mem_nonzeros, List.mem_range] at ht ht'
  obtain ⟨rfl, rfl, rfl, rfl⟩ := kronecker_place_inj ht.1.1.1 ht.2.1 ht'.1.1.1 ht'.2.1 ht.2.2
    ht'.2.2 (Prod.mk.inj same).1
  rfl

/-- Every position is one of the operator's. -/
theorem kroneckerTriplets_inside {A : Dense R} {m n r c : Nat} {x : R}
    (h : (r, c, x) ∈ kroneckerTriplets A m n) :
    r < A.rows * m * A.cols * n ∧ c < m * n := by
  obtain ⟨i, j, k, l, hij, hk, hl, rfl, rfl, -⟩ := mem_kroneckerTriplets.mp h
  obtain ⟨⟨hi, hj⟩, -⟩ := Dense.mem_nonzeros.mp hij
  constructor
  · rw [Nat.mul_assoc, Nat.mul_comm (A.rows * m), Nat.add_comm]
    exact index_lt (index_lt hj hl) (index_lt hi hk)
  · rw [Nat.mul_comm m, Nat.add_comm]
    exact index_lt hl hk

/-! ## The columns -/

theorem mem_kroneckerColumn {A : Dense R} {m n k l r : Nat} {x : R} :
    (r, x) ∈ kroneckerColumn A m n k l ↔ ∃ i j, (i, j) ∈ A.nonzeros ∧
      i * m + k + (j * n + l) * (A.rows * m) = r ∧ A.get i j = x := by
  simp only [kroneckerColumn, List.mem_flatMap, List.mem_filterMap, List.mem_range,
    Dense.mem_nonzeros]
  constructor
  · rintro ⟨j, hj, i, hi, stored⟩
    split at stored
    · cases stored
    · rename_i nonzero
      cases stored
      exact ⟨i, j, ⟨⟨hi, hj⟩, Bool.eq_false_iff.mpr nonzero⟩, rfl, rfl⟩
  · rintro ⟨i, j, ⟨⟨hi, hj⟩, nonzero⟩, rfl, rfl⟩
    refine ⟨j, hj, i, hi, ?_⟩
    rw [if_neg (Bool.eq_false_iff.mp nonzero)]

/-- The rows of a column increase. -/
theorem kroneckerColumn_sorted (A : Dense R) {m n k l : Nat} (hk : k < m) (hl : l < n) :
    (kroneckerColumn A m n k l).Pairwise fun d e => d.1 < e.1 := by
  rw [kroneckerColumn, List.pairwise_flatMap]
  constructor
  · intro j _
    rw [List.pairwise_filterMap]
    refine List.pairwise_lt_range.imp fun {i i'} hii d hd e he => ?_
    split at hd
    · cases hd
    · split at he
      · cases he
      · cases hd
        cases he
        have : i * m < i' * m := Nat.mul_lt_mul_of_pos_right hii (Nat.zero_lt_of_lt hk)
        show i * m + k + _ < i' * m + k + _
        omega
  · refine List.pairwise_lt_range.imp fun {j j'} hjj d hd e he => ?_
    obtain ⟨i, hi, hd⟩ := List.mem_filterMap.mp hd
    obtain ⟨i', -, he⟩ := List.mem_filterMap.mp he
    split at hd
    · cases hd
    · split at he
      · cases he
      · cases hd
        cases he
        have hi := List.mem_range.mp hi
        calc i * m + k + (j * n + l) * (A.rows * m)
            < (i + 1) * m + (j * n + l) * (A.rows * m) := by rw [Nat.succ_mul]; omega
          _ ≤ A.rows * m + (j * n + l) * (A.rows * m) :=
            Nat.add_le_add_right (Nat.mul_le_mul_right m hi) _
          _ = (j * n + l + 1) * (A.rows * m) := by rw [Nat.succ_mul, Nat.add_comm]
          _ ≤ (j' * n + l) * (A.rows * m) := by
            refine Nat.mul_le_mul_right _ ?_
            have : (j + 1) * n ≤ j' * n := Nat.mul_le_mul_right n hjj
            rw [Nat.succ_mul] at this
            omega
          _ ≤ i' * m + k + (j' * n + l) * (A.rows * m) := Nat.le_add_left _ _

theorem nodup_kroneckerColumn (A : Dense R) {m n k l : Nat} (hk : k < m) (hl : l < n) :
    (kroneckerColumn A m n k l).Nodup :=
  (kroneckerColumn_sorted A hk hl).imp fun {d e} lt same => by
    rw [same] at lt
    exact lt.false

/-- A column holds the nonzero entries, one each. -/
theorem kroneckerColumn_perm (A : Dense R) {m n k l : Nat} (hk : k < m) (hl : l < n) :
    (kroneckerColumn A m n k l).Perm (A.nonzeros.map fun p =>
      (p.1 * m + k + (p.2 * n + l) * (A.rows * m), A.get p.1 p.2)) := by
  have once : (A.nonzeros.map fun p =>
      (p.1 * m + k + (p.2 * n + l) * (A.rows * m), A.get p.1 p.2)).Nodup := by
    refine List.Nodup.map_on ?_ A.nodup_nonzeros
    rintro ⟨i, j⟩ hp ⟨i', j'⟩ hp' same
    obtain ⟨rfl, rfl, -, -⟩ := kronecker_place_inj (Dense.mem_nonzeros.mp hp).1.1 hk
      (Dense.mem_nonzeros.mp hp').1.1 hk hl hl (Prod.mk.inj same).1
    rfl
  refine (List.perm_ext_iff_of_nodup (nodup_kroneckerColumn A hk hl) once).mpr ?_
  rintro ⟨r, x⟩
  rw [mem_kroneckerColumn]
  simp only [List.mem_map, Prod.exists, Prod.mk.injEq]

/-- What the list has for a column. -/
def tripletsAt (es : List (Nat × Nat × R)) (c : Nat) : Sparse.Column R :=
  es.filterMap fun e => if e.2.1 = c then some (e.1, e.2.2) else none

/-- A column of the operator is what the list of its entries has for that column. -/
theorem column_kroneckerOperator_perm (A : Dense R) {m n c : Nat} (hc : c < m * n) :
    ((kroneckerOperator A m n).column c).Perm (tripletsAt (kroneckerTriplets A m n) c) := by
  have hm : 0 < m := Nat.pos_of_ne_zero fun h => by simp [h] at hc
  have hk : c % m < m := Nat.mod_lt c hm
  have hl : c / m < n := Nat.div_lt_of_lt_mul hc
  have once : (tripletsAt (kroneckerTriplets A m n) c).Nodup := by
    refine (List.Nodup.of_map _ (nodup_kroneckerTriplets A m n)).filterMap ?_
    rintro ⟨r, d, x⟩ ⟨r', d', x'⟩ e he he'
    simp only [Option.mem_def, Option.ite_none_right_eq_some, Option.some.injEq] at he he'
    obtain ⟨rfl, rfl⟩ := he
    obtain ⟨rfl, same⟩ := he'
    obtain ⟨rfl, rfl⟩ := Prod.mk.inj same
    rfl
  rw [kroneckerOperator, Sparse.column_ofColumns _ hc]
  refine (List.perm_ext_iff_of_nodup (nodup_kroneckerColumn A hk hl) once).mpr ?_
  rintro ⟨r, x⟩
  rw [mem_kroneckerColumn]
  simp only [tripletsAt, List.mem_filterMap, Prod.exists, mem_kroneckerTriplets,
    Option.ite_none_right_eq_some, Option.some.injEq, Prod.mk.injEq]
  constructor
  · rintro ⟨i, j, hij, rfl, rfl⟩
    refine ⟨_, _, _, ⟨i, j, c % m, c / m, hij, hk, hl, rfl, ?_, rfl⟩, rfl, rfl, rfl⟩
    rw [Nat.add_comm, Nat.div_add_mod']
  · rintro ⟨_, _, _, ⟨i, j, k, l, hij, hk', -, rfl, rfl, rfl⟩, rfl, rfl, rfl⟩
    obtain ⟨hl, hk⟩ := (split_index hk').mp (Nat.add_comm _ _ : l * m + k = k + l * m)
    exact ⟨i, j, hij, by rw [← hk, ← hl], rfl⟩

theorem stored_kroneckerOperator (A : Dense R) (m n : Nat) :
    (kroneckerOperator A m n).stored = A.nonzeros.length * (m * n) := by
  have column (c : Nat) (hc : c ∈ range (m * n)) :
      (kroneckerColumn A m n (c % m) (c / m)).length = A.nonzeros.length := by
    have hc : c < m * n := mem_range.mp hc
    have hm : 0 < m := Nat.pos_of_ne_zero fun h => by simp [h] at hc
    rw [(kroneckerColumn_perm A (Nat.mod_lt c hm) (Nat.div_lt_of_lt_mul hc)).length_eq,
      List.length_map]
  rw [kroneckerOperator, Sparse.stored_ofColumns, sum_const_nat column, card_range, Nat.mul_comm]

end Entries

/-! ## The operator on flattenings -/

section Flattenings

variable [Entry R] [LawfulEntry R]

/-- The operator times the flattening of a matrix, written out, is the flattening of the
Kronecker product. -/
theorem toDense_kroneckerOperator_mul (A B : Dense R) :
    ((kroneckerOperator A B.rows B.cols).mul (.ofDense B.vec)).toDense = (A.kron B).vec := by
  have rows : A.rows * B.rows * A.cols * B.cols = A.rows * B.rows * (A.cols * B.cols) :=
    Nat.mul_assoc ..
  have single : (Sparse.ofDense B.vec).cols = 1 := Sparse.cols_ofDense B.vec
  have cols : ((kroneckerOperator A B.rows B.cols).mul (.ofDense B.vec)).cols = 1 :=
    (Sparse.cols_mul _ _).trans single
  refine Dense.ext_get rows cols fun r hr j hj => ?_
  have hr : r < A.rows * B.rows * A.cols * B.cols := hr
  obtain rfl : j = 0 := Nat.lt_one_iff.mp (cols ▸ hj)
  have width : (kroneckerOperator A B.rows B.cols).cols = B.rows * B.cols :=
    Sparse.cols_ofColumns ..
  refine (Dense.get_ofFn _ hr (cols ▸ Nat.one_pos)).trans ?_
  rw [Sparse.get_mul _ _ (single ▸ Nat.one_pos), ← sum_kroneckerOperator A B (rows ▸ hr), width]
  refine sum_congr rfl fun c hc => ?_
  rw [Sparse.get_ofDense B.vec (mem_range.mp hc) Nat.one_pos]

omit [LawfulEntry R] in
/-- A place of the Kronecker product, block by block. -/
theorem Dense.get_kron_block (A B : Dense R) {i j k l : Nat} (hi : i < A.rows) (hj : j < A.cols)
    (hk : k < B.rows) (hl : l < B.cols) :
    (A.kron B).get (i * B.rows + k) (j * B.cols + l) = A.get i j * B.get k l := by
  obtain ⟨row, inner⟩ := (split_index (a := i) hk).mp rfl
  obtain ⟨col, inner'⟩ := (split_index (a := j) hl).mp rfl
  rw [get_kron A B (index_lt hi hk) (index_lt hj hl), ← row, ← inner, ← col, ← inner']

/-- `kroneckerOperator A m n` is the Kronecker product with `A` on column-major flattenings
of `m × n` matrices, made without adding anything up, and it stores no more than it has to. -/
theorem kroneckerOperator_vectorises (A : Dense R) (m n : Nat) :
    (kroneckerOperator A m n).shape = (A.rows * m * A.cols * n, m * n)
      ∧ (∀ B : Dense R, B.shape = (m, n) →
          ((kroneckerOperator A m n).mul (.ofDense B.vec)).toDense = (A.kron B).vec
            ∧ (A.kron B).shape = (A.rows * m, A.cols * n)
            ∧ ∀ i < A.rows, ∀ j < A.cols, ∀ k < m, ∀ l < n,
                (A.kron B).get (i * m + k) (j * n + l) = A.get i j * B.get k l)
      ∧ ((kroneckerTriplets A m n).map fun t => (t.1, t.2.1)).Nodup
      ∧ (∀ t ∈ kroneckerTriplets A m n, t.1 < A.rows * m * A.cols * n ∧ t.2.1 < m * n)
      ∧ (∀ c < m * n,
          ((kroneckerOperator A m n).column c).Perm (tripletsAt (kroneckerTriplets A m n) c))
      ∧ (kroneckerOperator A m n).stored = A.nonzeros.length * (m * n) := by
  refine ⟨?shape, ?product, nodup_kroneckerTriplets A m n, ?inside,
    fun c hc => column_kroneckerOperator_perm A hc, stored_kroneckerOperator A m n⟩
  case shape => exact Prod.ext rfl (Sparse.cols_ofColumns ..)
  case product =>
    intro B hB
    obtain ⟨rfl, rfl⟩ := Prod.mk.inj hB
    exact ⟨toDense_kroneckerOperator_mul A B, rfl,
      fun i hi j hj k hk l hl => A.get_kron_block B hi hj hk hl⟩
  case inside =>
    rintro ⟨r, c, x⟩ ht
    exact kroneckerTriplets_inside ht

/-- A matrix with two zero entries, on columns of two. -/
theorem kroneckerOperator_of_diagonal :
    let A : Dense ℚ := .ofRowMajor 2 2 #[5, 0, 0, 7]
    let B : Dense ℚ := .ofRowMajor 2 1 #[2, 3]
    (kroneckerOperator A 2 1).shape = (8, 2)
      ∧ ((kroneckerOperator A 2 1).mul (.ofDense B.vec)).toDense = (A.kron B).vec
      ∧ ((kroneckerTriplets A 2 1).map fun t => (t.1, t.2.1)) = [(0, 0), (1, 1), (6, 0), (7, 1)]
      ∧ ((kroneckerTriplets A 2 1).map fun t => (t.1, t.2.1)).Nodup
      ∧ (kroneckerOperator A 2 1).stored = 4 := by
  intro A B
  obtain ⟨shape, product, nodup, -, -, stored⟩ := kroneckerOperator_vectorises A 2 1
  have positions : A.nonzeros = [(0, 0), (1, 1)] := by decide
  exact ⟨shape, (product B rfl).1, by decide, nodup, by rw [stored, positions]; rfl⟩

end Flattenings

end ConicModel
