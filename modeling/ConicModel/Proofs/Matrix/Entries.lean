/-
# Entries of matrices

A dense matrix is known by its entries, and so is a sparse one over exact
scalars: `get` adds up all that is stored at a position, so neither the order
in which a column stores its rows nor a stored zero shows.  This file says what
each operation does to the entries.

  * Building, mapping, negating: the entry is the function of the old one.
  * `Sparse.get_add`: sums are added entry by entry, whether the columns were in
    order and merged or were accumulated.
  * `Sparse.get_mul`: products are matrix products.

`Column.bump` adds to every entry of a row that is stored already, so the lemmas on
accumulation carry the fact that it never stores a row twice.
-/
import ConicModel.Proofs.Exact
import ConicModel.Matrix.Coeffs

namespace ConicModel

open Finset

/-! ## Dense matrices -/

namespace Dense

variable {R S : Type}

theorem get_map [Zero R] [Zero S] {f : R → S} (hf : f 0 = 0) (A : Dense R) (i j : Nat) :
    (A.map f).get i j = f (A.get i j) := by
  by_cases hj : j < A.cols
  · rw [get, get, cols_map, if_pos hj, if_pos hj]
    show (A.data.map f).getD (i * A.cols + j) 0 = f (A.data.getD (i * A.cols + j) 0)
    by_cases hk : i * A.cols + j < A.data.size
    · simp [Array.getD, hk]
    · simp [Array.getD, hk, hf]
  · simp [get, hj, hf]

/-- The entries of the column-major flattening. -/
theorem get_vec [Zero R] (A : Dense R) {k : Nat} (hk : k < A.rows * A.cols) :
    A.vec.get k 0 = A.get (k % A.rows) (k / A.rows) :=
  get_ofFn _ hk Nat.one_pos

/-- The entries of a Kronecker product. -/
theorem get_kron [Zero R] [Mul R] (A B : Dense R) {i j : Nat} (hi : i < A.rows * B.rows)
    (hj : j < A.cols * B.cols) :
    (A.kron B).get i j = A.get (i / B.rows) (j / B.cols) * B.get (i % B.rows) (j % B.cols) :=
  get_ofFn _ hi hj

end Dense

/-! ## Columns -/

namespace Sparse.Column

variable {R S : Type}

section Reading

variable [Zero R] [Add R]

@[simp] theorem valueAt_nil (i : Nat) : valueAt ([] : Column R) i = 0 := rfl

theorem valueAt_cons_of_ne {e : Nat × R} {i : Nat} (h : e.1 ≠ i) (c : Column R) :
    valueAt (e :: c) i = valueAt c i := by
  simp [valueAt, h]

theorem valueAt_cons_of_eq {e : Nat × R} {i : Nat} (h : e.1 = i) (c : Column R) :
    valueAt (e :: c) i = e.2 + valueAt c i := by
  simp [valueAt, h]

end Reading

variable [Entry R] [LawfulEntry R]

theorem valueAt_cons (e : Nat × R) (c : Column R) (i : Nat) :
    valueAt (e :: c) i = (if e.1 = i then e.2 else 0) + valueAt c i := by
  by_cases h : e.1 = i
  · rw [valueAt_cons_of_eq h, if_pos h]
  · rw [valueAt_cons_of_ne h, if_neg h, zero_add]

theorem valueAt_append (c d : Column R) (i : Nat) :
    valueAt (c ++ d) i = valueAt c i + valueAt d i := by
  induction c with
  | nil => simp
  | cons e c ih => rw [List.cons_append, valueAt_cons, valueAt_cons, ih, add_assoc]

@[simp] theorem valueAt_dropZeros (c : Column R) (i : Nat) :
    valueAt (dropZeros c) i = valueAt c i := by
  induction c with
  | nil => rfl
  | cons e c ih =>
      by_cases hz : isZero e.2 = true
      · have drop : dropZeros (e :: c) = dropZeros c := by simp [dropZeros, hz]
        rw [drop, ih, valueAt_cons, LawfulEntry.eq_zero_of_isZero hz, ite_self, zero_add]
      · have keep : dropZeros (e :: c) = e :: dropZeros c := by simp [dropZeros, hz]
        rw [keep, valueAt_cons, valueAt_cons, ih]

/-- Reading goes through a map that respects sums. -/
theorem valueAt_map [Entry S] [LawfulEntry S] {f : R → S} (h0 : f 0 = 0)
    (hadd : ∀ x y, f (x + y) = f x + f y) (c : Column R) (i : Nat) :
    valueAt (c.map fun e => (e.1, f e.2)) i = f (valueAt c i) := by
  induction c with
  | nil => exact h0.symm
  | cons e c ih =>
      rw [List.map_cons, valueAt_cons, valueAt_cons, hadd, ih]
      split
      · rfl
      · rw [h0]

/-! ### Accumulation -/

/-- Adding to a row changes that row alone. -/
theorem valueAt_bump {c : Column R} (hc : (c.map (·.1)).Nodup) (i : Nat) (x : R) (j : Nat) :
    valueAt (c.bump i x) j = valueAt c j + if i = j then x else 0 := by
  unfold bump
  split
  · rename_i stored
    induction c with
    | nil => simp at stored
    | cons e c ih =>
        rw [List.map_cons, List.nodup_cons] at hc
        rw [List.map_cons, valueAt_cons, valueAt_cons]
        by_cases he : e.1 = i
        · -- The row is stored here, hence nowhere further down.
          have rest : (c.map fun e => if e.1 = i then (e.1, e.2 + x) else e) = c := by
            refine (List.map_congr_left fun d hd => if_neg fun hdi => hc.1 ?_).trans c.map_id
            rw [he, ← hdi]
            exact List.mem_map_of_mem hd
          rw [rest, if_pos he, he]
          split
          · rw [add_right_comm]
          · rw [zero_add, add_zero]
        · have further : c.any (·.1 == i) = true := by simpa [he] using stored
          rw [if_neg he, ih hc.2 further, add_assoc]
  · rw [valueAt_cons, add_comm]

omit [LawfulEntry R] in
theorem map_fst_bump_of_stored {c : Column R} {i : Nat} (x : R)
    (h : c.any (·.1 == i) = true) : (c.bump i x).map (·.1) = c.map (·.1) := by
  rw [bump, if_pos h, List.map_map]
  refine List.map_congr_left fun e _ => ?_
  show (if e.1 = i then (e.1, e.2 + x) else e).1 = e.1
  split <;> rfl

omit [LawfulEntry R] in
theorem nodup_bump {c : Column R} (hc : (c.map (·.1)).Nodup) (i : Nat) (x : R) :
    ((c.bump i x).map (·.1)).Nodup := by
  by_cases h : c.any (·.1 == i) = true
  · rw [map_fst_bump_of_stored x h]
    exact hc
  · rw [bump, if_neg h, List.map_cons, List.nodup_cons]
    refine ⟨fun hi => h ?_, hc⟩
    obtain ⟨e, he, hei⟩ := List.mem_map.mp hi
    exact List.any_eq_true.mpr ⟨e, he, by simpa using hei⟩

theorem valueAt_foldl_bump (es : Column R) :
    ∀ {acc : Column R}, (acc.map (·.1)).Nodup → ∀ i,
      valueAt (es.foldl (fun acc e => acc.bump e.1 e.2) acc) i = valueAt acc i + valueAt es i := by
  induction es with
  | nil => intro acc _ i; simp
  | cons e es ih =>
      intro acc hacc i
      rw [List.foldl_cons, ih (nodup_bump hacc _ _), valueAt_bump hacc, valueAt_cons, add_assoc]

/-- Adding entries up leaves every value as it was. -/
@[simp] theorem valueAt_accumulate (es : Column R) (i : Nat) :
    valueAt (accumulate es) i = valueAt es i := by
  have start : (([] : Column R).map (·.1)).Nodup := List.nodup_nil
  rw [accumulate, valueAt_foldl_bump es start, valueAt_nil, zero_add]

theorem valueAt_merge (c d : Column R) (i : Nat) :
    valueAt (merge c d) i = valueAt c i + valueAt d i := by
  fun_induction merge c d with
  | case1 d => simp
  | case2 c _ => simp
  | case3 j x c k y d hjk ih => rw [valueAt_cons, ih, valueAt_cons (j, x) c, add_assoc]
  | case4 j x c k y d _ hkj ih => rw [valueAt_cons, ih, valueAt_cons (k, y) d, add_left_comm]
  | case5 j x c k y d hjk hkj ih =>
      obtain rfl : j = k := by omega
      rw [valueAt_cons, ih, valueAt_cons (j, x) c, valueAt_cons (j, y) d]
      by_cases hji : j = i <;> simp only [hji, if_true, if_false] <;> ring

end Sparse.Column

/-! ## Sparse matrices -/

namespace Sparse

variable {R S : Type}

theorem column_of_le {A : Sparse R} {j : Nat} (h : A.cols ≤ j) : A.column j = [] := by
  have : ¬ j < A.columns.size := Nat.not_lt.mpr h
  simp [column, Array.getD, this]

@[simp] theorem get_ofColumns [Zero R] [Add R] {r c j : Nat} (f : Nat → Column R) (hj : j < c)
    (i : Nat) : (ofColumns r c f).get i j = (f j).valueAt i := by
  rw [get, column_ofColumns f hj]

theorem column_map (f : R → S) (A : Sparse R) (j : Nat) :
    (A.map f).column j = (A.column j).map fun e => (e.1, f e.2) := by
  by_cases hj : j < A.columns.size
  · simp [column, map, Array.getD, hj]
  · simp [column, map, Array.getD, hj]

theorem get_of_le [Zero R] [Add R] {A : Sparse R} {j : Nat} (h : A.cols ≤ j) (i : Nat) :
    A.get i j = 0 := by
  rw [get, column_of_le h]
  rfl

@[simp] theorem rows_zeros (r c : Nat) : (zeros r c : Sparse R).rows = r := rfl

@[simp] theorem cols_zeros (r c : Nat) : (zeros r c : Sparse R).cols = c := cols_ofColumns ..

@[simp] theorem get_zeros [Zero R] [Add R] (r c i j : Nat) :
    (zeros r c : Sparse R).get i j = 0 := by
  by_cases hj : j < c
  · rw [zeros, get_ofColumns _ hj, Column.valueAt_nil]
  · exact get_of_le (by simpa [zeros] using hj) i

section Shapes

variable [Entry R]

@[simp] theorem cols_identity (n : Nat) : (identity n : Sparse R).cols = n := cols_ofColumns ..

@[simp] theorem cols_ofDense (A : Dense R) : (ofDense A).cols = A.cols := cols_ofColumns ..

@[simp] theorem rows_neg (A : Sparse R) : A.neg.rows = A.rows := rfl

@[simp] theorem cols_neg (A : Sparse R) : A.neg.cols = A.cols := cols_map _ A

@[simp] theorem cols_add (A B : Sparse R) : (A.add B).cols = A.cols := cols_ofColumns ..

@[simp] theorem rows_mul (A B : Sparse R) : (A.mul B).rows = A.rows := rfl

@[simp] theorem cols_mul (A B : Sparse R) : (A.mul B).cols = B.cols := cols_ofColumns ..

end Shapes

variable [Entry R] [LawfulEntry R]

theorem get_map [Entry S] [LawfulEntry S] {f : R → S} (h0 : f 0 = 0)
    (hadd : ∀ x y, f (x + y) = f x + f y) (A : Sparse R) (i j : Nat) :
    (A.map f).get i j = f (A.get i j) := by
  rw [get, column_map]
  exact Column.valueAt_map h0 hadd _ i

theorem get_identity {n j : Nat} (hj : j < n) (i : Nat) :
    (identity n : Sparse R).get i j = if i = j then 1 else 0 := by
  rw [identity, get_ofColumns _ hj, Column.valueAt_cons, Column.valueAt_nil, add_zero]
  simp only [eq_comm]

theorem get_neg (A : Sparse R) (i j : Nat) : A.neg.get i j = -A.get i j :=
  get_map neg_zero (fun x y => neg_add x y) A i j

/-- Sums are added entry by entry. -/
theorem get_add (A B : Sparse R) {j : Nat} (hj : j < A.cols) (i : Nat) :
    (A.add B).get i j = A.get i j + B.get i j := by
  rw [add, get_ofColumns _ hj, Column.valueAt_dropZeros]
  split
  · exact Column.valueAt_merge _ _ i
  · rw [Column.valueAt_accumulate, Column.valueAt_append]
    rfl

/-! ### Dense matrices stored sparsely -/

/-- A column that stores the nonzero values of a function, each at a row of its own. -/
theorem valueAt_filterMap_range (n : Nat) (row : Nat → Nat) (f : Nat → R) (r : Nat) :
    Column.valueAt ((List.range n).filterMap fun i =>
      if isZero (f i) then none else some (row i, f i)) r
      = ∑ i ∈ range n, if row i = r then f i else 0 := by
  induction n with
  | zero => rfl
  | succ n ih =>
      have last : Column.valueAt ([n].filterMap fun i =>
          if isZero (f i) then none else some (row i, f i)) r
          = if row n = r then f n else 0 := by
        by_cases hz : isZero (f n) = true
        · simp [LawfulEntry.eq_zero_of_isZero hz]
        · simp [hz, Column.valueAt_cons]
      rw [List.range_succ, List.filterMap_append, Column.valueAt_append, ih, last,
        sum_range_succ]

theorem get_ofDense (A : Dense R) {i j : Nat} (hi : i < A.rows) (hj : j < A.cols) :
    (ofDense A).get i j = A.get i j := by
  rw [ofDense, get_ofColumns _ hj, valueAt_filterMap_range A.rows (fun i => i), sum_ite_eq',
    if_pos (mem_range.mpr hi)]

/-! ### Products -/

/-- The value of a scaled column. -/
theorem valueAt_scaled (c : Column R) (x : R) (i : Nat) :
    Column.valueAt (c.map fun d => (d.1, d.2 * x)) i = Column.valueAt c i * x :=
  Column.valueAt_map (f := (· * x)) (zero_mul x) (fun a b => add_mul a b x) c i

/-- A matrix times a column, entry by entry. -/
theorem valueAt_mulColumn (A : Sparse R) (c : Column R) (i : Nat) :
    (A.mulColumn c).valueAt i = ∑ k ∈ range A.cols, A.get i k * c.valueAt k := by
  rw [mulColumn, Column.valueAt_dropZeros, Column.valueAt_accumulate]
  induction c with
  | nil => simp
  | cons e c ih =>
      have head : Column.valueAt ((A.column e.1).map fun d => (d.1, d.2 * e.2)) i
          = ∑ k ∈ range A.cols, A.get i k * (if e.1 = k then e.2 else 0) := by
        rw [valueAt_scaled]
        simp only [mul_ite, mul_zero, sum_ite_eq, mem_range]
        split
        · rfl
        · rename_i out
          rw [column_of_le (Nat.not_lt.mp out), Column.valueAt_nil, zero_mul]
      rw [List.flatMap_cons, Column.valueAt_append, ih, head, ← sum_add_distrib]
      refine sum_congr rfl fun k _ => ?_
      rw [Column.valueAt_cons, mul_add]

/-- Products are matrix products. -/
theorem get_mul (A B : Sparse R) {j : Nat} (hj : j < B.cols) (i : Nat) :
    (A.mul B).get i j = ∑ k ∈ range A.cols, A.get i k * B.get k j := by
  rw [mul, get_ofColumns _ hj, valueAt_mulColumn]
  rfl

end Sparse

end ConicModel
