/-
# Objectives multiplied twice

An objective that is multiplied by `L` and then by `K` is the objective multiplied by the
product of `K` and `L`: it has the same keys and the same matrices under each key
(`Objective.agree_premultiply`).  The operators of two constants compose in this way to the
operator of their Kronecker product (`Numeric.composes`).

Of the offset a complex matrix joins the two parts and splits them again, and whether that
happens the first time, the second time or both times depends on the element types.  There is
no need to go through the cases: as soon as one matrix is complex, the parts are real in the
end, and the two parts of a complex number are determined by the number
(`Part.agree_of_offset`).
-/
import ConicModel.Proofs.Objective.Reading
import ConicModel.Proofs.Matrix.Nesting

namespace ConicModel

open Finset

variable {α : Type}

/-! ## The same matrices -/

section Agreement

variable [Entry α]

/-- Coefficients of one shape with the same entries. -/
structure Coeffs.Agree (A B : Coeffs α) : Prop where
  rows : rows A = rows B
  cols : cols A = cols B
  entry : ∀ i < Coeffs.rows A, ∀ j < Coeffs.cols A, entry A i j = entry B i j

/-- The same matrices for the real part and for the imaginary part. -/
structure Part.Agree (p q : Part α) : Prop where
  real : Coeffs.Agree p.real q.real
  imag : Coeffs.Agree p.imag q.imag

/-- The same keys in the same order, and the same matrices under each key. -/
structure Objective.Agree (o o' : Objective α) : Prop where
  keys : o.keys = o'.keys
  parts : ∀ key p q, o.get? key = some p → o'.get? key = some q → p.Agree q

theorem Coeffs.Agree.refl (A : Coeffs α) : A.Agree A := ⟨rfl, rfl, fun _ _ _ _ => rfl⟩

theorem Objective.Agree.refl (o : Objective α) : o.Agree o where
  keys := rfl
  parts key p q hp hq := by
    cases hp.symm.trans hq
    exact ⟨.refl _, .refl _⟩

end Agreement

/-! ## Real numbers, whatever the element type -/

section RealValued

variable [Entry α]

/-- All entries are real numbers. -/
def Coeffs.RealValued (A : Coeffs α) : Prop :=
  ∀ i < rows A, ∀ j < cols A, (entry A i j).im = 0

/-- Both parts are real-valued. -/
def Part.RealValued (p : Part α) : Prop := Coeffs.RealValued p.real ∧ Coeffs.RealValued p.imag

theorem Coeffs.realValued_of_agree {A B : Coeffs α} (h : A.Agree B) (hA : A.RealValued) :
    B.RealValued := by
  intro i hi j hj
  rw [← h.rows] at hi
  rw [← h.cols] at hj
  rw [← h.entry i hi j hj]
  exact hA i hi j hj

variable [LawfulEntry α]

theorem Coeffs.realValued_real (A : Sparse α) : RealValued (.real A) := by
  intro i _ j _
  rw [entry_real]
  rfl

namespace Cplx

variable {z w : Cplx α}

/-- Real numbers that were joined are found again. -/
theorem ofReal_re_join (hz : z.im = 0) (hw : w.im = 0) : ofReal (z + I * w).re = z := by
  ext
  · simp [hw]
  · exact hz.symm

theorem ofReal_im_join (hz : z.im = 0) (hw : w.im = 0) : ofReal (z + I * w).im = w := by
  ext
  · simp [hz]
  · exact hw.symm

end Cplx

end RealValued

/-! ## Multiplying twice -/

section Twice

variable [Entry α] [LawfulEntry α]

/-- `M` is the product of `K` and `L`. -/
structure Coeffs.Composes (K L M : Coeffs α) : Prop where
  inner : cols K = rows L
  rows : rows M = rows K
  cols : cols M = cols L
  isComplex : M.isComplex = (K.isComplex || L.isComplex)
  entry : ∀ i < Coeffs.rows K, ∀ j < Coeffs.cols L,
    ∑ l ∈ range (Coeffs.rows L), entry K i l * entry L l j = entry M i j

variable {K L M : Coeffs α} {p : Part α} {n : Nat} {key : Id}

/-- Applied one after the other to a column. -/
theorem Coeffs.Composes.sum (h : Composes K L M) (f : Nat → Cplx α) {i : Nat}
    (hi : i < Coeffs.rows K) :
    ∑ l ∈ range (Coeffs.rows L), Coeffs.entry K i l *
        ∑ j ∈ range (Coeffs.cols L), Coeffs.entry L l j * f j
      = ∑ j ∈ range (Coeffs.cols L), Coeffs.entry M i j * f j := by
  simp only [mul_sum]
  rw [sum_comm]
  refine sum_congr rfl fun j hj => ?_
  rw [← h.entry i hi j (mem_range.mp hj), sum_mul]
  exact sum_congr rfl fun l _ => (mul_assoc ..).symm

theorem Coeffs.Composes.mul (h : Composes K L M) (A : Coeffs α) :
    Coeffs.Agree (Coeffs.mul K (Coeffs.mul L A)) (Coeffs.mul M A) where
  rows := by rw [rows_mul, rows_mul, h.rows]
  cols := by rw [cols_mul, cols_mul, cols_mul]
  entry i hi j hj := by
    rw [rows_mul] at hi
    rw [cols_mul, cols_mul] at hj
    rw [entry_mul K _ (by rwa [cols_mul]), entry_mul M A hj, h.inner, h.cols, ← h.sum _ hi]
    refine sum_congr rfl fun l _ => ?_
    rw [entry_mul L A hj]

namespace Part

omit [LawfulEntry α] in
/-- Both parts have real elements. -/
def IsReal (p : Part α) : Prop := ∃ A B, p = ⟨.real A, .real B⟩

/-- Real elements are real numbers. -/
theorem IsReal.realValued (h : p.IsReal) : p.RealValued := by
  obtain ⟨A, B, rfl⟩ := h
  exact ⟨Coeffs.realValued_real A, Coeffs.realValued_real B⟩

/-- Of a column with real-valued parts the offset says everything. -/
theorem agree_of_offset {q : Part α} (hp : Formed n constantKey p) (hq : Formed n constantKey q)
    (real : p.RealValued) (real' : q.RealValued)
    (offsets : ∀ k < n, p.offset k = q.offset k) : p.Agree q := by
  have parts {r : Part α} (hr : Formed n constantKey r) (h : r.RealValued) {k : Nat}
      (hk : k < n) : Cplx.ofReal (r.offset k).re = Coeffs.entry r.real k 0 ∧
        Cplx.ofReal (r.offset k).im = Coeffs.entry r.imag k 0 := by
    obtain ⟨first, first'⟩ := hr.constant_pos
    have re := h.1 k (hr.real_rows ▸ hk) 0 first
    have im := h.2 k (hr.imag_rows ▸ hk) 0 first'
    exact ⟨Cplx.ofReal_re_join re im, Cplx.ofReal_im_join re im⟩
  constructor
  · refine ⟨hp.real_rows.trans hq.real_rows.symm, (hp.column rfl).trans (hq.column rfl).symm,
      fun k hk j hj => ?_⟩
    obtain rfl : j = 0 := Nat.lt_one_iff.mp (hp.column rfl ▸ hj)
    have inside : k < n := hp.real_rows ▸ hk
    rw [← (parts hp real inside).1, ← (parts hq real' inside).1, offsets k inside]
  · refine ⟨hp.imag_rows.trans hq.imag_rows.symm, ?_, fun k hk j hj => ?_⟩
    · rw [hp.cols, hq.cols, hp.column rfl, hq.column rfl]
    · obtain rfl : j = 0 := Nat.lt_one_iff.mp (hp.column rfl ▸ hp.cols ▸ hj)
      have inside : k < n := hp.imag_rows ▸ hk
      rw [← (parts hp real inside).2, ← (parts hq real' inside).2, offsets k inside]

/-- The offset of a product, whether the two parts were joined or not. -/
theorem offset_premultiply (hp : Formed (Coeffs.cols M) constantKey p) (k : Nat) :
    (Objective.premultiplyEntry M constantKey p).offset k
      = ∑ l ∈ range (Coeffs.cols M), Coeffs.entry M k l * p.offset l := by
  let none : Id → Nat → α := fun _ _ => 0
  have term : term none none k constantKey (Objective.premultiplyEntry M constantKey p)
      = ∑ l ∈ range (Coeffs.cols M), Coeffs.entry M k l * term none none l constantKey p :=
    term_premultiply hp M rfl k
  simpa only [Part.term, if_pos] using term

omit [LawfulEntry α] in
theorem premultiplyEntry_of_ne (M : Coeffs α) (hkey : key ≠ constantKey) (p : Part α) :
    Objective.premultiplyEntry M key p = p.premultiply M := by
  cases M with
  | real M => rfl
  | complex M => rw [Objective.premultiplyEntry, if_neg hkey]

/-- An entry multiplied twice. -/
theorem agree_premultiply (h : Coeffs.Composes K L M) (hp : Formed (Coeffs.cols L) key p) :
    (Objective.premultiplyEntry K key (Objective.premultiplyEntry L key p)).Agree
      (Objective.premultiplyEntry M key p) := by
  have plain : ((p.premultiply L).premultiply K).Agree (p.premultiply M) :=
    ⟨h.mul p.real, h.mul p.imag⟩
  by_cases hkey : key = constantKey
  case neg => simpa only [premultiplyEntry_of_ne _ hkey] using plain
  subst hkey
  have twice := (hp.premultiply L).premultiply K
  have once : Formed (Coeffs.rows K) constantKey (Objective.premultiplyEntry M constantKey p) :=
    h.rows ▸ hp.premultiply M
  have offset (k : Nat) (hk : k < Coeffs.rows K) :
      (Objective.premultiplyEntry K constantKey
          (Objective.premultiplyEntry L constantKey p)).offset k
        = (Objective.premultiplyEntry M constantKey p).offset k := by
    rw [offset_premultiply (h.inner ▸ hp.premultiply L), offset_premultiply (h.cols ▸ hp),
      h.inner, h.cols, ← h.sum _ hk]
    refine sum_congr rfl fun l _ => ?_
    rw [offset_premultiply hp]
  have joined (C : Sparse (Cplx α)) (q : Part α) :
      (Objective.premultiplyEntry (.complex C) constantKey q).IsReal := by
    rw [Objective.premultiplyEntry, if_pos rfl]
    exact ⟨_, _, rfl⟩
  have isComplex := h.isComplex
  cases M with
  | real M =>
      -- No matrix is complex, so nothing is joined.
      cases K with
      | complex K => cases isComplex
      | real K =>
          cases L with
          | complex L => cases isComplex
          | real L => exact plain
  | complex M =>
      refine agree_of_offset twice once ?_ (joined M p).realValued offset
      cases K with
      | complex K => exact (joined K _).realValued
      | real K =>
          cases L with
          | real L => cases isComplex
          | complex L =>
              rw [Objective.premultiplyEntry.eq_def (.complex L)]
              exact IsReal.realValued ⟨_, _, rfl⟩

end Part

/-- The operators of two constants compose to that of their product. -/
theorem Numeric.composes (A C : Numeric Dense α) {s t m n : Nat}
    (hC : C.on Dense.shape = (s, t)) :
    Coeffs.Composes (A.map fun A => kroneckerOperator A (s * m) (t * n))
      (C.map fun C => kroneckerOperator C m n)
      ((A.map₂ Dense.kron C).map fun D => kroneckerOperator D m n) := by
  have rows (B : Numeric Dense α) (m n : Nat) :
      Coeffs.rows (B.map fun B => kroneckerOperator B m n)
        = (B.on Dense.shape).1 * m * ((B.on Dense.shape).2 * n) :=
    (Value.matrix B).rows_operator m n
  have cols (B : Numeric Dense α) (m n : Nat) :
      Coeffs.cols (B.map fun B => kroneckerOperator B m n) = m * n :=
    (Value.matrix B).cols_operator m n
  refine ⟨?inner, ?rows, ?cols, ?isComplex, fun i hi j hj => ?entry⟩
  case inner => rw [cols, rows, hC]
  case rows =>
    rw [rows, rows, Numeric.shape_kron, hC]
    ring
  case cols => rw [cols, cols]
  case isComplex => cases A <;> cases C <;> rfl
  case entry =>
    rw [rows] at hi
    rw [cols] at hj
    rw [rows, hC]
    exact Numeric.sum_entry_operator rfl hC hi hj

omit [LawfulEntry α] in
/-- What a product has under a key comes from what the objective has there. -/
theorem Objective.get?_premultiply {M : Coeffs α} {o o' : Objective α}
    (h : o.premultiply M = .ok o') (key : Id) :
    o'.get? key = (o.get? key).map (premultiplyEntry M key) := by
  rw [get?, get?, (premultiply_ok h).1]
  induction o.entries with
  | nil => rfl
  | cons e es ih =>
      rw [List.map_cons, Table.get?, Table.get?]
      split
      · rename_i here
        rw [← here]
        rfl
      · exact ih

/-- An objective multiplied twice. -/
theorem Objective.agree_premultiply {K L M : Coeffs α} (h : Coeffs.Composes K L M)
    {child inner twice once : Objective α} (formed : child.Formed (Coeffs.cols L))
    (first : child.premultiply L = .ok inner) (second : inner.premultiply K = .ok twice)
    (product : child.premultiply M = .ok once) : twice.Agree once where
  keys := by rw [keys_premultiply second, keys_premultiply first, keys_premultiply product]
  parts key p q hp hq := by
    rw [get?_premultiply second, get?_premultiply first, Option.map_map] at hp
    rw [get?_premultiply product] at hq
    -- Both come from the one entry under the key.
    obtain ⟨d, hd, rfl⟩ := Option.map_eq_some_iff.mp hp
    obtain ⟨e, he, rfl⟩ := Option.map_eq_some_iff.mp hq
    cases hd.symm.trans he
    exact Part.agree_premultiply h (formed.parts _ (Table.mem_of_get? hd))

end Twice

end ConicModel
