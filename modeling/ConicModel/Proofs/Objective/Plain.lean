/-
# Objectives without imaginary content

An objective is *plain* if its coefficients are real and nothing is stored under an imaginary
part, neither under that of a variable nor under that of the offset (`Objective.Plain`).  This
is said of what is stored and of the element types, not of entries: it holds over floats as it
does over exact scalars, where a stored zero could not be told from nothing.

Constants with real elements and variables that are not complex have plain objectives, and
differences, changes of sign and products with a real matrix are plain if what they are made
from is.  With a complex matrix they are not, even if all its elements are real numbers.
-/
import ConicModel.Proofs.Objective.Reading
import ConicModel.Proofs.Matrix.Positions

namespace ConicModel

/-! ## Nothing stored -/

namespace Sparse

variable {R S : Type}

/-- Nothing is stored exactly if nothing is stored in any column. -/
theorem stored_eq_zero_iff {A : Sparse R} : A.stored = 0 ↔ ∀ j, A.column j = [] := by
  rw [stored_eq_sum, List.sum_eq_zero_iff_forall_eq_nat]
  constructor
  · intro empty j
    rw [column, Array.getD_eq_getD_getElem?]
    cases found : A.columns[j]? with
    | none => rfl
    | some c =>
        have mem : c ∈ A.columns.toList := Array.mem_toList_iff.mpr (Array.mem_of_getElem? found)
        exact List.eq_nil_of_length_eq_zero (empty _ (List.mem_map_of_mem mem))
  · intro empty n hn
    obtain ⟨c, hc, rfl⟩ := List.mem_map.mp hn
    obtain ⟨j, hj, rfl⟩ := Array.mem_iff_getElem.mp (Array.mem_toList_iff.mp hc)
    have here := empty j
    rw [column, Array.getD_eq_getD_getElem?, Array.getElem?_eq_getElem hj] at here
    exact congrArg List.length here

theorem stored_zeros (r c : Nat) : (zeros r c : Sparse R).stored = 0 := by
  rw [zeros, stored_ofColumns]
  exact Finset.sum_eq_zero fun j _ => rfl

theorem stored_map (f : R → S) (A : Sparse R) : (A.map f).stored = A.stored := by
  unfold stored map
  rw [Array.foldl_map]
  simp only [List.length_map]

variable [Entry R]

/-- Nothing comes of nothing. -/
theorem stored_mul (A : Sparse R) {B : Sparse R} (h : B.stored = 0) : (A.mul B).stored = 0 := by
  rw [mul, stored_ofColumns]
  refine Finset.sum_eq_zero fun j _ => ?_
  rw [stored_eq_zero_iff.mp h j]
  rfl

theorem stored_add {A B : Sparse R} (hA : A.stored = 0) (hB : B.stored = 0) :
    (A.add B).stored = 0 := by
  rw [add, stored_ofColumns]
  refine Finset.sum_eq_zero fun j _ => ?_
  rw [stored_eq_zero_iff.mp hA j, stored_eq_zero_iff.mp hB j]
  split
  · simp [Column.merge, Column.dropZeros]
  · rfl

end Sparse

namespace Coeffs

variable {α : Type}

theorem stored_zeros (r c : Nat) : stored (zeros r c : Coeffs α) = 0 := Sparse.stored_zeros r c

variable [Entry α]

theorem stored_toComplex (A : Coeffs α) : A.toComplex.stored = stored A := by
  cases A with
  | real A => exact Sparse.stored_map Cplx.ofReal A
  | complex A => rfl

theorem stored_neg (A : Coeffs α) : stored (neg A) = stored A := by
  cases A with
  | real A | complex A => exact Sparse.stored_map _ A

theorem stored_mul (A : Coeffs α) {B : Coeffs α} (h : stored B = 0) : stored (mul A B) = 0 := by
  have wide : B.toComplex.stored = 0 := (stored_toComplex B).trans h
  cases A with
  | complex A => cases B <;> exact Sparse.stored_mul _ wide
  | real A =>
      cases B with
      | real B => exact Sparse.stored_mul A h
      | complex B => exact Sparse.stored_mul _ wide

theorem stored_add {A B C : Coeffs α} (sum : add? A B = some C) (hA : stored A = 0)
    (hB : stored B = 0) : stored C = 0 := by
  have wideA : A.toComplex.stored = 0 := (stored_toComplex A).trans hA
  have wideB : B.toComplex.stored = 0 := (stored_toComplex B).trans hB
  unfold add? at sum
  split at sum
  · cases sum
    cases A with
    | complex A => cases B <;> exact Sparse.stored_add wideA wideB
    | real A =>
        cases B with
        | real B => exact Sparse.stored_add hA hB
        | complex B => exact Sparse.stored_add wideA wideB
  · cases sum

theorem isComplex_add {A B C : Coeffs α} (sum : add? A B = some C) (hA : A.isComplex = false)
    (hB : B.isComplex = false) : C.isComplex = false := by
  unfold add? at sum
  split at sum
  · cases sum
    cases A with
    | complex A => cases hA
    | real A =>
        cases B with
        | complex B => cases hB
        | real B => rfl
  · cases sum

end Coeffs

/-! ## Plain objectives -/

variable {α : Type}

/-- Real coefficients, and nothing stored for an imaginary part. -/
structure Part.Plain (p : Part α) : Prop where
  real : p.real.isComplex = false
  imag : Coeffs.stored p.imag = 0

/-- All entries are plain, that of the offset included. -/
def Objective.Plain (o : Objective α) : Prop := ∀ e ∈ o.entries, e.2.Plain

namespace Part.Plain

variable [Entry α] {p q s : Part α}

theorem neg (h : p.Plain) : p.neg.Plain where
  real := by
    obtain ⟨real, imag⟩ := p
    cases real with
    | real A => rfl
    | complex A => cases h.real
  imag := (Coeffs.stored_neg p.imag).trans h.imag

theorem add (hp : p.Plain) (hq : q.Plain) (sum : p.add? q = some s) : s.Plain := by
  obtain ⟨real, hreal, rest⟩ := Option.bind_eq_some_iff.mp sum
  obtain ⟨imag, himag, hs⟩ := Option.bind_eq_some_iff.mp rest
  cases hs
  exact ⟨Coeffs.isComplex_add hreal hp.real hq.real, Coeffs.stored_add himag hp.imag hq.imag⟩

theorem premultiply (h : p.Plain) (M : Sparse α) (key : Id) :
    (Objective.premultiplyEntry (.real M) key p).Plain where
  real := by
    obtain ⟨real, imag⟩ := p
    cases real with
    | real A => rfl
    | complex A => cases h.real
  imag := Coeffs.stored_mul _ h.imag

end Part.Plain

namespace Objective.Plain

variable [Entry α] {a b o : Objective α}

theorem neg (h : o.Plain) : o.neg.Plain := by
  intro e he
  obtain ⟨d, hd, rfl⟩ := List.mem_map.mp he
  exact (h d hd).neg

theorem add (ha : a.Plain) (hb : b.Plain) (sum : a.add b = .ok o) : o.Plain := by
  obtain ⟨-, shared, hshared, entries⟩ := Objective.add_ok sum
  intro e he
  rw [entries] at he
  rcases List.mem_append.mp he with he | he
  · obtain ⟨d, hd, hde⟩ := Outcome.exists_of_forall₂ hshared he
    obtain ⟨-, ⟨-, same⟩ | ⟨q, hq, hsum⟩⟩ := Objective.sumEntry_ok hde
    · exact same ▸ ha d hd
    · exact (ha d hd).add (hb _ (Table.mem_of_get? hq)) hsum
  · exact hb e (List.mem_of_mem_filter he)

theorem sub (ha : a.Plain) (hb : b.Plain) (difference : a.sub b = .ok o) : o.Plain :=
  ha.add hb.neg difference

theorem premultiply {M : Coeffs α} (h : a.Plain) (real : M.isComplex = false)
    (product : a.premultiply M = .ok o) : o.Plain := by
  cases M with
  | complex M => cases real
  | real M =>
      intro e he
      rw [(Objective.premultiply_ok product).1] at he
      obtain ⟨d, hd, rfl⟩ := List.mem_map.mp he
      exact (h d hd).premultiply M d.1

theorem ofConstant {A : Numeric Dense α} (real : A.isComplex = false) :
    (Objective.ofConstant A).Plain := by
  cases A with
  | complex A => cases real
  | real A =>
      intro e he
      cases List.mem_singleton.mp he
      exact ⟨rfl, Coeffs.stored_zeros _ _⟩

omit [Entry α] in
theorem ofVariable [Scalar α] (x : Variable) {sign : Sign} (real : sign ≠ .complex) :
    (Objective.ofVariable x sign : Objective α).Plain := by
  intro e he
  rw [Objective.ofVariable, if_neg real] at he
  rcases List.mem_cons.mp he with rfl | he
  · exact ⟨rfl, Coeffs.stored_zeros _ _⟩
  · cases List.mem_singleton.mp he
    exact ⟨rfl, Coeffs.stored_zeros _ _⟩

end Objective.Plain

end ConicModel
