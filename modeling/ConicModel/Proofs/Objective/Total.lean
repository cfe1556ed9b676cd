/-
# Operations that are not refused

An operation on objectives checks shapes and refuses what does not fit: entries of other
rows, sums of other columns, a matrix of the wrong width.  What compilation hands to it
always fits.  Objectives of one number of rows whose entries are over variables, with as
many columns as the variables have entries, have a sum (`Objective.add_total`), a
difference and a product (`Objective.sub_total`, `Objective.premultiply_total`).
-/
import ConicModel.Proofs.Objective.Uniform

namespace ConicModel

variable {α : Type} [Entry α]

namespace Objective

/-! ## Products -/

theorem premultiply_total {n : Nat} {o : Objective α} (ho : o.Formed n) {M : Coeffs α}
    (hM : Coeffs.cols M = n) : ∃ o', o.premultiply M = .ok o' := by
  cases h : o.premultiply M with
  | ok o' => exact ⟨o', rfl⟩
  | error f =>
      obtain ⟨m, hm, narrow, -⟩ := (premultiply_error_iff ho.uniform).mp h
      exact absurd (hM.trans (ho.rows_eq hm).symm) narrow

/-! ## Sums -/

/-- How many columns an entry has is determined by its key. -/
def OneWidth (P : Id → Nat → Prop) : Prop := ∀ i m n, P i m → P i n → m = n

section Sums

variable {n : Nat} {P : Id → Nat → Prop} {a b : Objective α}

omit [Entry α] in
/-- Entries under one key have as many columns in both objectives. -/
theorem cols_eq (one : OneWidth P) (ha : a.Formed n) (hb : b.Formed n) (over_a : a.Over P)
    (over_b : b.Over P) {e : Id × Part α} (he : e ∈ a.entries) {q : Part α}
    (hq : b.get? e.1 = some q) : Coeffs.cols q.real = Coeffs.cols e.2.real := by
  have hqb : (e.1, q) ∈ b.entries := Table.mem_of_get? hq
  by_cases key : e.1 = constantKey
  · exact ((hb.parts _ hqb).column key).trans ((ha.parts e he).column key).symm
  · exact one e.1 _ _ (over_b _ hqb key) (over_a e he key)

theorem add_total (one : OneWidth P) (ha : a.Formed n) (hb : b.Formed n) (over_a : a.Over P)
    (over_b : b.Over P) : ∃ o, a.add b = .ok o := by
  cases h : a.add b with
  | ok o => exact ⟨o, rfl⟩
  | error f =>
      cases (add_error_iff ha.uniform hb.uniform).mp h with
      | rows hm hk differ => exact absurd ((ha.rows_eq hm).trans (hb.rows_eq hk).symm) differ
      | @columns key p q _ hp hq differ =>
          have held : (key, p) ∈ a.entries := Table.mem_of_get? hp
          exact absurd (cols_eq one ha hb over_a over_b held hq).symm differ

theorem sub_total (one : OneWidth P) (ha : a.Formed n) (hb : b.Formed n) (over_a : a.Over P)
    (over_b : b.Over P) : ∃ o, a.sub b = .ok o :=
  add_total one ha hb.neg over_a over_b.neg

end Sums

end Objective

end ConicModel
