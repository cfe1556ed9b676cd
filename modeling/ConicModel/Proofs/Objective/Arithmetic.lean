/-
# Arithmetic of objectives

Sums, differences and products of objectives are those of the affine maps that they stand
for, and that is a statement about rows (`Objective.row_add` and so on).  The laws below are
about the objectives themselves: which keys there are, in which order, and which matrices
stand under them.

The matrices are compared by their entries.  A missing entry counts as zero, so that the two
matrices under a key can be read at any key (`Objective.coefficient`); read that way, a sum is
a sum whatever the three cases of merging were.  Objectives with the same coefficients have
the same matrices as soon as their widths go together (`Objective.Sized.agree_of_coefficients`),
and then every law of addition is that of the coefficients and a fact about lists of keys.

Products with one and the same matrix, held once with real and once with complex elements, do
not come out of this, because the complex one joins the two parts of the offset.  If the parts
are real they can be told apart again (`Part.agree_retyped`).
-/
import ConicModel.Proofs.Objective.Composition
import ConicModel.Proofs.Objective.Total

namespace ConicModel

open Finset

variable {α : Type} [Entry α]

/-! ## Entries outside of a matrix -/

namespace Coeffs

theorem entry_of_le {A : Coeffs α} {j : Nat} (h : cols A ≤ j) (i : Nat) : entry A i j = 0 :=
  Sparse.get_of_le ((cols_toComplex A).trans_le h) i

/-- Where there is nothing, nothing is added. -/
theorem entry_sum [LawfulEntry α] {A B C : Coeffs α} (h : add? A B = some C) (i j : Nat) :
    entry C i j = entry A i j + entry B i j := by
  by_cases inside : j < cols A
  · exact entry_add h inside i
  · obtain ⟨-, hB, -, hC⟩ := shape_add h
    have outside : cols A ≤ j := Nat.not_lt.mp inside
    rw [entry_of_le outside, entry_of_le (hB.trans_le outside), entry_of_le (hC.trans_le outside),
      add_zero]

end Coeffs

/-! ## Coefficients -/

/-- Both matrices of an entry at one position. -/
def Part.entry (p : Part α) (i j : Nat) : Cplx α × Cplx α :=
  (Coeffs.entry p.real i j, Coeffs.entry p.imag i j)

/-- Both matrices under a key at one position; what is missing is zero. -/
def Objective.coefficient (o : Objective α) (key : Id) (i j : Nat) : Cplx α × Cplx α :=
  (o.get? key).elim 0 fun p => p.entry i j

namespace Part

variable [LawfulEntry α]

theorem entry_neg (p : Part α) (i j : Nat) : p.neg.entry i j = -p.entry i j :=
  Prod.ext (Coeffs.entry_neg p.real i j) (Coeffs.entry_neg p.imag i j)

theorem entry_add {p q s : Part α} (h : p.add? q = some s) (i j : Nat) :
    s.entry i j = p.entry i j + q.entry i j := by
  obtain ⟨real, imag⟩ := add?_eq_some h
  exact Prod.ext (Coeffs.entry_sum real i j) (Coeffs.entry_sum imag i j)

end Part

namespace Objective

/-! ### Of a change of sign -/

theorem coefficient_neg [LawfulEntry α] (o : Objective α) (key : Id) (i j : Nat) :
    o.neg.coefficient key i j = -o.coefficient key i j := by
  rw [coefficient, coefficient, get?_neg]
  cases o.get? key with
  | none => exact neg_zero.symm
  | some p => exact p.entry_neg i j

/-! ### Of a sum -/

variable {a b o : Objective α}

/-- The coefficients of a sum are sums. -/
theorem coefficient_add [LawfulEntry α] (h : a.add b = .ok o) (key : Id) (i j : Nat) :
    o.coefficient key i j = a.coefficient key i j + b.coefficient key i j := by
  rw [coefficient, coefficient, coefficient]
  obtain ⟨new, found⟩ | ⟨p, held, ⟨alone, found⟩ | ⟨q, s, other, sum, found⟩⟩ := get?_add h key
  · rw [new, found, Option.elim_none, zero_add]
  · rw [held, alone, found, Option.elim_none, add_zero]
  · rw [held, other, found]
    exact Part.entry_add sum i j

/-- A difference has the same keys in either order. -/
theorem mem_keys_sub {d d' : Objective α} (hd : a.sub b = .ok d) (hd' : b.sub a = .ok d')
    (i : Id) : i ∈ d.neg.keys ↔ i ∈ d'.keys := by
  rw [keys_neg, mem_keys_add hd, mem_keys_add hd', keys_neg, keys_neg, or_comm]

/-! ## Objectives known by their coefficients -/

/-- Entries under one key have as many columns in both objectives. -/
def Matches (a b : Objective α) : Prop :=
  ∀ key p q, a.get? key = some p → b.get? key = some q →
    Coeffs.cols p.real = Coeffs.cols q.real

omit [Entry α] in
theorem Matches.symm (h : a.Matches b) : b.Matches a :=
  fun key p q hp hq => (h key q p hq hp).symm

omit [Entry α] in
theorem Matches.refl (a : Objective α) : a.Matches a := by
  intro key p q hp hq
  cases hp.symm.trans hq
  rfl

/-- The widths that entries have in some of the objectives. -/
def Widths (os : List (Objective α)) (key : Id) (width : Nat) : Prop :=
  ∃ o ∈ os, ∃ p, o.get? key = some p ∧ Coeffs.cols p.real = width

omit [Entry α] in
theorem oneWidth_of_matches {os : List (Objective α)} (h : os.Pairwise Matches) :
    OneWidth (Widths os) := by
  rintro key m n ⟨o, ho, p, hp, rfl⟩ ⟨o', ho', q, hq, rfl⟩
  have symmetric : Std.Symm (Matches (α := α)) := ⟨fun _ _ => Matches.symm⟩
  exact h.forall_of_forall (fun o _ => Matches.refl o) ho ho' key p q hp hq

omit [Entry α] in
theorem over_widths {os : List (Objective α)} {n : Nat} {o : Objective α} (ho : o ∈ os)
    (formed : o.Formed n) : o.Over (Widths os) := by
  intro e he _
  exact ⟨o, ho, e.2, Table.get?_of_mem formed.keys he, rfl⟩

/-- Of `n` rows, and as wide under each key as the key demands. -/
structure Sized (n : Nat) (P : Id → Nat → Prop) (o : Objective α) : Prop where
  formed : o.Formed n
  about : o.Over P

/-- The same keys in any order, and the same matrices under each key. -/
structure Alike (o o' : Objective α) : Prop where
  keys : o.keys.Perm o'.keys
  parts : ∀ key p q, o.get? key = some p → o'.get? key = some q → p.Agree q

section Laws

variable {n : Nat} {P : Id → Nat → Prop} {c : Objective α}

namespace Sized

theorem neg (h : a.Sized n P) : a.neg.Sized n P := ⟨h.formed.neg, h.about.neg⟩

theorem add (ha : a.Sized n P) (hb : b.Sized n P) (h : a.add b = .ok o) : o.Sized n P :=
  ⟨ha.formed.add hb.formed h, ha.about.add hb.about h⟩

variable (one : OneWidth P)

include one

theorem add_total (ha : a.Sized n P) (hb : b.Sized n P) : ∃ o, a.add b = .ok o ∧ o.Sized n P := by
  obtain ⟨o, h⟩ := Objective.add_total one ha.formed hb.formed ha.about hb.about
  exact ⟨o, h, ha.add hb h⟩

/-- Objectives with the same coefficients have the same matrices. -/
theorem agree_of_coefficients (ha : a.Sized n P) (hb : b.Sized n P)
    (same : ∀ key i j, a.coefficient key i j = b.coefficient key i j) (key : Id)
    (p q : Part α) (hp : a.get? key = some p) (hq : b.get? key = some q) : p.Agree q := by
  have formed := ha.formed.parts _ (Table.mem_of_get? hp)
  have formed' := hb.formed.parts _ (Table.mem_of_get? hq)
  have cols : Coeffs.cols q.real = Coeffs.cols p.real :=
    cols_eq one ha.formed hb.formed ha.about hb.about (e := (key, p)) (Table.mem_of_get? hp) hq
  have entries : ∀ i j, p.entry i j = q.entry i j := by
    intro i j
    have h := same key i j
    rwa [coefficient, coefficient, hp, hq] at h
  refine ⟨⟨formed.real_rows.trans formed'.real_rows.symm, cols.symm, fun i _ j _ => ?_⟩,
    ⟨formed.imag_rows.trans formed'.imag_rows.symm, ?_, fun i _ j _ => ?_⟩⟩
  · exact congrArg Prod.fst (entries i j)
  · rw [formed.cols, formed'.cols, cols]
  · exact congrArg Prod.snd (entries i j)

theorem alike_of_coefficients (ha : a.Sized n P) (hb : b.Sized n P)
    (keys : ∀ i, i ∈ a.keys ↔ i ∈ b.keys)
    (same : ∀ key i j, a.coefficient key i j = b.coefficient key i j) : a.Alike b where
  keys := (List.perm_ext_iff_of_nodup ha.formed.keys hb.formed.keys).mpr keys
  parts := agree_of_coefficients one ha hb same

variable [LawfulEntry α]

/-- Which two of three objectives are added first makes no difference, not even to the order
of the keys. -/
theorem sum_assoc (ha : a.Sized n P) (hb : b.Sized n P) (hc : c.Sized n P)
    {ab bc left right : Objective α} (hab : a.add b = .ok ab) (hleft : ab.add c = .ok left)
    (hbc : b.add c = .ok bc) (hright : a.add bc = .ok right) : left.Agree right where
  keys := by
    have rest : (c.keys.filter fun i => i ∉ a.keys ++ b.keys.filter fun i => i ∉ a.keys)
        = (c.keys.filter fun i => i ∉ b.keys).filter fun i => i ∉ a.keys := by
      rw [List.filter_filter]
      refine List.filter_congr fun i _ => ?_
      by_cases old : i ∈ a.keys
      · simp [old]
      · simp [old]
    rw [keys_add hleft, keys_add hright, keys_add hab, keys_add hbc, List.filter_append, rest,
      List.append_assoc]
  parts := by
    refine agree_of_coefficients one ((ha.add hb hab).add hc hleft)
      (ha.add (hb.add hc hbc) hright) fun key i j => ?_
    rw [coefficient_add hleft, coefficient_add hab, coefficient_add hright, coefficient_add hbc,
      add_assoc]

/-- The order of two summands shows in nothing but the order of the keys. -/
theorem sum_comm (ha : a.Sized n P) (hb : b.Sized n P) {ab ba : Objective α}
    (hab : a.add b = .ok ab) (hba : b.add a = .ok ba) : ab.Alike ba := by
  refine alike_of_coefficients one (ha.add hb hab) (hb.add ha hba) (fun i => ?_)
    fun key i j => ?_
  · rw [mem_keys_add hab, mem_keys_add hba, or_comm]
  · rw [coefficient_add hab, coefficient_add hba, add_comm]

theorem sub_swap (ha : a.Sized n P) (hb : b.Sized n P) {d d' : Objective α}
    (hd : a.sub b = .ok d) (hd' : b.sub a = .ok d') : d.neg.Alike d' := by
  refine alike_of_coefficients one (ha.add hb.neg hd).neg (hb.add ha.neg hd')
    (mem_keys_sub hd hd') fun key i j => ?_
  rw [coefficient_neg, coefficient_add hd, coefficient_add hd', coefficient_neg,
    coefficient_neg, neg_add_rev, neg_neg]

end Sized

end Laws

end Objective

/-! ## One matrix with real and with complex elements -/

section Retyped

variable [LawfulEntry α]

namespace Cplx

theorem im_sum (f : Nat → Cplx α) (n : Nat) :
    (∑ k ∈ range n, f k).im = ∑ k ∈ range n, (f k).im :=
  map_sum (AddMonoidHom.mk' (im (α := α)) fun _ _ => rfl) f _

theorem im_mul_eq_zero {z w : Cplx α} (hz : z.im = 0) (hw : w.im = 0) : (z * w).im = 0 := by
  rw [mul_im, hz, hw, mul_zero, zero_mul, add_zero]

/-- A combination of real numbers with real coefficients is real. -/
theorem im_sum_eq_zero {f g : Nat → Cplx α} {n : Nat} (hf : ∀ k < n, (f k).im = 0)
    (hg : ∀ k < n, (g k).im = 0) : (∑ k ∈ range n, f k * g k).im = 0 := by
  rw [im_sum]
  refine sum_eq_zero fun k hk => ?_
  exact im_mul_eq_zero (hf k (mem_range.mp hk)) (hg k (mem_range.mp hk))

end Cplx

namespace Coeffs

theorem RealValued.mul {M A : Coeffs α} (hM : M.RealValued) (hA : A.RealValued)
    (inner : cols M = rows A) : (mul M A).RealValued := by
  intro i hi j hj
  rw [rows_mul] at hi
  rw [cols_mul] at hj
  rw [entry_mul M A hj]
  exact Cplx.im_sum_eq_zero (fun k hk => hM i hi k hk) fun k hk => hA k (inner ▸ hk) j hj

end Coeffs

namespace Part

variable {p : Part α} {key : Id}

/-- Split after a product, the two parts of an offset are real. -/
theorem realValued_premultiply {M : Coeffs α} (hM : M.RealValued)
    (hp : Formed (Coeffs.cols M) key p) (real : p.RealValued) :
    (Objective.premultiplyEntry M key p).RealValued := by
  have plain : (p.premultiply M).RealValued :=
    ⟨hM.mul real.1 hp.real_rows.symm, hM.mul real.2 hp.imag_rows.symm⟩
  cases M with
  | real A => exact plain
  | complex C =>
      rw [Objective.premultiplyEntry]
      split
      · exact ⟨Coeffs.realValued_real _, Coeffs.realValued_real _⟩
      · exact plain

variable {M N : Coeffs α}

/-- Products with one matrix agree, whatever its element type is each time. -/
theorem agree_retyped (h : M.Agree N) (hM : M.RealValued) (hp : Formed (Coeffs.cols M) key p)
    (real : key = constantKey → p.RealValued) :
    (Objective.premultiplyEntry M key p).Agree (Objective.premultiplyEntry N key p) := by
  have hp' : Formed (Coeffs.cols N) key p := h.cols ▸ hp
  by_cases hkey : key = constantKey
  · subst hkey
    have formed := hp.premultiply M
    have formed' : Formed (Coeffs.rows M) constantKey (Objective.premultiplyEntry N _ p) :=
      h.rows ▸ hp'.premultiply N
    refine agree_of_offset formed formed' (realValued_premultiply hM hp (real rfl))
      (realValued_premultiply (Coeffs.realValued_of_agree h hM) hp' (real rfl)) fun k hk => ?_
    rw [offset_premultiply hp, offset_premultiply hp', ← h.cols]
    refine sum_congr rfl fun l hl => ?_
    rw [h.entry k hk l (mem_range.mp hl)]
  · have mul (A : Coeffs α) : Coeffs.Agree (Coeffs.mul M A) (Coeffs.mul N A) := by
      refine ⟨by rw [Coeffs.rows_mul, Coeffs.rows_mul, h.rows],
        by rw [Coeffs.cols_mul, Coeffs.cols_mul], fun i hi j hj => ?_⟩
      rw [Coeffs.rows_mul] at hi
      rw [Coeffs.cols_mul] at hj
      rw [Coeffs.entry_mul M A hj, Coeffs.entry_mul N A hj, ← h.cols]
      refine sum_congr rfl fun l hl => ?_
      rw [h.entry i hi l (mem_range.mp hl)]
    rw [premultiplyEntry_of_ne M hkey, premultiplyEntry_of_ne N hkey]
    exact ⟨mul p.real, mul p.imag⟩

end Part

/-- Products with one matrix agree, whatever its element type is each time. -/
theorem Objective.agree_retyped {M N : Coeffs α} (h : M.Agree N) (hM : M.RealValued)
    {o o₁ o₂ : Objective α} (formed : o.Formed (Coeffs.cols M))
    (real : ∀ p, o.get? constantKey = some p → p.RealValued) (first : o.premultiply M = .ok o₁)
    (second : o.premultiply N = .ok o₂) : o₁.Agree o₂ where
  keys := by rw [keys_premultiply first, keys_premultiply second]
  parts key p q hp hq := by
    rw [get?_premultiply first] at hp
    rw [get?_premultiply second] at hq
    obtain ⟨d, hd, rfl⟩ := Option.map_eq_some_iff.mp hp
    obtain ⟨e, he, rfl⟩ := Option.map_eq_some_iff.mp hq
    cases hd.symm.trans he
    refine Part.agree_retyped h hM (formed.parts _ (Table.mem_of_get? hd)) fun hkey => ?_
    exact real d (hkey ▸ hd)

end Retyped

/-! ## The laws together -/

/-- Objectives of one number of rows, with as many columns wherever they have entries under
one key, are added, subtracted and multiplied by matrices as affine maps are, and none of it
is refused.  A sum has the keys of its left operand and then the new ones of its right
operand.  Sums are associative to the order of the entries and commutative but for it, a
difference changes its sign with its order, and a product does not depend on the element type
of the matrix, if its entries and the offset are real numbers. -/
theorem objective_arithmetic [LawfulEntry α] {n : Nat} {a b c : Objective α} (ha : a.Formed n)
    (hb : b.Formed n) (hc : c.Formed n) (hab : a.Matches b) (hac : a.Matches c)
    (hbc : b.Matches c) :
    (∃ sum, a.add b = .ok sum ∧ sum.keys = a.keys ++ b.keys.filter (fun i => i ∉ a.keys) ∧
      ∀ re im k, sum.row re im k = a.row re im k + b.row re im k) ∧
    (∀ re im k, a.neg.row re im k = -a.row re im k) ∧
    (∃ difference, a.sub b = .ok difference ∧
      ∀ re im k, difference.row re im k = a.row re im k - b.row re im k) ∧
    (∀ M, Coeffs.cols M = n → ∃ product, a.premultiply M = .ok product ∧
      ∀ re im k, product.row re im k
        = ∑ l ∈ range n, Coeffs.entry M k l * a.row re im l) ∧
    (∃ ab bc left right, a.add b = .ok ab ∧ b.add c = .ok bc ∧ ab.add c = .ok left ∧
      a.add bc = .ok right ∧ left.Agree right) ∧
    (∃ ab ba, a.add b = .ok ab ∧ b.add a = .ok ba ∧ ab.Alike ba) ∧
    (∃ d d', a.sub b = .ok d ∧ b.sub a = .ok d' ∧ d.neg.Alike d') ∧
    (∀ A C, Coeffs.cols (.real A : Coeffs α) = n →
      Coeffs.Agree (.real A) (.complex C : Coeffs α) →
      (∀ p, a.get? constantKey = some p → p.RealValued) →
      ∃ o o', a.premultiply (.real A) = .ok o ∧ a.premultiply (.complex C) = .ok o' ∧
        o.Agree o') := by
  have one : Objective.OneWidth (Objective.Widths [a, b, c]) :=
    Objective.oneWidth_of_matches (by simp [hab, hac, hbc])
  have sized {o : Objective α} (ho : o ∈ [a, b, c]) (formed : o.Formed n) :
      o.Sized n (Objective.Widths [a, b, c]) := ⟨formed, Objective.over_widths ho formed⟩
  have ha' := sized (by simp) ha
  have hb' := sized (by simp) hb
  have hc' := sized (by simp) hc
  obtain ⟨ab, hab, sized_ab⟩ := ha'.add_total one hb'
  obtain ⟨ba, hba, -⟩ := hb'.add_total one ha'
  obtain ⟨bc, hbc, sized_bc⟩ := hb'.add_total one hc'
  obtain ⟨left, hleft, -⟩ := sized_ab.add_total one hc'
  obtain ⟨right, hright, -⟩ := ha'.add_total one sized_bc
  obtain ⟨d, hd, -⟩ := ha'.add_total one hb'.neg
  obtain ⟨d', hd', -⟩ := hb'.add_total one ha'.neg
  refine ⟨⟨ab, hab, Objective.keys_add hab, fun re im k => Objective.row_add ha hb hab k⟩,
    fun re im k => Objective.row_neg a k,
    ⟨d, hd, fun re im k => Objective.row_sub ha hb hd k⟩, fun M hM => ?_,
    ⟨ab, bc, left, right, hab, hbc, hleft, hright,
      ha'.sum_assoc one hb' hc' hab hleft hbc hright⟩,
    ⟨ab, ba, hab, hba, ha'.sum_comm one hb' hab hba⟩,
    ⟨d, d', hd, hd', ha'.sub_swap one hb' hd hd'⟩, fun A C cols same real => ?_⟩
  · obtain ⟨product, made⟩ := Objective.premultiply_total ha hM
    exact ⟨product, made, fun re im k => Objective.row_premultiply ha made k⟩
  · obtain ⟨o, made⟩ := Objective.premultiply_total ha cols
    obtain ⟨o', made'⟩ := Objective.premultiply_total ha (same.cols.symm.trans cols)
    refine ⟨o, o', made, made', ?_⟩
    exact Objective.agree_retyped same (Coeffs.realValued_real A) (cols.symm ▸ ha) real made made'

/-! ### Three objectives of two rows -/

namespace Merged

instance (n : Nat) (key : Id) (p : Part ℚ) : Decidable (Part.Formed n key p) :=
  decidable_of_iff (Coeffs.rows p.real = n ∧ Coeffs.rows p.imag = n ∧
      Coeffs.cols p.imag = Coeffs.cols p.real ∧ (key = constantKey → Coeffs.cols p.real = 1))
    ⟨fun ⟨real, imag, cols, column⟩ => ⟨real, imag, cols, column⟩,
      fun ⟨real, imag, cols, column⟩ => ⟨real, imag, cols, column⟩⟩

instance (n : Nat) (o : Objective ℚ) : Decidable (o.Formed n) :=
  decidable_of_iff (o.keys.Nodup ∧ ∀ e ∈ o.entries, Part.Formed n e.1 e.2)
    ⟨fun ⟨keys, parts⟩ => ⟨keys, parts⟩, fun ⟨keys, parts⟩ => ⟨keys, parts⟩⟩

theorem matches_of_entries {a b : Objective ℚ} (h : ∀ d ∈ a.entries, ∀ e ∈ b.entries,
    d.1 = e.1 → Coeffs.cols d.2.real = Coeffs.cols e.2.real) : a.Matches b :=
  fun _ _ _ hp hq => h _ (Table.mem_of_get? hp) _ (Table.mem_of_get? hq) rfl

/-- A real column, and nothing imaginary. -/
def column (x y : ℚ) : Part ℚ := ⟨.real (.ofDense (.ofRowMajor 2 1 #[x, y])), .zeros 2 1⟩

/-- A complex variable of two entries, with an offset. -/
def a : Objective ℚ := ⟨[(1, ⟨.identity 2, .complex (Coeffs.timesI (.identity 2))⟩),
  (constantKey, column 3 4)]⟩

def b : Objective ℚ := ⟨[(2, column 5 6), (1, ⟨.identity 2, .zeros 2 2⟩)]⟩

def c : Objective ℚ := ⟨[(constantKey, column 7 8), (3, column 1 0), (2, column 0 1)]⟩

/-- A row that mixes the two parts of an offset. -/
def mixing : Coeffs ℚ := .complex (.ofDense (.ofRowMajor 1 2 #[⟨1, 2⟩, ⟨0, 1⟩]))

end Merged

/-- Objectives that share a variable, or the offset, or nothing. -/
theorem merged_arithmetic :
    (∃ sum, Merged.a.add Merged.b = .ok sum ∧ sum.keys = [1, constantKey, 2]) ∧
    (∃ product, Merged.a.premultiply Merged.mixing = .ok product ∧
      ∀ re im k, product.row re im k
        = ∑ l ∈ range 2, Coeffs.entry Merged.mixing k l * Merged.a.row re im l) ∧
    ∃ ab bc left right, Merged.a.add Merged.b = .ok ab ∧ Merged.b.add Merged.c = .ok bc ∧
      ab.add Merged.c = .ok left ∧ Merged.a.add bc = .ok right ∧ left.Agree right := by
  obtain ⟨⟨sum, made, keys, -⟩, -, -, products, assoc, -, -, -⟩ :=
    objective_arithmetic (n := 2) (a := Merged.a) (b := Merged.b) (c := Merged.c)
      (by decide +kernel) (by decide +kernel) (by decide +kernel)
      (Merged.matches_of_entries (by decide +kernel))
      (Merged.matches_of_entries (by decide +kernel))
      (Merged.matches_of_entries (by decide +kernel))
  exact ⟨⟨sum, made, keys⟩, products Merged.mixing (by decide +kernel), assoc⟩

end ConicModel
