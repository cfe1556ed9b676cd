/-
# Inferred signs are right

A product has the product of the signs of its operands, and nobody looks at its value for that.
What a sign says of a number is `Sign.Admits`: that it is real, unless the sign is complex, and
on which side of zero it is.  It is assumed that the leaves are as their signs say
(`Expr.Truthful`).  This is a condition on variables and on signs that were given by hand; a
sign that was inferred from the entries is right (`Numeric.obeys_ofMatrix`).

Then values are as signs say, by induction on expressions (`Expr.obeys_of_evaluate`).  Left
operands are compiled by their values, so that what is compiled of an expression that is not
complex is a product of real matrices with something that has no imaginary part, and has none
itself (`Expr.purelyReal_of_form`).  A constant that was spread over a shape is as its scalar
was (`Constant.Truthful.spread`).

None of this is about element types.  A matrix with complex elements may have been given a real
sign by hand, and then the coefficients have complex elements as well; what is shown of them is
that their imaginary parts are zero.
-/
import ConicModel.Proofs.Compile.Nesting
import ConicModel.Proofs.Objective.Arithmetic
import ConicModel.Proofs.Signs

namespace ConicModel

open Finset

variable {α : Type}

/-- The comparison of scalars is that of an ordered ring. -/
class OrderedScalar (α : Type) [Scalar α] [PartialOrder α] : Prop extends OrderedEntry α where
  le_iff (x y : α) : Scalar.le x y = true ↔ x ≤ y

instance : OrderedScalar ℚ where
  le_iff _ _ := decide_eq_true_iff

/-! ## What signs say -/

/-- What a sign says of a number: the complex one says nothing. -/
def Sign.Admits [Entry α] [LE α] (s : Sign) (z : Cplx α) : Prop :=
  match s with
  | positive => 0 ≤ z.re ∧ z.im = 0
  | negative => z.re ≤ 0 ∧ z.im = 0
  | noSign => z.im = 0
  | complex => True

/-- Every entry is as the sign says. -/
def Numeric.Obeys [Entry α] [LE α] (A : Numeric Dense α) (s : Sign) : Prop :=
  ∀ i < A.toComplex.rows, ∀ j < A.toComplex.cols, s.Admits (A.toComplex.get i j)

namespace Sign.Admits

variable [Entry α] [PartialOrder α] {s t : Sign} {z w : Cplx α}

theorem im_eq_zero (h : s.Admits z) (real : s ≠ .complex) : z.im = 0 := by
  cases s with
  | positive | negative => exact h.2
  | noSign => exact h
  | complex => exact (real rfl).elim

theorem zero (s : Sign) : s.Admits (0 : Cplx α) := by
  cases s with
  | positive | negative => exact ⟨le_rfl, rfl⟩
  | noSign => exact rfl
  | complex => trivial

/-- The rule for products. -/
theorem mul [OrderedEntry α] (hz : s.Admits z) (hw : t.Admits w) :
    (s.mul t).Admits (z * w) := by
  by_cases complex : s.mul t = .complex
  · rw [complex]
    trivial
  obtain ⟨hs, ht⟩ := not_or.mp (mt Sign.mul_eq_complex_iff.mpr complex)
  have z_real := hz.im_eq_zero hs
  have im : (z * w).im = 0 := Cplx.im_mul_eq_zero z_real (hw.im_eq_zero ht)
  have re : (z * w).re = z.re * w.re := by rw [Cplx.mul_re, z_real, zero_mul, sub_zero]
  have nonneg (h : 0 ≤ z.re * w.re) : positive.Admits (z * w) := ⟨re ▸ h, im⟩
  have nonpos (h : z.re * w.re ≤ 0) : negative.Admits (z * w) := ⟨re ▸ h, im⟩
  cases s with
  | complex => exact (hs rfl).elim
  | noSign =>
      cases t with
      | complex => exact (ht rfl).elim
      | positive | negative | noSign => exact im
  | positive =>
      cases t with
      | complex => exact (ht rfl).elim
      | noSign => exact im
      | positive => exact nonneg (mul_nonneg hz.1 hw.1)
      | negative => exact nonpos (mul_nonpos_of_nonneg_of_nonpos hz.1 hw.1)
  | negative =>
      cases t with
      | complex => exact (ht rfl).elim
      | noSign => exact im
      | positive => exact nonpos (mul_nonpos_of_nonpos_of_nonneg hz.1 hw.1)
      | negative => exact nonneg (mul_nonneg_of_nonpos_of_nonpos hz.1 hw.1)

end Sign.Admits

/-! ## Matrices -/

namespace Dense

variable {R : Type} [Zero R] (A : Dense R) {i : Nat} (j : Nat)

theorem get_of_rows_le (h : A.rows ≤ i) : A.get i j = 0 := by
  rw [get]
  split
  · have outside : A.data.size ≤ i * A.cols + j := by
      rw [A.size_eq]
      exact (Nat.mul_le_mul_right _ h).trans (Nat.le_add_right _ _)
    rw [Array.getD_eq_getD_getElem?, Array.getElem?_eq_none outside, Option.getD_none]
  · rfl

variable {j} in
theorem get_mem (hi : i < A.rows) (hj : j < A.cols) : A.get i j ∈ A.data := by
  have inside : i * A.cols + j < A.data.size := A.size_eq ▸ index_lt hi hj
  rw [get, if_pos hj, Array.getD_eq_getD_getElem?, Array.getElem?_eq_getElem inside,
    Option.getD_some]
  exact Array.getElem_mem inside

end Dense

namespace Numeric

variable {A B : Numeric Dense α} {s t : Sign}

section

variable [Entry α] [PartialOrder α]

/-- Outside of the matrix there are zeros, which any sign admits. -/
theorem Obeys.get (h : A.Obeys s) (i j : Nat) : s.Admits (A.toComplex.get i j) := by
  by_cases hi : i < A.toComplex.rows
  · by_cases hj : j < A.toComplex.cols
    · exact h i hi j hj
    · rw [Dense.get, if_neg hj]
      exact .zero s
  · rw [Dense.get_of_rows_le _ j (Nat.not_lt.mp hi)]
    exact .zero s

theorem Obeys.noSign (h : A.Obeys s) (real : s ≠ .complex) : A.Obeys .noSign :=
  fun i hi j hj => (h i hi j hj).im_eq_zero real

/-- Spread over any shape, the first entry is still as the sign says. -/
theorem Obeys.spread (h : A.Obeys s) (r c : Nat) :
    (A.map fun A => .replicate r c A.head).Obeys s := by
  have head := h.get 0 0
  cases A with
  | complex A =>
      intro i hi j hj
      exact (Dense.get_ofFn (fun _ _ => A.head) hi hj).symm ▸ head
  | real A =>
      intro i hi j hj
      have entry : (Cplx.ofReal <$> Dense.replicate r c A.head : Dense (Cplx α)).get i j
          = (Cplx.ofReal <$> A : Dense (Cplx α)).get 0 0 :=
        calc _ = Cplx.ofReal ((Dense.replicate r c A.head).get i j) :=
              Dense.get_map Cplx.ofReal_zero _ i j
          _ = Cplx.ofReal A.head := congrArg _ (Dense.get_ofFn _ hi hj)
          _ = _ := (Dense.get_map Cplx.ofReal_zero A 0 0).symm
      exact entry.symm ▸ head

variable [OrderedEntry α]

theorem Obeys.kron (hA : A.Obeys s) (hB : B.Obeys t) :
    (A.map₂ Dense.kron B).Obeys (s.mul t) := by
  have shape := shape_kron A B
  rw [← shape_toComplex, ← shape_toComplex, ← shape_toComplex] at shape
  obtain ⟨rows, cols⟩ := Prod.mk.inj shape
  intro i hi j hj
  rw [rows] at hi
  rw [cols] at hj
  rw [get_kron A B hi hj, Dense.get_kron _ _ hi hj]
  exact (hA.get _ _).mul (hB.get _ _)

/-- The operator of a real matrix is real, whatever its element type is. -/
theorem Obeys.operator (h : A.Obeys .noSign) (m n : Nat) :
    Coeffs.RealValued (A.map fun A => kroneckerOperator A m n) := by
  cases A with
  | real A => exact Coeffs.realValued_real _
  | complex A =>
      intro r hr c hc
      have hc : c < m * n := hc.trans_eq (Sparse.cols_ofColumns ..)
      have hr : r < A.rows * m * (A.cols * n) := by
        rw [← Nat.mul_assoc]
        exact hr
      let real : Cplx α → Cplx α := fun z => .ofReal z.re
      have same : A.map real = A := Dense.ext_get rfl rfl fun i hi j hj =>
        (Dense.get_map rfl A i j).trans (Cplx.ext rfl (h i hi j hj).symm)
      have entry := get_kroneckerOperator_map (f := real) rfl A hr hc
      rw [same] at entry
      exact congrArg Cplx.im entry

end

/-- A sign that was inferred is right: for no entries and for zeros alone, which count as
positive, as much as for any others. -/
theorem obeys_ofMatrix [Scalar α] [PartialOrder α] [OrderedScalar α] (A : Numeric Dense α) :
    A.Obeys (Sign.ofMatrix A) := by
  cases A with
  | complex A => exact fun _ _ _ _ => trivial
  | real A =>
      intro i hi j hj
      have mem : A.get i j ∈ A.data := A.get_mem hi hj
      have entry : (Numeric.real A).toComplex.get i j = Cplx.ofReal (A.get i j) :=
        Dense.get_map Cplx.ofReal_zero A i j
      rw [entry, Sign.ofMatrix, Sign.ofReals]
      split
      · rename_i all
        exact ⟨(OrderedScalar.le_iff ..).mp (Array.all_eq_true_iff_forall_mem.mp all _ mem), rfl⟩
      · split
        · rename_i all
          exact ⟨(OrderedScalar.le_iff ..).mp (Array.all_eq_true_iff_forall_mem.mp all _ mem),
            rfl⟩
        · rfl

end Numeric

/-! ## Values -/

section Values

variable [Scalar α] [PartialOrder α] {vars : Vars α}

/-- The sign was inferred, or it is right. -/
def Constant.Truthful (c : Constant α) : Prop :=
  c.sign = Sign.ofMatrix c.value ∨ c.value.Obeys c.sign

/-- Every leaf is as its sign says; of a variable without a value nothing is asked. -/
def Expr.Truthful (vars : Vars α) : Expr α → Prop
  | var x => ∀ v, (vars.state x).value = some v → v.toMatrix.Obeys (vars.state x).sign
  | const c => c.Truthful
  | kron _ a b => a.Truthful vars ∧ b.Truthful vars
  | stub _ => True

variable [OrderedScalar α]

theorem Constant.Truthful.obeys {c : Constant α} (h : c.Truthful) : c.value.Obeys c.sign := by
  rcases h with inferred | given
  · rw [inferred]
    exact c.value.obeys_ofMatrix
  · exact given

theorem Constant.Truthful.spread {c c' : Constant α} {shape : Nat × Nat} {l l' : Ledger}
    (h : c.Truthful) (made : c.spread shape l = .ok c' l') :
    c'.sign = c.sign ∧ c'.Truthful := by
  obtain ⟨-, rfl⟩ := spread_ok made
  exact ⟨rfl, .inr (h.obeys.spread _ _)⟩

/-- Values are as signs say. -/
theorem Expr.obeys_of_evaluate {e : Expr α} (truthful : e.Truthful vars) {v : Value α}
    (h : e.evaluate vars = .ok v) : v.toMatrix.Obeys (e.sign vars) := by
  induction e generalizing v with
  | var x => exact truthful v (evaluate_var_ok.mp h)
  | const c =>
      cases h
      exact Constant.Truthful.obeys truthful
  | kron id a b iha ihb =>
      obtain ⟨va, vb, hva, hvb, rfl⟩ := evaluate_kron_ok.mp h
      exact (iha truthful.1 hva).kron (ihb truthful.2 hvb)
  | stub s => cases h

end Values

/-! ## Objectives without imaginary parts -/

section Objectives

variable [Entry α]

/-- Real entries in the real part, and zeros in the imaginary one. -/
structure Part.PurelyReal (p : Part α) : Prop where
  real : Coeffs.RealValued p.real
  imag : ∀ i < Coeffs.rows p.imag, ∀ j < Coeffs.cols p.imag, Coeffs.entry p.imag i j = 0

/-- Every real part has real entries, and every imaginary part is zero. -/
def Objective.PurelyReal (o : Objective α) : Prop := ∀ e ∈ o.entries, e.2.PurelyReal

theorem Part.PurelyReal.realValued {p : Part α} (h : p.PurelyReal) : p.RealValued :=
  ⟨h.real, fun i hi j hj => congrArg Cplx.im (h.imag i hi j hj)⟩

variable [LawfulEntry α] {M : Coeffs α} {p : Part α} {n : Nat} {key : Id}

theorem Part.PurelyReal.offset_im (h : p.PurelyReal) (hp : Formed n constantKey p) {k : Nat}
    (hk : k < n) : (p.offset k).im = 0 := by
  obtain ⟨first, first'⟩ := hp.constant_pos
  rw [offset, h.imag k (hp.imag_rows ▸ hk) 0 first', mul_zero, add_zero]
  exact h.real k (hp.real_rows ▸ hk) 0 first

/-- A real matrix brings in no imaginary part, also where the offset is joined and split
again. -/
theorem Part.PurelyReal.premultiply (h : p.PurelyReal) (hM : M.RealValued)
    (hp : Formed (Coeffs.cols M) key p) :
    (Objective.premultiplyEntry M key p).PurelyReal := by
  have real := realValued_premultiply hM hp h.realValued
  refine ⟨real.1, fun i hi j hj => ?_⟩
  by_cases hkey : key = constantKey
  · subst hkey
    have formed := hp.premultiply M
    have hi : i < Coeffs.rows M := formed.imag_rows ▸ hi
    obtain rfl : j = 0 := Nat.lt_one_iff.mp (formed.column rfl ▸ formed.cols ▸ hj)
    -- The entry is the imaginary part of the offset, which is real.
    have offset_im : ((Objective.premultiplyEntry M constantKey p).offset i).im = 0 := by
      rw [offset_premultiply hp]
      exact Cplx.im_sum_eq_zero (fun l hl => hM i hi l hl) fun l hl => h.offset_im hp hl
    obtain ⟨first, first'⟩ := formed.constant_pos
    rw [← Cplx.ofReal_im_join (real.1 i (formed.real_rows ▸ hi) 0 first)
      (real.2 i (formed.imag_rows ▸ hi) 0 first')]
    exact congrArg Cplx.ofReal offset_im
  · rw [premultiplyEntry_of_ne M hkey] at hj ⊢
    have hj : j < Coeffs.cols p.imag := (Coeffs.cols_mul M p.imag) ▸ hj
    rw [Part.premultiply, Coeffs.entry_mul M p.imag hj]
    refine sum_eq_zero fun l hl => ?_
    rw [h.imag l (hp.imag_rows ▸ mem_range.mp hl) j hj, mul_zero]

theorem Objective.PurelyReal.premultiply {o o' : Objective α} (h : o.PurelyReal)
    (hM : M.RealValued) (formed : o.Formed (Coeffs.cols M)) (made : o.premultiply M = .ok o') :
    o'.PurelyReal := by
  intro e he
  rw [(premultiply_ok made).1] at he
  obtain ⟨d, hd, rfl⟩ := List.mem_map.mp he
  exact (h d hd).premultiply hM (formed.parts d hd)

theorem Part.purelyReal_zeros {A : Coeffs α} (hA : A.RealValued) (r c : Nat) :
    Part.PurelyReal ⟨A, .zeros r c⟩ :=
  ⟨hA, fun i _ j _ => Coeffs.entry_zeros r c i j⟩

/-- What is compiled of a matrix of real numbers. -/
theorem Objective.purelyReal_ofConstant [PartialOrder α] {A : Numeric Dense α}
    (h : A.Obeys .noSign) : (ofConstant A).PurelyReal := by
  intro e he
  cases A with
  | real A =>
      rcases List.mem_singleton.mp he with rfl
      exact Part.purelyReal_zeros (Coeffs.realValued_real _) _ _
  | complex A =>
      rcases List.mem_singleton.mp he with rfl
      refine ⟨Coeffs.realValued_real _, fun k hk j hj => ?_⟩
      have hj : j < 1 := hj.trans_eq (Sparse.cols_ofDense _)
      have zero : (A.vec.get k j).im = 0 := by
        obtain rfl : j = 0 := Nat.lt_one_iff.mp hj
        rw [Dense.get_vec A hk]
        exact h.get _ _
      have entry : (Sparse.ofDense (A.vec.map Cplx.im)).get k j = 0 := by
        rw [Sparse.get_ofDense _ hk hj]
        exact (Dense.get_map rfl A.vec k j).trans zero
      exact (Coeffs.entry_real _ k j).trans (congrArg Cplx.ofReal entry)

/-- What is compiled of a free variable that is not complex. -/
theorem Objective.purelyReal_ofVariable {α : Type} [Scalar α] [LawfulEntry α] (x : Variable)
    {sign : Sign} (real : sign ≠ .complex) : (ofVariable x sign : Objective α).PurelyReal := by
  intro e he
  rcases List.mem_cons.mp he with rfl | he
  · show Part.PurelyReal ⟨_, if sign = .complex then _ else _⟩
    rw [if_neg real]
    exact Part.purelyReal_zeros (Coeffs.realValued_real _) _ _
  · rcases List.mem_singleton.mp he with rfl
    exact Part.purelyReal_zeros (Coeffs.realValued_real _) _ _

end Objectives

/-! ## Expressions -/

section Sound

variable [Scalar α] [PartialOrder α] [OrderedScalar α] {vars : Vars α} {N : Set (Node α)}
  {next : Id}

/-- What is compiled of an expression that is not complex has no imaginary part. -/
theorem Expr.purelyReal_of_form (coherent : Coherent vars N next) {e : Expr α}
    (he : .expr e ∈ N) (truthful : e.Truthful vars) (real : e.sign vars ≠ .complex)
    {o : Objective α} (form : e.form vars = .ok o) : o.PurelyReal := by
  -- Constants are compiled by their values.
  have of_constant {e : Expr α} (he : .expr e ∈ N) (truthful : e.Truthful vars)
      (real : e.sign vars ≠ .complex) {o : Objective α} (form : e.form vars = .ok o)
      (constant : e.curvature vars = .constant) : o.PurelyReal := by
    obtain ⟨v, hv⟩ := coherent.exists_value he constant
    rw [form_constant coherent he constant, constantForm_ok hv] at form
    cases form
    exact Objective.purelyReal_ofConstant ((obeys_of_evaluate truthful hv).noSign real)
  induction e generalizing o with
  | const c => exact of_constant he truthful real form rfl
  | stub s => exact (coherent.roster.no_stub s he).elim
  | var x =>
      cases fixed : (vars.state x).fixed with
      | true =>
          exact of_constant he truthful real form (curvature_var_eq_constant_iff.mpr fixed)
      | false =>
          rw [form_free fixed] at form
          cases form
          exact Objective.purelyReal_ofVariable x real
  | kron id a b iha ihb =>
      obtain ⟨ha, hb⟩ := coherent.roster.kron he
      obtain ⟨real_a, real_b⟩ := not_or.mp (mt Sign.mul_eq_complex_iff.mpr real)
      by_cases left : a.curvature vars = .constant
      case neg => cases (form_left left).symm.trans form
      by_cases right : b.curvature vars = .constant
      · exact of_constant he truthful real form
          (curvature_kron_eq_constant_iff.mpr ⟨left, right⟩)
      rw [form_kron left right] at form
      obtain ⟨child, below, product⟩ := Outcome.except_bind_ok.mp form
      obtain ⟨_, v, ⟨⟩, hv, product⟩ := product_ok.mp product
      have operator := ((obeys_of_evaluate truthful.1 hv).noSign real_a).operator
        b.shape.1 b.shape.2
      refine (ihb hb truthful.2 real_b below).premultiply operator ?_
        (Outcome.mapError_ok.mp product)
      rw [v.cols_operator]
      exact (coherent.fits_of_form hb below).formed

/-- The sign of an expression is right about its value and about what is compiled of it. -/
structure Expr.SignSound (vars : Vars α) (ledger : Ledger) (e : Expr α) : Prop where
  value : ∀ v, e.evaluate vars = .ok v → v.toMatrix.Obeys (e.sign vars)
  objective : e.sign vars ≠ .complex → ∀ (o : Objective α) (q : Pass (Objective α) (Record α)),
    compileExpr vars e ⟨ledger, {}⟩ = .ok o q → o.PurelyReal

/-- A constant is compiled by its value, whoever made it. -/
theorem Constant.Truthful.signSound {c : Constant α} (h : c.Truthful) (vars : Vars α)
    (ledger : Ledger) : (Expr.const c).SignSound vars ledger where
  value v hv := Expr.obeys_of_evaluate (e := .const c) h hv
  objective real o q compiled := by
    cases run_of_compileExpr compiled with
    | known held => cases held
    | constant doubts new constant value =>
        cases value
        exact Objective.purelyReal_ofConstant (h.obeys.noSign real)

/-- Signs that are put together from signs are right, if the leaves are as their signs say:
every value is as the sign of its expression says, and what is compiled of an expression that
is not complex has no imaginary part.  A constant that is spread over the shape of the other
side has the sign of the scalar, and the same holds of it. -/
theorem sign_inference_sound {w : World α} (reachable : Reachable w) :
    (∀ e, .expr e ∈ w.nodes → e.Truthful w.vars → e.SignSound w.vars w.ledger) ∧
    (∀ x y x' y' l l', broadcast x y l = .ok (x', y') l' →
      x.Truthful w.vars → y.Truthful w.vars →
        (x'.sign w.vars = x.sign w.vars ∧ x'.Truthful w.vars ∧
          (x' = x ∨ x'.SignSound w.vars l')) ∧
        (y'.sign w.vars = y.sign w.vars ∧ y'.Truthful w.vars ∧
          (y' = y ∨ y'.SignSound w.vars l'))) := by
  constructor
  · intro e made truthful
    refine ⟨fun v hv => Expr.obeys_of_evaluate truthful hv, fun real o q compiled => ?_⟩
    exact Expr.purelyReal_of_form reachable.sound.coherent made truthful real
      (form_of_compiled reachable made compiled)
  · intro x y x' y' l l' made hx hy
    have spread {c c' : Constant α} {shape : Nat × Nat} (h : (Expr.const c).Truthful w.vars)
        (spread : c.spread shape l = .ok c' l') :
        (Expr.const c').sign w.vars = (Expr.const c).sign w.vars ∧
          (Expr.const c').Truthful w.vars ∧
          (Expr.const c' = .const c ∨ (Expr.const c').SignSound w.vars l') := by
      obtain ⟨sign, truthful⟩ := Constant.Truthful.spread h spread
      exact ⟨sign, truthful, .inr (truthful.signSound w.vars l')⟩
    obtain ⟨-, ⟨rfl, rfl, -⟩ | ⟨rfl, c, c', rfl, -, hc, rfl⟩ | ⟨rfl, c, c', rfl, -, hc, rfl⟩⟩ :=
      broadcast_ok made
    · exact ⟨⟨rfl, hx, .inl rfl⟩, ⟨rfl, hy, .inl rfl⟩⟩
    · exact ⟨⟨rfl, hx, .inl rfl⟩, spread hy hc⟩
    · exact ⟨spread hx hc, ⟨rfl, hy, .inl rfl⟩⟩

end Sound

/-! ### A negative multiple of a positive variable -/

namespace Signed

open Looped (x)

def stored : Value ℚ := .matrix (.real (.ofRowMajor 2 1 #[5, 7]))

def row : Constant ℚ := ⟨2, .real (.ofRowMajor 1 2 #[0, 3]), .positive⟩

def inner : Expr ℚ := .kron 3 (.const row) (.var x)

def factor : Constant ℚ := ⟨4, .real (.ofRowMajor 1 1 #[-2]), .negative⟩

def nested : Expr ℚ := .kron 5 (.const factor) inner

/-- The other side of a constraint. -/
def scalar : Constant ℚ := ⟨6, .real (.ofRowMajor 1 1 #[-1]), .negative⟩

def valued : World ℚ where
  model := { Looped.declared.model with vars := [(1, { sign := .positive, value := some stored })] }
  nodes := Looped.declared.nodes

def world : World ℚ :=
  (valued.make { nextId := 4 } (.expr inner)).make { nextId := 6 } (.expr nested)

theorem nested_made : .expr nested ∈ world.nodes := mem_gain _ _

theorem world_reachable : Reachable world := by
  have hx : .expr (.var x) ∈ Looped.declared.nodes := rfl
  have assigned : Reachable valued := Looped.declared_reachable.next <|
    .change _ x _ _ hx (.assign (.ofNumbers (.real ⟨[2], #[5, 7]⟩))) (by with_unfolding_all rfl)
  have first := assigned.next <| .kron _
    (.array 0 false .real [1, 2] [.atom 0 (.real 0), .atom 0 (.real 3)])
    (.thing 0 (.expr (.var x))) inner { nextId := 4 } (fun s e h => by cases h)
    (Roster.offers_expr hx) (by with_unfolding_all rfl)
  exact first.next <| .kron _ (.ofInt (-2)) (.thing 0 (.expr inner)) nested { nextId := 6 }
    (Roster.offers_int _ (-2)) (Roster.offers_expr (mem_gain _ _)) (by with_unfolding_all rfl)

theorem stored_obeys : stored.toMatrix.Obeys .positive := by
  have inferred : Sign.ofMatrix stored.toMatrix = .positive := by decide +kernel
  exact inferred ▸ stored.toMatrix.obeys_ofMatrix

theorem nested_truthful : nested.Truthful world.vars := by
  refine ⟨.inl (by decide +kernel), .inl (by decide +kernel), fun v hv => ?_⟩
  cases hv
  exact stored_obeys

end Signed

theorem signed_inference_sound :
    (∃ v, Signed.nested.evaluate Signed.world.vars = .ok v ∧ v.toMatrix.Obeys .negative) ∧
    (∃ (o : Objective ℚ) (q : Pass (Objective ℚ) (Record ℚ)),
      compileExpr Signed.world.vars Signed.nested ⟨Signed.world.ledger, {}⟩ = .ok o q ∧
        o.PurelyReal) ∧
    ∃ k l, broadcast Signed.nested (.const Signed.scalar) { nextId := 7 }
        = .ok (Signed.nested, .const k) l ∧
      k.sign = .negative ∧ (Expr.const k).SignSound Signed.world.vars l := by
  obtain ⟨sound, spread⟩ := sign_inference_sound Signed.world_reachable
  obtain ⟨value, objective⟩ := sound _ Signed.nested_made Signed.nested_truthful
  have negative : Signed.nested.sign Signed.world.vars = .negative := rfl
  refine ⟨⟨_, rfl, negative ▸ value _ rfl⟩, ?_, ?_⟩
  · obtain ⟨o, q, compiled⟩ : ∃ (o : Objective ℚ) (q : Pass (Objective ℚ) (Record ℚ)),
        compileExpr Signed.world.vars Signed.nested ⟨Signed.world.ledger, {}⟩ = .ok o q :=
      ⟨_, _, by with_unfolding_all rfl⟩
    exact ⟨o, q, compiled, objective (by decide) o q compiled⟩
  · obtain ⟨k, l, made, new⟩ : ∃ k l,
        broadcast Signed.nested (.const Signed.scalar) { nextId := 7 }
          = .ok (Signed.nested, .const k) l ∧ Expr.const k ≠ .const Signed.scalar :=
      ⟨_, _, by with_unfolding_all rfl, fun same => by injection same with same; cases same⟩
    obtain ⟨-, sign, -, same | sound⟩ := spread _ _ _ _ _ _ made Signed.nested_truthful
      (.inl (by decide +kernel))
    · exact (new same).elim
    · exact ⟨k, l, made, sign, sound⟩

end ConicModel
