/-
# Values of expressions

`v.entry k` is entry `k` of the column-major flattening of a value, as a complex number
whatever the elements are stored as.  Of a Kronecker product these are the rows of the
Kronecker operator times the entries of the right operand (`Value.entry_kron`).

A value has the shape of its expression (`Coherent.shape_of_evaluate`), and a constant
expression has one value for as long as the variables that are held keep theirs
(`Coherent.evaluate_constant`).  A scalar constant that is spread counts as the matrix with
its entry everywhere (`makeConstraint_standsFor`).
-/
import ConicModel.Proofs.Matrix.Coeffs
import ConicModel.Proofs.Matrix.Kronecker
import ConicModel.Proofs.Coherence

namespace ConicModel

open Finset

variable {α : Type}

/-! ## Kronecker products of either element type -/

namespace Numeric

variable [Entry α]

theorem shape_toComplex (A : Numeric Dense α) : A.toComplex.shape = A.on Dense.shape := by
  cases A <;> rfl

theorem shape_kron (A B : Numeric Dense α) :
    (A.map₂ Dense.kron B).on Dense.shape
      = ((A.on Dense.shape).1 * (B.on Dense.shape).1,
          (A.on Dense.shape).2 * (B.on Dense.shape).2) := by
  cases A <;> cases B <;> rfl

variable [LawfulEntry α]

/-- It makes no difference whether operands are made complex before or after. -/
theorem get_kron (A B : Numeric Dense α) {i j : Nat}
    (hi : i < A.toComplex.rows * B.toComplex.rows)
    (hj : j < A.toComplex.cols * B.toComplex.cols) :
    (A.map₂ Dense.kron B).toComplex.get i j = (A.toComplex.kron B.toComplex).get i j := by
  cases A with
  | complex A => cases B <;> rfl
  | real A =>
      cases B with
      | complex B => rfl
      | real B =>
          have parts (M : Dense α) (r c : Nat) :
              (Cplx.ofReal <$> M : Dense (Cplx α)).get r c = Cplx.ofReal (M.get r c) :=
            Dense.get_map Cplx.ofReal_zero M r c
          rw [Dense.get_kron _ _ hi hj]
          show (Cplx.ofReal <$> A.kron B : Dense (Cplx α)).get i j = _
          rw [parts, Dense.get_kron A B hi hj, Cplx.ofReal_mul]
          exact congrArg₂ (· * ·) (parts A _ _).symm (parts B _ _).symm

end Numeric

section Operator

variable {R S : Type} [Entry R] [LawfulEntry R] [Entry S] [LawfulEntry S]

/-- The operator of a matrix whose entries were mapped. -/
theorem get_kroneckerOperator_map {f : R → S} (h0 : f 0 = 0) (A : Dense R) {m n r c : Nat}
    (hr : r < A.rows * m * (A.cols * n)) (hc : c < m * n) :
    (kroneckerOperator (A.map f) m n).get r c = f ((kroneckerOperator A m n).get r c) := by
  have hm : 0 < m := Nat.pos_of_ne_zero fun h => by simp [h] at hc
  have hk : c % m < m := Nat.mod_lt c hm
  have hl : c / m < n := Nat.div_lt_of_lt_mul hc
  rw [kroneckerOperator, kroneckerOperator, Sparse.get_ofColumns _ hc, Sparse.get_ofColumns _ hc,
    valueAt_kroneckerColumn A hk hl hr, valueAt_kroneckerColumn (A.map f) hk hl hr]
  rw [Dense.rows_map, Dense.get_map h0]
  split
  · rfl
  · exact h0.symm

end Operator

/-! ## Entries of values -/

namespace Value

/-- Entry `k` of the column-major flattening. -/
def entry [Entry α] (v : Value α) (k : Nat) : Cplx α := v.toMatrix.toComplex.vec.get k 0

section Operator

variable [Entry α] (v : Value α) (m n : Nat)

/-- The operator of a value has a row for every entry of a product with it. -/
theorem rows_operator : Coeffs.rows (v.toMatrix.map fun A => kroneckerOperator A m n)
    = v.shape.1 * m * (v.shape.2 * n) := by
  rw [← Nat.mul_assoc, shape]
  cases v.toMatrix <;> rfl

theorem cols_operator :
    Coeffs.cols (v.toMatrix.map fun A => kroneckerOperator A m n) = m * n := by
  cases v.toMatrix <;> exact Sparse.cols_ofColumns ..

end Operator

variable [Entry α] [LawfulEntry α]

/-- The entries of a Kronecker product are the rows of the operator of the left operand,
times the entries of the right one. -/
theorem entry_kron (v w : Value α) {k : Nat}
    (hk : k < v.shape.1 * w.shape.1 * (v.shape.2 * w.shape.2)) :
    (Value.matrix (v.toMatrix.map₂ Dense.kron w.toMatrix)).entry k
      = ∑ l ∈ range (w.shape.1 * w.shape.2),
          Coeffs.entry (v.toMatrix.map fun A => kroneckerOperator A w.shape.1 w.shape.2) k l
            * w.entry l := by
  obtain ⟨A, hA⟩ : ∃ A, A = v.toMatrix := ⟨_, rfl⟩
  obtain ⟨B, hB⟩ : ∃ B, B = w.toMatrix := ⟨_, rfl⟩
  have shapeA : v.shape = A.toComplex.shape := by
    rw [shape, ← hA, Numeric.shape_toComplex]
  have shapeB : w.shape = B.toComplex.shape := by
    rw [shape, ← hB, Numeric.shape_toComplex]
  rw [shapeA, shapeB] at hk
  rw [shapeB, entry, toMatrix, ← hA, ← hB]
  have rows_pos : 0 < A.toComplex.rows * B.toComplex.rows :=
    Nat.pos_of_ne_zero fun h => by simp [Dense.shape, h] at hk
  have hrow := Nat.mod_lt k rows_pos
  have hcol : k / (A.toComplex.rows * B.toComplex.rows) < A.toComplex.cols * B.toComplex.cols :=
    Nat.div_lt_of_lt_mul hk
  have shape_eq := Numeric.shape_kron A B
  rw [← Numeric.shape_toComplex, ← Numeric.shape_toComplex, ← Numeric.shape_toComplex] at shape_eq
  obtain ⟨rows_eq, cols_eq⟩ := Prod.mk.inj shape_eq
  have whole : (A.map₂ Dense.kron B).toComplex.vec.get k 0
      = (A.toComplex.kron B.toComplex).vec.get k 0 := by
    rw [Dense.get_vec _ (by rw [rows_eq, cols_eq]; exact hk), Dense.get_vec _ hk, rows_eq]
    exact Numeric.get_kron A B hrow hcol
  rw [whole, ← sum_kroneckerOperator A.toComplex B.toComplex hk]
  refine sum_congr rfl fun l hl => ?_
  rw [entry, ← hB]
  congr 1
  cases A with
  | real A =>
      refine (get_kroneckerOperator_map Cplx.ofReal_zero A hk (mem_range.mp hl)).trans ?_
      exact (Coeffs.entry_real _ k l).symm
  | complex A => rfl

end Value

/-! ## Evaluation -/

section Evaluation

variable [Entry α]

/-- The value of a product is the product of the values. -/
theorem Expr.evaluate_kron_ok {vars : Vars α} {id : Id} {a b : Expr α} {v : Value α} :
    (Expr.kron id a b).evaluate vars = .ok v ↔ ∃ va vb, a.evaluate vars = .ok va ∧
      b.evaluate vars = .ok vb ∧ v = .matrix (va.toMatrix.map₂ Dense.kron vb.toMatrix) := by
  constructor
  · intro h
    obtain ⟨va, ha, rest⟩ := Outcome.except_bind_ok.mp h
    obtain ⟨vb, hb, done⟩ := Outcome.except_bind_ok.mp rest
    cases done
    exact ⟨va, vb, ha, hb, rfl⟩
  · rintro ⟨va, vb, ha, hb, rfl⟩
    simp only [evaluate, ha, hb]
    rfl

theorem Expr.evaluate_var_ok {vars : Vars α} {x : Variable} {v : Value α} :
    (Expr.var x).evaluate vars = .ok v ↔ (vars.state x).value = some v := by
  rw [evaluate]
  cases (vars.state x).value with
  | none => exact ⟨fun h => (by cases h), fun h => (by cases h)⟩
  | some w =>
      exact ⟨fun h => congrArg some (Except.ok.inj h),
        fun h => congrArg _ (Option.some.inj h)⟩

namespace Coherent

variable {vars : Vars α} {N : Set (Node α)} {next : Id}

/-- A value has the shape of its expression. -/
theorem shape_of_evaluate (h : Coherent vars N next) {e : Expr α} (he : .expr e ∈ N)
    {v : Value α} (hv : e.evaluate vars = .ok v) : v.shape = e.shape := by
  induction e generalizing v with
  | var x => exact (h.respects x he).shape v (Expr.evaluate_var_ok.mp hv)
  | const c =>
      cases hv
      rfl
  | kron id a b iha ihb =>
      obtain ⟨ha, hb⟩ := h.roster.kron he
      obtain ⟨va, vb, hva, hvb, rfl⟩ := Expr.evaluate_kron_ok.mp hv
      have shape_a : va.toMatrix.on Dense.shape = a.shape := iha ha hva
      have shape_b : vb.toMatrix.on Dense.shape = b.shape := ihb hb hvb
      rw [Value.shape, Value.toMatrix, Numeric.shape_kron, shape_a, shape_b]
      rfl
  | stub s => cases hv

/-- A constant has a value: every variable in it is held, and at a value. -/
theorem exists_value (h : Coherent vars N next) {e : Expr α} (he : .expr e ∈ N)
    (constant : e.curvature vars = .constant) : ∃ v, e.evaluate vars = .ok v := by
  induction e with
  | var x =>
      have fixed : (vars.state x).fixed = true := curvature_var_eq_constant_iff.mp constant
      obtain ⟨v, hv⟩ := Option.isSome_iff_exists.mp ((h.respects x he).held fixed)
      exact ⟨v, Expr.evaluate_var_ok.mpr hv⟩
  | const c => exact ⟨_, rfl⟩
  | kron id a b iha ihb =>
      obtain ⟨ha, hb⟩ := h.roster.kron he
      obtain ⟨left, right⟩ := curvature_kron_eq_constant_iff.mp constant
      obtain ⟨v, hv⟩ := iha ha left
      obtain ⟨w, hw⟩ := ihb hb right
      exact ⟨_, Expr.evaluate_kron_ok.mpr ⟨v, w, hv, hw, rfl⟩⟩
  | stub s => exact (h.roster.no_stub s he).elim

/-- The value of a constant is that of the variables held in it. -/
theorem evaluate_constant (h : Coherent vars N next) {e : Expr α} (he : .expr e ∈ N)
    (constant : e.curvature vars = .constant) {vars' : Vars α}
    (held : ∀ x, .expr (.var x) ∈ N → (vars.state x).fixed = true →
      (vars'.state x).value = (vars.state x).value) : e.evaluate vars' = e.evaluate vars := by
  induction e with
  | var x =>
      have fixed : (vars.state x).fixed = true := curvature_var_eq_constant_iff.mp constant
      rw [Expr.evaluate, Expr.evaluate, held x he fixed]
  | const c => rfl
  | kron id a b iha ihb =>
      obtain ⟨ha, hb⟩ := h.roster.kron he
      obtain ⟨left, right⟩ := curvature_kron_eq_constant_iff.mp constant
      rw [Expr.evaluate, Expr.evaluate, iha ha left, ihb hb right]
  | stub s => exact (h.roster.no_stub s he).elim

end Coherent

end Evaluation

/-! ## Scalar constants that are spread -/

section Spread

variable [Scalar α]

/-- What a side of a constraint stands for: the operand itself, or the matrix that has the
one entry of a scalar constant everywhere. -/
def Expr.StandsFor (side operand : Expr α) : Prop :=
  side = operand ∨ ∃ c, operand = .const c ∧ c.shape = (1, 1) ∧
    ∀ vars, ∃ v, side.evaluate vars = .ok v ∧ v.shape = side.shape ∧
      ∀ k < side.length, v.entry k = (Value.matrix c.value).entry 0

/-- Every entry is the one of the scalar, whatever the elements are. -/
theorem entry_spread (A : Numeric Dense α) (scalar : A.on Dense.shape = (1, 1)) {r c k : Nat}
    (hk : k < r * c) :
    (Value.matrix (A.map fun A => .replicate r c A.head)).entry k
      = (Value.matrix A).entry 0 := by
  have rows : 0 < r := Nat.pos_of_ne_zero fun h => by simp [h] at hk
  have row : k % r < r := Nat.mod_lt k rows
  have col : k / r < c := Nat.div_lt_of_lt_mul hk
  have one (B : Dense (Cplx α)) (h : B.shape = (1, 1)) : B.vec.get 0 0 = B.get 0 0 := by
    obtain ⟨hr, hc⟩ := Prod.mk.inj h
    rw [Dense.get_vec B (by rw [hr, hc]; exact Nat.one_pos), hr]
  cases A with
  | complex A =>
      show (Dense.replicate r c A.head).vec.get k 0 = A.vec.get 0 0
      rw [one A scalar]
      exact (Dense.get_vec _ hk).trans (Dense.get_ofFn _ row col)
  | real A =>
      show (Cplx.ofReal <$> Dense.replicate r c A.head : Dense (Cplx α)).vec.get k 0
        = (Cplx.ofReal <$> A : Dense (Cplx α)).vec.get 0 0
      rw [one (Cplx.ofReal <$> A : Dense (Cplx α)) scalar]
      refine (Dense.get_vec _ hk).trans ?_
      refine (Dense.get_map rfl _ _ _).trans ?_
      refine Eq.trans ?_ (Dense.get_map rfl A 0 0).symm
      exact congrArg Cplx.ofReal (Dense.get_ofFn _ row col)

theorem broadcast_standsFor {x y x' y' : Expr α} {l l' : Ledger}
    (h : broadcast x y l = .ok (x', y') l') : x'.StandsFor x ∧ y'.StandsFor y := by
  have spread {c c' : Constant α} {shape : Nat × Nat} {l l' : Ledger} (scalar : c.shape = (1, 1))
      (h : c.spread shape l = .ok c' l') : (Expr.const c').StandsFor (.const c) := by
    obtain ⟨-, rfl⟩ := spread_ok h
    refine .inr ⟨c, rfl, scalar, fun vars => ⟨_, rfl, rfl, fun k hk => ?_⟩⟩
    rw [Expr.length, Expr.shape, shape_spread] at hk
    exact entry_spread c.value scalar hk
  obtain ⟨-, ⟨rfl, rfl, -⟩ | ⟨rfl, c, c', rfl, scalar, hc, rfl⟩ |
    ⟨rfl, c, c', rfl, scalar, hc, rfl⟩⟩ := broadcast_ok h
  · exact ⟨.inl rfl, .inl rfl⟩
  · exact ⟨.inl rfl, spread scalar hc⟩
  · exact ⟨spread scalar hc, .inl rfl⟩

/-- The sides of a constraint stand for the operands that were given. -/
theorem makeConstraint_standsFor {vars : Vars α} {relation : Relation} {dl dr : Input α}
    {l l' : Ledger} {c : Constraint α} (h : makeConstraint vars relation dl dr l = .ok c l') :
    ∃ x y l₁ l₂ l₃, asExpr vars dl l₁ = .ok x l₂ ∧ asExpr vars dr l₂ = .ok y l₃ ∧
      c.lhs.StandsFor x ∧ c.rhs.StandsFor y := by
  obtain ⟨-, -, x, y, l₁, l₂, hx, hy, hxy, -⟩ := makeConstraint_steps h
  exact ⟨x, y, _, l₁, l₂, hx, hy, broadcast_standsFor hxy⟩

end Spread

end ConicModel
