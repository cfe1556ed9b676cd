/-
# What construction gives

A new node has the identity that was next, and an operand given as an expression is
passed through as it is; data become constants with identities of their own.  The
lemmas say this of everything that makes a node, from the result backward:

  * `asExpr_ok`: an operand is the given expression or a constant made on the spot;
  * `makeKron_steps`, `makeConstraint_steps`: what was made on the way, in order;
  * `makeKron_ok`, `makeConstraint_ok`: the identities taken on the way are all
    different and lie between what was next before and after;
  * `signConstraint_ok`: the constraint of a sign has the expression itself on the left
    and a zero of its shape on the right;
  * `signConstraint_total`: it can always be made.

`Side lo hi d e` is the account kept of an operand `d` that became `e`.
-/
import ConicModel.Proofs.Outcome
import Mathlib.Algebra.Order.Group.Int
import ConicModel.Construction

namespace ConicModel

variable {α : Type} [Scalar α]

/-- What became of an operand: it was an expression, or it is a constant with an
identity from `lo` on and below `hi`. -/
inductive Side (lo hi : Id) (d : Input α) (e : Expr α) : Prop where
  | given (s : Nat) (h : d = .thing s (.expr e))
  | new (k : Constant α) (h : e = .const k) (lo_le : lo ≤ k.id) (lt_hi : k.id < hi)

/-! ## Constants and operands -/

omit [Scalar α] in
theorem freshId_ok {l l' : Ledger} {i : Id} (h : (Make.freshId : Make α Id) l = .ok i l') :
    i = l.nextId ∧ l' = { l with nextId := l.nextId + 1 } := by
  cases h
  exact ⟨rfl, rfl⟩

omit [Scalar α] in
theorem ofOption_ok {β : Type} {why : Fault α} {o : Option β} {l l' : Ledger} {x : β}
    (h : Make.ofOption why o l = .ok x l') : o = some x ∧ l' = l := by
  cases o with
  | none => cases h
  | some y =>
      cases h
      exact ⟨rfl, rfl⟩

omit [Scalar α] in
theorem ofExcept_ok {ε β : Type} {why : ε → Fault α} {r : Except ε β} {l l' : Ledger} {x : β}
    (h : Make.ofExcept why r l = .ok x l') : r = .ok x ∧ l' = l := by
  cases r with
  | error e => cases h
  | ok y =>
      cases h
      exact ⟨rfl, rfl⟩

omit [Scalar α] in
theorem ofExcept_error {ε β : Type} {why : ε → Fault α} {r : Except ε β} {l l' : Ledger}
    {f : Fault α} (h : Make.ofExcept why r l = .error f l') :
    ∃ e, r = .error e ∧ f = why e ∧ l' = l := by
  cases r with
  | error e =>
      cases h
      exact ⟨e, rfl, rfl, rfl⟩
  | ok x => cases h

/-- A constant holds the numbers of its datum. -/
theorem makeConstant_ok {vars : Vars α} {d : Input α} {sign : Option Sign} {l l' : Ledger}
    {c : Constant α} (h : makeConstant vars d sign l = .ok c l') :
    l' = { l with nextId := l.nextId + 1 } ∧
      ∃ a A, d.toArray = some (.numbers a) ∧ a.map? NdArray.toColumns? = some A ∧
        c = ⟨l.nextId, A, sign.getD (Sign.ofMatrix A)⟩ := by
  obtain ⟨id, l₁, hid, rest⟩ := Outcome.bind_ok.mp h
  obtain ⟨rfl, rfl⟩ := freshId_ok hid
  split at rest
  · obtain ⟨_, _, _, thrown⟩ := Outcome.bind_ok.mp rest
    exact (Outcome.throw_ok.mp thrown).elim
  · obtain ⟨view, _, hview, laid⟩ := Outcome.bind_ok.mp rest
    obtain ⟨read, rfl⟩ := ofOption_ok hview
    split at laid
    · obtain ⟨A, _, hA, made⟩ := Outcome.bind_ok.mp laid
      obtain ⟨columns, rfl⟩ := ofOption_ok hA
      obtain ⟨rfl, rfl⟩ := Outcome.pure_ok.mp made
      exact ⟨rfl, _, A, read, columns, rfl⟩
    · obtain ⟨_, _, _, thrown⟩ := Outcome.bind_ok.mp laid
      exact (Outcome.throw_ok.mp thrown).elim

/-- An operand is the given expression or a new constant. -/
theorem asExpr_ok {vars : Vars α} {d : Input α} {l l' : Ledger} {e : Expr α}
    (h : asExpr vars d l = .ok e l') :
    ((∃ s, d = .thing s (.expr e)) ∧ l' = l) ∨
      ∃ c, e = .const c ∧ makeConstant vars d none l = .ok c l' := by
  unfold asExpr at h
  split at h
  · obtain ⟨rfl, rfl⟩ := Outcome.pure_ok.mp h
    exact .inl ⟨⟨_, rfl⟩, rfl⟩
  all_goals first
    | exact (Outcome.throw_ok.mp h).elim
    | obtain ⟨c, hc, rfl⟩ := Outcome.map_ok.mp h
      exact .inr ⟨c, rfl, hc⟩

theorem asExpr_side {vars : Vars α} {d : Input α} {l l' : Ledger} {e : Expr α}
    (h : asExpr vars d l = .ok e l') :
    Side l.nextId l'.nextId d e ∧ l.nextId ≤ l'.nextId := by
  rcases asExpr_ok h with ⟨⟨s, hs⟩, rfl⟩ | ⟨c, rfl, hc⟩
  · exact ⟨.given s hs, Int.le_refl _⟩
  · obtain ⟨rfl, a, A, -, -, rfl⟩ := makeConstant_ok hc
    exact ⟨.new _ rfl (Int.le_refl _) (Int.lt_succ _), Int.le_of_lt (Int.lt_succ _)⟩

/-! ## Products -/

/-- The operands of a product become expressions before it takes its identity. -/
theorem makeKron_steps {vars : Vars α} {a b : Input α} {l l' : Ledger} {e : Expr α}
    (h : makeKron vars a b l = .ok e l') :
    ∃ x y l₁ l₂, asExpr vars a l = .ok x l₁ ∧ asExpr vars b l₁ = .ok y l₂ ∧
      e = .kron l₂.nextId x y ∧ l₂.nextId < l'.nextId := by
  obtain ⟨x, l₁, hx, rest₁⟩ := Outcome.bind_ok.mp h
  obtain ⟨y, l₂, hy, rest₂⟩ := Outcome.bind_ok.mp rest₁
  obtain ⟨id, l₃, hid, rest₃⟩ := Outcome.bind_ok.mp rest₂
  obtain ⟨v, l₄, hv, checked⟩ := Outcome.bind_ok.mp rest₃
  obtain ⟨rfl, rfl⟩ := freshId_ok hid
  cases hv
  split at checked
  · obtain ⟨rfl, rfl⟩ := Outcome.pure_ok.mp checked
    exact ⟨x, y, l₁, l₂, hx, hy, rfl, Int.lt_succ _⟩
  · exact (Outcome.throw_ok.mp checked).elim

/-- A product takes its identity after its operands have theirs. -/
theorem makeKron_ok {vars : Vars α} {a b : Input α} {l l' : Ledger} {e : Expr α}
    (h : makeKron vars a b l = .ok e l') :
    ∃ (mid id : Id) (x y : Expr α), e = .kron id x y ∧ Side l.nextId mid a x ∧
      Side mid id b y ∧ l.nextId ≤ mid ∧ mid ≤ id ∧ id < l'.nextId := by
  obtain ⟨x, y, l₁, l₂, hx, hy, he, lt⟩ := makeKron_steps h
  obtain ⟨sx, lx⟩ := asExpr_side hx
  obtain ⟨sy, ly⟩ := asExpr_side hy
  exact ⟨l₁.nextId, l₂.nextId, x, y, he, sx, sy, lx, ly, lt⟩

omit [Scalar α] in
theorem VarState.curvature_eq_affine_iff {s : VarState α} :
    s.curvature = .affine ↔ s.fixed = false := by
  unfold curvature
  cases s.fixed <;> simp

omit [Scalar α] in
/-- A variable is constant exactly while it is held. -/
theorem curvature_var_eq_constant_iff {vars : Vars α} {x : Variable} :
    (Expr.var x).curvature vars = .constant ↔ (vars.state x).fixed = true := by
  show (vars.state x).curvature = .constant ↔ _
  unfold VarState.curvature
  cases (vars.state x).fixed <;> simp

omit [Scalar α] in
/-- Under a constant left operand the curvature of a product is that of its right operand,
scaled. -/
theorem curvature_kron (vars : Vars α) (id : Id) (a b : Expr α) :
    (Expr.kron id a b).curvature vars = if a.curvature vars = .constant
      then ((b.curvature vars).scale (a.sign vars)).curvature else .notDcp := by
  unfold Expr.curvature
  rw [Expr.verdict, Verdict.curvature_andThen]
  by_cases left : (a.verdict vars).curvature = .constant
  · rw [if_pos left, if_pos left, Verdict.curvature_andThen]
    by_cases right : (b.verdict vars).curvature = .constant
    · -- What is constant needs no scaling.
      rw [if_pos right, right]
      rfl
    · rw [if_neg right]
  · rw [if_neg left, if_neg left, Verdict.curvature_notDcp]

omit [Scalar α] in
/-- A product is constant exactly if its operands are. -/
theorem curvature_kron_eq_constant_iff {vars : Vars α} {id : Id} {a b : Expr α} :
    (Expr.kron id a b).curvature vars = .constant ↔
      a.curvature vars = .constant ∧ b.curvature vars = .constant := by
  rw [curvature_kron]
  by_cases left : a.curvature vars = .constant
  · rw [if_pos left, and_iff_right left]
    -- Scaling makes nothing constant.
    cases b.curvature vars <;> cases a.sign vars <;> decide
  · rw [if_neg left]
    exact ⟨fun h => (by cases h), fun h => (left h.1).elim⟩

omit [Scalar α] in
/-- A constant times what is affine is affine. -/
theorem curvature_kron_affine {vars : Vars α} {id : Id} {a b : Expr α}
    (left : a.curvature vars = .constant) (right : b.curvature vars = .affine) :
    (Expr.kron id a b).curvature vars = .affine := by
  rw [curvature_kron, if_pos left, right]
  rfl

/-! ## Constraints -/

/-- A spread constant has its one entry everywhere. -/
theorem spread_ok {c c' : Constant α} {shape : Nat × Nat} {l l' : Ledger}
    (h : c.spread shape l = .ok c' l') :
    l' = { l with nextId := l.nextId + 1 } ∧
      c' = ⟨l.nextId, c.value.map fun A => .replicate shape.1 shape.2 A.head, c.sign⟩ := by
  obtain ⟨id, l₁, hid, made⟩ := Outcome.bind_ok.mp h
  obtain ⟨rfl, rfl⟩ := freshId_ok hid
  obtain ⟨rfl, rfl⟩ := Outcome.pure_ok.mp made
  exact ⟨rfl, rfl⟩

omit [Scalar α] in
theorem shape_spread [Entry α] (k : Constant α) (i : Id) (s : Sign) (r c : Nat) :
    Constant.shape (α := α) ⟨i, k.value.map fun A => .replicate r c A.head, s⟩ = (r, c) := by
  cases k with
  | mk id value sign => cases value <;> rfl

/-- Of two operands at most one is spread, a scalar constant, and then over the shape of the
other. -/
theorem broadcast_ok {x y x' y' : Expr α} {l l' : Ledger}
    (h : broadcast x y l = .ok (x', y') l') :
    x'.shape = y'.shape ∧
      ((x' = x ∧ y' = y ∧ l' = l) ∨
        (x' = x ∧ ∃ c c', y = .const c ∧ c.shape = (1, 1) ∧ c.spread x.shape l = .ok c' l' ∧
          y' = .const c') ∨
        (y' = y ∧ ∃ c c', x = .const c ∧ c.shape = (1, 1) ∧ c.spread y.shape l = .ok c' l' ∧
          x' = .const c')) := by
  have refused {β : Type} {f : Fault α} {b : β} {l l' : Ledger} {P : Prop}
      (h : (throw f : Make α β) l = .ok b l') : P := (Outcome.throw_ok.mp h).elim
  have right {x : Expr α} {c : Constant α}
      (h : (do pure (x, .const (← c.spread x.shape)) : Make α (Expr α × Expr α)) l
        = .ok (x', y') l') :
      x'.shape = y'.shape ∧ x' = x ∧ ∃ c', c.spread x.shape l = .ok c' l' ∧ y' = .const c' := by
    obtain ⟨c', l₁, hc, h⟩ := Outcome.bind_ok.mp h
    obtain ⟨hxy, rfl⟩ := Outcome.pure_ok.mp h
    cases hxy
    refine ⟨?_, rfl, c', hc, rfl⟩
    obtain ⟨-, rfl⟩ := spread_ok hc
    exact (shape_spread c _ _ _ _).symm
  have left {y : Expr α} {b : Constant α}
      (h : (do pure (.const (← b.spread y.shape), y) : Make α (Expr α × Expr α)) l
        = .ok (x', y') l') :
      x'.shape = y'.shape ∧ y' = y ∧ ∃ c', b.spread y.shape l = .ok c' l' ∧ x' = .const c' := by
    obtain ⟨c', l₁, hc, h⟩ := Outcome.bind_ok.mp h
    obtain ⟨hxy, rfl⟩ := Outcome.pure_ok.mp h
    cases hxy
    refine ⟨?_, rfl, c', hc, rfl⟩
    obtain ⟨-, rfl⟩ := spread_ok hc
    exact shape_spread b _ _ _ _
  unfold broadcast at h
  split at h
  · rename_i same
    obtain ⟨hxy, rfl⟩ := Outcome.pure_ok.mp h
    cases hxy
    exact ⟨same, .inl ⟨rfl, rfl, rfl⟩⟩
  · split at h
    · split at h
      · rename_i scalar
        obtain ⟨hs, hx, c', hc, hy⟩ := right h
        exact ⟨hs, .inr (.inl ⟨hx, _, c', rfl, scalar, hc, hy⟩)⟩
      · split at h
        · split at h
          · rename_i scalar
            obtain ⟨hs, hy, c', hc, hx⟩ := left (y := .const _) h
            exact ⟨hs, .inr (.inr ⟨hy, _, c', rfl, scalar, hc, hx⟩)⟩
          · exact refused h
        · exact refused h
    · split at h
      · rename_i scalar
        obtain ⟨hs, hy, c', hc, hx⟩ := left h
        exact ⟨hs, .inr (.inr ⟨hy, _, c', rfl, scalar, hc, hx⟩)⟩
      · exact refused h
    · exact refused h

omit [Scalar α] in
/-- The checks change nothing. -/
theorem checkSides_ok {vars : Vars α} {c c' : Constraint α} {l l' : Ledger}
    (h : checkSides vars c l = .ok c' l') : c' = c ∧ l' = l := by
  have passed {l l' : Ledger} (h : (pure c : Make α (Constraint α)) l = .ok c' l') :
      c' = c ∧ l' = l := by
    obtain ⟨rfl, rfl⟩ := Outcome.pure_ok.mp h
    exact ⟨rfl, rfl⟩
  unfold checkSides at h
  cases hrel : c.relation with
  | atLeast | atMost =>
      simp only [hrel] at h
      split at h
      · exact (Outcome.throw_ok.mp h).elim
      · exact passed h
  | equal =>
      simp only [hrel] at h
      exact passed h
  | semidefinite =>
      simp only [hrel] at h
      split at h
      · exact passed h
      · exact (Outcome.throw_ok.mp h).elim

omit [Scalar α] in
theorem Side.mono {lo hi lo' hi' : Id} {d : Input α} {e : Expr α} (h : Side lo hi d e)
    (hlo : lo' ≤ lo) (hhi : hi ≤ hi') : Side lo' hi' d e := by
  cases h with
  | given s h => exact .given s h
  | new k h lo_le lt_hi => exact .new k h (hlo.trans lo_le) (lt_of_lt_of_le lt_hi hhi)

/-- A constraint takes its identity, its operands become expressions, and these are brought to
one shape and checked. -/
theorem makeConstraint_steps {vars : Vars α} {relation : Relation} {dl dr : Input α}
    {l l' : Ledger} {c : Constraint α} (h : makeConstraint vars relation dl dr l = .ok c l') :
    c.id = l.nextId ∧ c.relation = relation ∧ ∃ x y l₁ l₂,
      asExpr vars dl { l with nextId := l.nextId + 1 } = .ok x l₁ ∧
      asExpr vars dr l₁ = .ok y l₂ ∧ broadcast x y l₂ = .ok (c.lhs, c.rhs) l' ∧
      checkSides vars c l' = .ok c l' := by
  obtain ⟨id, l₁, hid, rest₁⟩ := Outcome.bind_ok.mp h
  obtain ⟨x, l₂, hx, rest₂⟩ := Outcome.bind_ok.mp rest₁
  obtain ⟨y, l₃, hy, rest₃⟩ := Outcome.bind_ok.mp rest₂
  obtain ⟨⟨x', y'⟩, l₄, hxy, checked⟩ := Outcome.bind_ok.mp rest₃
  obtain ⟨rfl, rfl⟩ := freshId_ok hid
  obtain ⟨rfl, rfl⟩ := checkSides_ok checked
  exact ⟨rfl, rfl, x, y, l₂, l₃, hx, hy, hxy, checked⟩

/-- A constraint takes its identity before its sides have theirs, and one side has got
its own before the other. -/
theorem makeConstraint_ok {vars : Vars α} {relation : Relation} {dl dr : Input α}
    {l l' : Ledger} {c : Constraint α} (h : makeConstraint vars relation dl dr l = .ok c l') :
    c.id = l.nextId ∧ c.relation = relation ∧ c.lhs.shape = c.rhs.shape ∧
      ∃ mid, l.nextId < mid ∧ mid ≤ l'.nextId ∧
        ((Side (l.nextId + 1) mid dl c.lhs ∧ Side mid l'.nextId dr c.rhs) ∨
          (Side mid l'.nextId dl c.lhs ∧ Side (l.nextId + 1) mid dr c.rhs)) := by
  obtain ⟨hid, relation, x, y, l₁, l₂, hx, hy, hxy, -⟩ := makeConstraint_steps h
  obtain ⟨sx, lx⟩ := asExpr_side hx
  obtain ⟨sy, ly⟩ := asExpr_side hy
  obtain ⟨shapes, ⟨rfl, rfl, rfl⟩ | ⟨rfl, k, k', rfl, -, hk, rhs⟩ |
    ⟨rfl, k, k', rfl, -, hk, lhs⟩⟩ := broadcast_ok hxy
  · exact ⟨hid, relation, shapes, l₁.nextId, lx, ly, .inl ⟨sx, sy⟩⟩
  · obtain ⟨rfl, rfl⟩ := spread_ok hk
    exact ⟨hid, relation, shapes, l₂.nextId, lx.trans ly, Int.le_of_lt (Int.lt_succ _),
      .inl ⟨sx.mono (Int.le_refl _) ly, .new _ rhs (Int.le_refl _) (Int.lt_succ _)⟩⟩
  · obtain ⟨rfl, rfl⟩ := spread_ok hk
    exact ⟨hid, relation, shapes, l₂.nextId, lx.trans ly, Int.le_of_lt (Int.lt_succ _),
      .inr ⟨.new _ lhs (Int.le_refl _) (Int.lt_succ _), sy.mono lx (Int.le_refl _)⟩⟩

/-! ## The constraint of a sign -/

/-- A constraint says that a variable has the sign it was given: the variable is on the
left and a zero of its shape on the right. -/
structure Constraint.IsSignOf (vars : Vars α) (x : Variable) (c : Constraint α) : Prop where
  lhs : c.lhs = .var x
  rhs : ∃ k : Constant α, c.rhs = .const k ∧
    k.value = .real (.replicate x.rows x.cols (Scalar.ofInt 0))
  relation : ((vars.state x).sign = .positive ∧ c.relation = .atLeast) ∨
    ((vars.state x).sign = .negative ∧ c.relation = .atMost)

theorem Constraint.IsSignOf.shapes {vars : Vars α} {x : Variable} {c : Constraint α}
    (h : c.IsSignOf vars x) : c.lhs.shape = c.rhs.shape := by
  obtain ⟨k, hk, value⟩ := h.rhs
  rw [h.lhs, hk, Expr.shape, Expr.shape, Constant.shape, value]
  rfl

theorem replicate_of_single (x : α) :
    (.ofRowMajor 1 1 #[x] : Dense α) = .replicate 1 1 x := by
  rw [Dense.ofRowMajor, Dense.replicate, Dense.ofFn, Dense.ofFn]
  congr 1

/-- The number zero becomes a one-by-one constant. -/
theorem makeConstant_zero {vars : Vars α} {l l' : Ledger} {c : Constant α}
    (h : makeConstant vars (.ofInt 0) none l = .ok c l') :
    c.value = .real (.replicate 1 1 (Scalar.ofInt 0)) := by
  obtain ⟨-, a, A, ha, hA, rfl⟩ := makeConstant_ok h
  have number : (Datum.ofInt 0 : Input α).toArray
      = some (.numbers (.real ⟨[], #[Scalar.ofInt 0]⟩)) := rfl
  rw [number] at ha
  cases ha
  cases hA
  exact congrArg Numeric.real (replicate_of_single _)

theorem makeConstraint_zero {vars : Vars α} {relation : Relation} {x : Variable}
    {l l' : Ledger} {c : Constraint α}
    (h : makeConstraint vars relation (.thing 0 (.expr (.var x))) (.ofInt 0) l = .ok c l') :
    c.lhs = .var x ∧ ∃ k : Constant α, c.rhs = .const k ∧
      k.value = .real (.replicate x.rows x.cols (Scalar.ofInt 0)) := by
  obtain ⟨-, -, e, z, l₁, l₂, he, hz, hez, -⟩ := makeConstraint_steps h
  obtain ⟨rfl, rfl⟩ := Outcome.pure_ok.mp he
  obtain ⟨k, hk, rfl⟩ := Outcome.map_ok.mp hz
  have value := makeConstant_zero hk
  have shape : k.shape = (1, 1) := by
    rw [Constant.shape, value]
    rfl
  obtain ⟨shapes, ⟨lhs, rhs, rfl⟩ | ⟨lhs, k₁, k', hk₁, -, hs, rhs⟩ | ⟨-, k₁, k', hx, -⟩⟩ :=
    broadcast_ok hez
  · refine ⟨lhs, k, rhs, ?_⟩
    rw [lhs, rhs] at shapes
    obtain ⟨hr, hc⟩ := Prod.mk.inj (shapes.trans shape)
    rw [value, hr, hc]
  · cases hk₁
    obtain ⟨-, rfl⟩ := spread_ok hs
    refine ⟨lhs, _, rhs, ?_⟩
    rw [value]
    rfl
  · cases hx

/-- The constraint of a sign is made like any other one. -/
theorem signConstraint_made {vars : Vars α} {x : Expr α} {l l' : Ledger} {c : Constraint α}
    (h : signConstraint vars x l = .ok c l') :
    ∃ relation, ((x.sign vars = .positive ∧ relation = .atLeast) ∨
        (x.sign vars = .negative ∧ relation = .atMost)) ∧
      makeConstraint vars relation (.thing 0 (.expr x)) (.ofInt 0) l = .ok c l' := by
  unfold signConstraint constraintOfSign at h
  cases hs : x.sign vars with
  | positive =>
      rw [hs] at h
      exact ⟨.atLeast, .inl ⟨rfl, rfl⟩, h⟩
  | negative =>
      rw [hs] at h
      exact ⟨.atMost, .inr ⟨rfl, rfl⟩, h⟩
  | noSign | complex =>
      rw [hs] at h
      exact (Outcome.throw_ok.mp h).elim

/-- The constraint of a sign is about the variable itself, and it and its zero have new
identities. -/
theorem signConstraint_ok {vars : Vars α} {x : Variable} {l l' : Ledger} {c : Constraint α}
    (h : signConstraint vars (.var x) l = .ok c l') :
    c.IsSignOf vars x ∧ c.id = l.nextId ∧
      ∃ k : Constant α, c.rhs = .const k ∧ l.nextId < k.id ∧ k.id < l'.nextId := by
  obtain ⟨relation, hsign, hc⟩ := signConstraint_made h
  obtain ⟨lhs, rhs⟩ := makeConstraint_zero hc
  obtain ⟨hid, rfl, -, mid, hlo, hhi, sides⟩ := makeConstraint_ok hc
  refine ⟨⟨lhs, rhs, hsign⟩, hid, ?_⟩
  rcases sides with ⟨-, side⟩ | ⟨-, side⟩
  · cases side with
    | given s hs => cases hs
    | new k hk lo_le lt_hi => exact ⟨k, hk, hlo.trans_le lo_le, lt_hi⟩
  · cases side with
    | given s hs => cases hs
    | new k hk lo_le lt_hi => exact ⟨k, hk, lo_le, lt_hi.trans_le hhi⟩

/-! ### It can always be made -/

theorem Sign.ofMatrix_real_ne_complex (A : Dense α) : Sign.ofMatrix (.real A) ≠ .complex := by
  show Sign.ofReals A.data ≠ .complex
  unfold ofReals
  split
  · exact fun h => by cases h
  · split <;> exact fun h => by cases h

/-- The number zero can always be made a constant, and it is real. -/
theorem makeConstant_zero_total (vars : Vars α) (l : Ledger) : ∃ k : Constant α,
    makeConstant vars (.ofInt 0) none l = .ok k { l with nextId := l.nextId + 1 } ∧
      k.shape = (1, 1) ∧ k.sign ≠ .complex :=
  ⟨_, rfl, rfl, Sign.ofMatrix_real_ne_complex _⟩

/-- Beside a variable, a scalar constant is spread unless the variable is scalar as well. -/
theorem broadcast_scalar_total (x : Variable) {k : Constant α} (scalar : k.shape = (1, 1))
    (l : Ledger) : ∃ (k' : Constant α) (l' : Ledger),
      broadcast (.var x) (.const k) l = .ok (.var x, .const k') l' ∧ k'.sign = k.sign := by
  unfold broadcast
  split
  · exact ⟨k, l, rfl, rfl⟩
  · refine ⟨⟨l.nextId, k.value.map fun A => .replicate x.rows x.cols A.head, k.sign⟩,
      { l with nextId := l.nextId + 1 }, ?_, rfl⟩
    simp only [scalar, if_true]
    rfl

omit [Scalar α] in
/-- Real sides of an inequality pass the checks. -/
theorem checkSides_real {vars : Vars α} {c : Constraint α}
    (inequality : c.relation = .atLeast ∨ c.relation = .atMost)
    (left : c.lhs.sign vars ≠ .complex) (right : c.rhs.sign vars ≠ .complex) :
    checkSides vars c = pure c := by
  have real : c.isComplex vars = false := by simp [Constraint.isComplex, left, right]
  unfold checkSides
  rcases inequality with h | h <;> simp [h, real]

/-- A real variable can always be constrained against zero. -/
theorem makeConstraint_zero_total {vars : Vars α} {relation : Relation} {x : Variable}
    (inequality : relation = .atLeast ∨ relation = .atMost)
    (real : (vars.state x).sign ≠ .complex) (l : Ledger) :
    ∃ c l', makeConstraint vars relation (.thing 0 (.expr (.var x))) (.ofInt 0) l
      = .ok c l' := by
  obtain ⟨k, hk, scalar, sign⟩ :=
    makeConstant_zero_total vars { l with nextId := l.nextId + 1 }
  obtain ⟨k', l', sides, sign'⟩ := broadcast_scalar_total x scalar
    { l with nextId := l.nextId + 1 + 1 }
  have zero : asExpr vars (.ofInt 0) { l with nextId := l.nextId + 1 }
      = .ok (.const k) { l with nextId := l.nextId + 1 + 1 } :=
    Outcome.map_ok.mpr ⟨k, hk, rfl⟩
  let c : Constraint α := ⟨l.nextId, relation, .var x, .const k'⟩
  have checked : checkSides vars c = pure c :=
    checkSides_real inequality real (sign'.trans_ne sign)
  refine ⟨c, l', Outcome.bind_ok.mpr ⟨l.nextId, _, rfl, ?_⟩⟩
  refine Outcome.bind_ok.mpr ⟨.var x, _, rfl, ?_⟩
  refine Outcome.bind_ok.mpr ⟨.const k, _, zero, ?_⟩
  exact Outcome.bind_ok.mpr ⟨_, _, sides, congrFun checked l'⟩

/-- The constraint of a sign can always be made. -/
theorem signConstraint_total {vars : Vars α} {x : Variable}
    (oneSided : (vars.state x).sign = .positive ∨ (vars.state x).sign = .negative)
    (l : Ledger) : ∃ c l', signConstraint vars (.var x) l = .ok c l' := by
  have real : (vars.state x).sign ≠ .complex := by
    rcases oneSided with h | h <;> rw [h] <;> decide
  unfold signConstraint constraintOfSign
  rcases oneSided with sign | sign
  · have sign : (Expr.var x : Expr α).sign vars = .positive := sign
    rw [sign]
    exact makeConstraint_zero_total (.inl rfl) real l
  · have sign : (Expr.var x : Expr α).sign vars = .negative := sign
    rw [sign]
    exact makeConstraint_zero_total (.inr rfl) real l

end ConicModel
