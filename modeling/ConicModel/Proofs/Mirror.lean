/-
# An inequality and its mirror image

`a ≤ b` and `b ≥ a` are made on different ways: each takes an identity, turns its operands into
expressions in its own order, and brings them to one shape.  What comes out has the same sides,
the other way round, but constants that were made on the way have other identities each time
(`Expr.Twin`).  Where one is refused, the other one is, for the same fault seen from the other
side (`Fault.mirrored`).

Two operations that end alike are followed step by step (`Outcome.Mirrors`), whatever the
ledgers are that they start with.
-/
import ConicModel.Proofs.Construction

namespace ConicModel

variable {α : Type}

/-! ## Twins -/

/-- The same expression, or two constants that differ in their identities alone. -/
inductive Expr.Twin : Expr α → Expr α → Prop
  | same (e : Expr α) : Twin e e
  | const {b c : Constant α} : b.value = c.value → b.sign = c.sign → Twin (.const b) (.const c)

namespace Expr.Twin

variable {d e : Expr α}

theorem symm (h : d.Twin e) : e.Twin d := by
  cases h with
  | same => exact .same _
  | const value sign => exact .const value.symm sign.symm

theorem shape (h : d.Twin e) : d.shape = e.shape := by
  cases h with
  | same => rfl
  | const value sign => exact congrArg (Numeric.on Dense.shape) value

theorem sign (h : d.Twin e) (vars : Vars α) : d.sign vars = e.sign vars := by
  cases h with
  | same => rfl
  | const value sign => exact sign

theorem verdict (h : d.Twin e) (vars : Vars α) : d.verdict vars = e.verdict vars := by
  cases h with
  | same => rfl
  | const => rfl

end Expr.Twin

/-- The constant that an expression is if it is one number. -/
def Expr.scalar? : Expr α → Option (Constant α)
  | .const c => if c.shape = (1, 1) then some c else none
  | _ => none

theorem Expr.scalar?_eq_some {e : Expr α} {c : Constant α} (h : e.scalar? = some c) :
    e = .const c ∧ e.shape = (1, 1) := by
  cases e with
  | const b =>
      rw [scalar?] at h
      split at h
      · rename_i scalar
        cases h
        exact ⟨rfl, scalar⟩
      · cases h
  | var x | kron i a b | stub s => cases h

/-- Twins are one number together. -/
theorem Expr.Twin.scalar? {d e : Expr α} (h : d.Twin e) :
    (d.scalar? = none ∧ e.scalar? = none) ∨ ∃ b c, d.scalar? = some b ∧ e.scalar? = some c ∧
      b.value = c.value ∧ b.sign = c.sign := by
  cases h with
  | same =>
      cases hd : d.scalar? with
      | none => exact .inl ⟨rfl, rfl⟩
      | some b => exact .inr ⟨b, b, rfl, rfl, rfl, rfl⟩
  | @const b c value sign =>
      have shape : b.shape = c.shape := congrArg (Numeric.on Dense.shape) value
      by_cases scalar : c.shape = (1, 1)
      · exact .inr ⟨b, c, if_pos (shape.trans scalar), if_pos scalar, value, sign⟩
      · exact .inl ⟨if_neg fun h => scalar (shape.symm.trans h), if_neg scalar⟩

/-! ## Ending alike -/

/-- The same fault with the two sides exchanged. -/
def Fault.mirrored : Fault α → Fault α
  | .sidesDiffer l r => .sidesDiffer r l
  | f => f

namespace Outcome

variable {β γ β' γ' : Type} {R : β → γ → Prop} {S : β' → γ' → Prop}

/-- Two results are both refusals, for one fault seen from both sides, or go together. -/
inductive Mirrors (R : β → γ → Prop) :
    EStateM.Result (Fault α) Ledger β → EStateM.Result (Fault α) Ledger γ → Prop
  | error (f : Fault α) (l m : Ledger) : Mirrors R (.error f l) (.error f.mirrored m)
  | ok {x : β} {y : γ} (l m : Ledger) : R x y → Mirrors R (.ok x l) (.ok y m)

theorem Mirrors.bind {x : Make α β} {y : Make α γ} {f : β → Make α β'} {g : γ → Make α γ'}
    {l m : Ledger} (first : Mirrors R (x l) (y m))
    (rest : ∀ b c l m, R b c → Mirrors S (f b l) (g c m)) :
    Mirrors S ((x >>= f) l) ((y >>= g) m) := by
  simp only [Bind.bind, EStateM.bind]
  revert first
  generalize x l = r
  generalize y m = s
  intro first
  cases first with
  | error f l m => exact .error f l m
  | ok l m h => exact rest _ _ l m h

end Outcome

variable [Scalar α]

/-! ## Operands -/

/-- Constants of one datum are twins. -/
theorem makeConstant_twin {vars : Vars α} {d : Input α} {l l' : Ledger} {b : Constant α}
    (h : makeConstant vars d none l = .ok b l') (m : Ledger) : ∃ c m',
      makeConstant vars d none m = .ok c m' ∧ (Expr.const b).Twin (.const c) := by
  obtain ⟨-, a, A, read, columns, rfl⟩ := makeConstant_ok h
  refine ⟨⟨m.nextId, A, Sign.ofMatrix A⟩, { m with nextId := m.nextId + 1 }, ?_,
    .const rfl rfl⟩
  refine Outcome.bind_ok.mpr ⟨m.nextId, _, rfl, ?_⟩
  split
  · cases read
  · rw [read]
    refine Outcome.bind_ok.mpr ⟨_, _, rfl, ?_⟩
    exact Outcome.bind_ok.mpr ⟨A, _, by rw [columns]; rfl, rfl⟩

/-- Expressions of one operand are twins. -/
theorem asExpr_twin {vars : Vars α} {d : Input α} {l l' : Ledger} {e : Expr α}
    (h : asExpr vars d l = .ok e l') (m : Ledger) :
    ∃ e' m', asExpr vars d m = .ok e' m' ∧ e.Twin e' := by
  have made (h : (Expr.const <$> makeConstant vars d) l = .ok e l') :
      ∃ e' m', (Expr.const <$> makeConstant vars d) m = .ok e' m' ∧ e.Twin e' := by
    obtain ⟨b, hb, rfl⟩ := Outcome.map_ok.mp h
    obtain ⟨c, m', hc, twin⟩ := makeConstant_twin hb m
    exact ⟨.const c, m', Outcome.map_ok.mpr ⟨c, hc, rfl⟩, twin⟩
  cases d with
  | thing s o =>
      cases o with
      | expr e' =>
          obtain ⟨rfl, rfl⟩ := Outcome.pure_ok.mp h
          exact ⟨e', m, rfl, .same e'⟩
      | constraint c | objective o => exact (Outcome.throw_ok.mp h).elim
  | atom s a =>
      cases a with
      | null | text t => exact (Outcome.throw_ok.mp h).elim
      | bool b | int n | real x | complex z => exact made h
  | sparse s t A => exact (Outcome.throw_ok.mp h).elim
  | mapping s ks vs => exact (Outcome.throw_ok.mp h).elim
  | record s o c n => exact (Outcome.throw_ok.mp h).elim
  | element s k a => exact made h
  | list s xs => exact made h
  | tuple s xs => exact made h
  | array s r k shape cells => exact made h

/-! ## Sides -/

/-- One number is spread alike wherever it comes from. -/
theorem spread_mirrors {b c : Constant α} (value : b.value = c.value) (sign : b.sign = c.sign)
    (shape : Nat × Nat) (l m : Ledger) :
    Outcome.Mirrors (fun b c => (Expr.const b).Twin (.const c)) (b.spread shape l)
      (c.spread shape m) := by
  unfold Constant.spread
  rw [value, sign]
  exact .ok _ _ (.const rfl rfl)

/-- Bringing two operands to one shape is a matter of whether one of them is one number. -/
theorem broadcast_eq (x y : Expr α) : broadcast x y =
    if x.shape = y.shape then pure (x, y)
    else match y.scalar?, x.scalar? with
      | some c, _ => do pure (x, .const (← c.spread x.shape))
      | none, some b => do pure (.const (← b.spread y.shape), y)
      | none, none => throw (.sidesDiffer x.shape y.shape) := by
  unfold broadcast
  by_cases same : x.shape = y.shape
  · rw [if_pos same, if_pos same]
  · rw [if_neg same, if_neg same]
    cases y with
    | const c =>
        by_cases right : c.shape = (1, 1)
        · simp only [Expr.scalar?, if_pos right]
        · cases x with
          | const b =>
              by_cases left : b.shape = (1, 1)
              · simp only [Expr.scalar?, if_neg right, if_pos left]
                rfl
              · simp only [Expr.scalar?, if_neg right, if_neg left]
                rfl
          | var x | kron i a b | stub s =>
              simp only [Expr.scalar?, if_neg right]
              rfl
    | var y | kron i a b | stub s =>
        cases x with
        | const b =>
            by_cases left : b.shape = (1, 1)
            · simp only [Expr.scalar?, if_pos left]
            · simp only [Expr.scalar?, if_neg left]
              rfl
        | var x | kron i a b | stub s => rfl

/-- Operands are brought to one shape alike in either order: two of them are not one number each
unless they have one shape already. -/
theorem broadcast_mirrors {x y x' y' : Expr α} (hx : x.Twin x') (hy : y.Twin y')
    (l m : Ledger) : Outcome.Mirrors (fun p q => p.1.Twin q.2 ∧ p.2.Twin q.1)
      (broadcast x y l) (broadcast y' x' m) := by
  rw [broadcast_eq, broadcast_eq, ← hx.shape, ← hy.shape]
  by_cases same : x.shape = y.shape
  · rw [if_pos same, if_pos same.symm]
    exact .ok _ _ ⟨hx, hy⟩
  · rw [if_neg same, if_neg (Ne.symm same)]
    rcases hy.scalar? with ⟨ny, ny'⟩ | ⟨c, c', hc, hc', value, sign⟩
    · rcases hx.scalar? with ⟨nx, nx'⟩ | ⟨b, b', hb, hb', value, sign⟩
      · rw [nx, ny, nx', ny']
        exact .error (.sidesDiffer x.shape y.shape) l m
      · rw [hb, ny, hb', ny']
        exact (spread_mirrors value sign y.shape l m).bind fun b c l m twin =>
          .ok l m ⟨twin, hy⟩
    · have nx : x.scalar? = none := by
        cases hb : x.scalar? with
        | none => rfl
        | some b =>
            exact (same ((Expr.scalar?_eq_some hb).2.trans (Expr.scalar?_eq_some hc).2.symm)).elim
      have nx' : x'.scalar? = none := by
        rcases hx.scalar? with ⟨-, none⟩ | ⟨b, -, hb, -⟩
        · exact none
        · cases nx.symm.trans hb
      rw [nx, hc, nx', hc']
      exact (spread_mirrors value sign x.shape l m).bind fun b c l m twin => .ok l m ⟨hx, twin⟩

/-! ## Constraints -/

/-- An upper bound and the lower bound that says the same: the smaller sides are twins, and so
are the larger ones. -/
structure Constraint.Mirrors (c d : Constraint α) : Prop where
  atMost : c.relation = .atMost
  atLeast : d.relation = .atLeast
  small : c.lhs.Twin d.rhs
  large : c.rhs.Twin d.lhs

omit [Scalar α] in
theorem Constraint.Mirrors.checkSides {c d : Constraint α} (h : c.Mirrors d) (vars : Vars α)
    (l m : Ledger) :
    Outcome.Mirrors Constraint.Mirrors (checkSides vars c l) (checkSides vars d m) := by
  have complex : d.isComplex vars = c.isComplex vars := by
    rw [isComplex, isComplex, h.small.sign, h.large.sign, Bool.or_comm]
  unfold ConicModel.checkSides
  simp only [h.atMost, h.atLeast, complex]
  cases c.isComplex vars with
  | false => exact .ok l m h
  | true => exact .error .complexInequality l m

theorem makeConstraint_of_operands {vars : Vars α} {relation : Relation} {a b : Input α}
    {x y : Expr α} {l l₁ l₂ : Ledger}
    (ha : asExpr vars a { l with nextId := l.nextId + 1 } = .ok x l₁)
    (hb : asExpr vars b l₁ = .ok y l₂) : makeConstraint vars relation a b l
      = (broadcast x y >>= fun p => checkSides vars ⟨l.nextId, relation, p.1, p.2⟩) l₂ := by
  have id : (Make.freshId : Make α Id) l = .ok l.nextId { l with nextId := l.nextId + 1 } := rfl
  simp only [makeConstraint, Bind.bind, EStateM.bind, id, ha, hb]

/-- An inequality between two operands and its mirror image are made alike. -/
theorem makeConstraint_mirrors {vars : Vars α} {a b : Input α} {x y : Expr α}
    {la la' lb lb' : Ledger} (ha : asExpr vars a la = .ok x la')
    (hb : asExpr vars b lb = .ok y lb') (l m : Ledger) :
    Outcome.Mirrors Constraint.Mirrors (makeConstraint vars .atMost a b l)
      (makeConstraint vars .atLeast b a m) := by
  obtain ⟨x₁, l₁, hx₁, -⟩ := asExpr_twin ha { l with nextId := l.nextId + 1 }
  obtain ⟨y₁, l₂, hy₁, -⟩ := asExpr_twin hb l₁
  obtain ⟨y₂, m₁, hy₂, twin_y₂⟩ := asExpr_twin hy₁ { m with nextId := m.nextId + 1 }
  obtain ⟨x₂, m₂, hx₂, twin_x₂⟩ := asExpr_twin hx₁ m₁
  rw [makeConstraint_of_operands hx₁ hy₁, makeConstraint_of_operands hy₂ hx₂]
  refine (broadcast_mirrors twin_x₂ twin_y₂ l₂ m₂).bind fun p q l' m' sides => ?_
  exact Constraint.Mirrors.checkSides ⟨rfl, rfl, sides.1, sides.2⟩ vars l' m'

end ConicModel
