/-
# What every walk maintains

A walk enters four sorts of things: a constant by its value, a free variable under its own
identity, a product computed from what is held for its right operand, and a constraint
lowered from what is held for its two sides.  A property of a pass, relative to the nodes
made so far, is maintained by walks if none of these four steps breaks it.

The steps are given all that the walk has at hand: the node was made, the nodes and the
variables are coherent, and the operands are held.  That every run preserves what is
maintained is a part of `Brought`, because it has to be known of the very nodes that the
run has made.
-/
import ConicModel.Proofs.Coherence
import ConicModel.Proofs.Compile.Walk

namespace ConicModel

variable {α : Type} [Scalar α] {κ ρ : Type} [Compiled α κ ρ]

/-! ## Products and differences -/

/-- What is entered for a product, from what was compiled of its right operand. -/
def Expr.product (vars : Vars α) (a b : Expr α) (child : κ) : Except (Fault α) κ := do
  let times ← Compiled.premultiply child
  let v ← (a.evaluate vars).mapError .unvalued
  times (v.toMatrix.map fun A => kroneckerOperator A b.shape.1 b.shape.2)

/-- What is entered for a constraint, from what was compiled of its sides. -/
def Constraint.between (vars : Vars α) (c : Constraint α) (l r : κ) : Except (Fault α) ρ := do
  let d ← Compiled.sub l r
  c.lower vars d

theorem Expr.product_ok {vars : Vars α} {a b : Expr α} {child o : κ} :
    Expr.product vars a b child = .ok o ↔
      ∃ times v, Compiled.premultiply child = .ok times ∧ a.evaluate vars = .ok v ∧
        times (v.toMatrix.map fun A => kroneckerOperator A b.shape.1 b.shape.2) = .ok o := by
  constructor
  · intro h
    obtain ⟨times, htimes, rest⟩ := Outcome.except_bind_ok.mp h
    obtain ⟨v, hv, product⟩ := Outcome.except_bind_ok.mp rest
    exact ⟨times, v, htimes, Outcome.mapError_ok.mp hv, product⟩
  · rintro ⟨times, v, htimes, hv, product⟩
    exact Outcome.except_bind_ok.mpr ⟨times, htimes,
      Outcome.except_bind_ok.mpr ⟨v, Outcome.mapError_ok.mpr hv, product⟩⟩

/-! ## Maintained properties -/

/-- No step of a walk breaks the property. -/
structure Maintained (vars : Vars α) (I : Set (Node α) → Pass κ ρ → Prop) : Prop where
  mono : ∀ {N M : Set (Node α)} {p : Pass κ ρ}, N ⊆ M → I N p → I M p
  spend : ∀ {N : Set (Node α)} {p : Pass κ ρ} (l : Ledger), I N p → I N (p.spend l)
  constant : ∀ {N : Set (Node α)} {p : Pass κ ρ} {e : Expr α} {v : Value α},
    Coherent vars N p.ledger.nextId → .expr e ∈ N → e.curvature vars = .constant →
    e.evaluate vars = .ok v → I N p →
    I N (p.enterExpr e.id (Compiled.ofObjective (.ofConstant v.toMatrix)))
  free : ∀ {N : Set (Node α)} {p : Pass κ ρ} {x : Variable},
    Coherent vars N p.ledger.nextId → .expr (.var x) ∈ N → (vars.state x).fixed = false →
    I N p →
    I N (p.enterExpr x.id (Compiled.ofObjective (.ofVariable x (vars.state x).sign)))
  product : ∀ {N : Set (Node α)} {p : Pass κ ρ} {id : Id} {a b : Expr α} {child o : κ},
    Coherent vars N p.ledger.nextId → .expr (.kron id a b) ∈ N →
    a.curvature vars = .constant → b.curvature vars ≠ .constant →
    p.cache.exprs.get? b.id = some child → Expr.product vars a b child = .ok o → I N p →
    I N (p.enterExpr id o)
  lower : ∀ {N : Set (Node α)} {p : Pass κ ρ} {c : Constraint α} {l r : κ} {s : ρ},
    Coherent vars N p.ledger.nextId → .constraint c ∈ N →
    p.cache.exprs.get? c.lhs.id = some l → p.cache.exprs.get? c.rhs.id = some r →
    c.between vars l r = .ok s → I N p → I N (p.enterConstraint c.id s)

end ConicModel
