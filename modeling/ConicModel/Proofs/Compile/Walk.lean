/-
# One level of a walk

`walkExpr` and its companions are written as one text each.  Here the text is cut at its
joints: what is done about a free variable (`walkFree`), its sign (`walkSign`) and a
product (`walkProduct`), each after the look-up that comes first (`Walk.unlessHeld`).
The equations say that one level of a walk is made of these pieces and nothing else.

Below them are the results of the small parts of a walk, read backward.  A part changes a
pass in one of three ways only: it makes something with the ledger, enters something for
an expression, or enters something for a constraint.
-/
import ConicModel.Proofs.Construction
import ConicModel.Compile

namespace ConicModel

/-! ## The ways a pass changes -/

namespace Pass

variable {α κ ρ : Type}

/-- Something was entered for an expression. -/
def enterExpr (p : Pass κ ρ) (id : Id) (o : κ) : Pass κ ρ :=
  { p with cache := { p.cache with exprs := p.cache.exprs.push id o } }

/-- Something was entered for a constraint. -/
def enterConstraint (p : Pass κ ρ) (id : Id) (r : ρ) : Pass κ ρ :=
  { p with cache := { p.cache with
      constraints := p.cache.constraints.push id r, records := p.cache.records ++ [r] } }

/-- Something was made. -/
def spend (p : Pass κ ρ) (l : Ledger) : Pass κ ρ := { p with ledger := l }

/-- Notice was given. -/
def note (p : Pass κ ρ) (doubts : List Doubt) : Pass κ ρ :=
  p.spend { p.ledger with notices := p.ledger.notices ++ doubts.map .doubt }

end Pass

/-! ## The small parts of a walk -/

namespace Walk

variable {α κ ρ β : Type}

theorem refuse_ok {f : Fault α} {x : β} {p q : Pass κ ρ} :
    (refuse f : Walk α κ ρ β) p = .ok x q ↔ False :=
  Outcome.throw_ok

theorem make_ok {m : Make α β} {x : β} {p q : Pass κ ρ} :
    (make m : Walk α κ ρ β) p = .ok x q ↔ ∃ l, m p.ledger = .ok x l ∧ q = p.spend l := by
  unfold make
  cases hm : m p.ledger with
  | error f l => simp
  | ok y l =>
      constructor
      · intro h
        cases h
        exact ⟨l, rfl, rfl⟩
      · rintro ⟨l', h, rfl⟩
        cases h
        rfl

/-- The use of a verdict gives notice and nothing else. -/
theorem trust_ok {v : Verdict} {x : Curvature} {p q : Pass κ ρ} :
    (make (Make.trust v) : Walk α κ ρ Curvature) p = .ok x q ↔
      x = v.curvature ∧ q = p.note v.doubts := by
  constructor
  · intro h
    cases h
    exact ⟨rfl, rfl⟩
  · rintro ⟨rfl, rfl⟩
    rfl

theorem ofExcept_ok {ε : Type} {why : ε → Fault α} {r : Except ε β} {x : β} {p q : Pass κ ρ} :
    (ofExcept why r : Walk α κ ρ β) p = .ok x q ↔ r = .ok x ∧ q = p := by
  cases r with
  | error e => exact ⟨fun h => (by cases h), fun ⟨h, _⟩ => (by cases h)⟩
  | ok y =>
      constructor
      · intro h
        cases h
        exact ⟨rfl, rfl⟩
      · rintro ⟨h, rfl⟩
        cases h
        rfl

/-- What is entered is new, and it is what is gone on with. -/
theorem enterExpr_ok {id : Id} {o o' : κ} {p q : Pass κ ρ} :
    (enterExpr id o : Walk α κ ρ κ) p = .ok o' q ↔
      p.cache.exprs.has id = false ∧ o' = o ∧ q = p.enterExpr id o := by
  unfold enterExpr Cache.putExpr
  by_cases h : p.cache.exprs.has id = true
  · simp [h]
  · rw [if_neg h]
    constructor
    · intro he
      cases he
      exact ⟨by simpa using h, rfl, rfl⟩
    · rintro ⟨-, rfl, rfl⟩
      rfl

theorem enterConstraint_ok {id : Id} {r r' : ρ} {p q : Pass κ ρ} :
    (enterConstraint id r : Walk α κ ρ ρ) p = .ok r' q ↔
      p.cache.constraints.has id = false ∧ r' = r ∧ q = p.enterConstraint id r := by
  unfold enterConstraint Cache.putConstraint
  by_cases h : p.cache.constraints.has id = true
  · simp [h]
  · rw [if_neg h]
    constructor
    · intro he
      cases he
      exact ⟨by simpa using h, rfl, rfl⟩
    · rintro ⟨-, rfl, rfl⟩
      rfl

/-- Go on with what was entered for an expression, or else do something about it. -/
def unlessHeld (id : Id) (w : Walk α κ ρ κ) : Walk α κ ρ κ := do
  match ← lookExpr id with
  | some o => pure o
  | none => w

/-- The same for a constraint. -/
def unlessLowered (id : Id) (w : Walk α κ ρ ρ) : Walk α κ ρ ρ := do
  match ← lookConstraint id with
  | some r => pure r
  | none => w

theorem unlessHeld_of_some {id : Id} {o : κ} {p : Pass κ ρ}
    (h : p.cache.exprs.get? id = some o) (w : Walk α κ ρ κ) : unlessHeld id w p = .ok o p := by
  simp only [unlessHeld, lookExpr, bind, EStateM.bind, h]
  rfl

theorem unlessHeld_of_none {id : Id} {p : Pass κ ρ} (h : p.cache.exprs.get? id = none)
    (w : Walk α κ ρ κ) : unlessHeld id w p = w p := by
  simp only [unlessHeld, lookExpr, bind, EStateM.bind, h]

theorem unlessLowered_of_some {id : Id} {r : ρ} {p : Pass κ ρ}
    (h : p.cache.constraints.get? id = some r) (w : Walk α κ ρ ρ) :
    unlessLowered id w p = .ok r p := by
  simp only [unlessLowered, lookConstraint, bind, EStateM.bind, h]
  rfl

theorem unlessLowered_of_none {id : Id} {p : Pass κ ρ}
    (h : p.cache.constraints.get? id = none) (w : Walk α κ ρ ρ) :
    unlessLowered id w p = w p := by
  simp only [unlessLowered, lookConstraint, bind, EStateM.bind, h]

end Walk

/-! ## The pieces of a level -/

variable {α : Type} [Scalar α] {κ ρ : Type} [Compiled α κ ρ]

/-- Lower the constraint that the sign of a variable stands for, if it does. -/
def walkSign (vars : Vars α) (n : Nat) (x : Variable) : Walk α κ ρ Unit :=
  if (vars.state x).sign.isOneSided then do
    let c ← Walk.make (signConstraint vars (.var x))
    let _ ← walkConstraint vars n c
  else pure ()

/-- Enter a free variable, and compile what it brings. -/
def walkFree (vars : Vars α) (n : Nat) (x : Variable) : Walk α κ ρ κ := do
  let o ← Walk.enterExpr x.id (Compiled.ofObjective (.ofVariable x (vars.state x).sign))
  walkSign vars n x
  (vars.state x).attached.forM fun item => walkAttached vars n item
  pure o

/-- Enter a product of which the right operand was compiled. -/
def enterProduct (vars : Vars α) (id : Id) (a b : Expr α) (child : κ) : Walk α κ ρ κ := do
  let times ← Walk.ofExcept (·) (Compiled.premultiply child)
  let v ← Walk.ofExcept .unvalued (a.evaluate vars)
  let o ← Walk.ofExcept (·)
    (times (v.toMatrix.map fun A => kroneckerOperator A b.shape.1 b.shape.2))
  Walk.enterExpr id o

/-- Compile the right operand of a product, which may lead back to the product. -/
def walkProduct (vars : Vars α) (n : Nat) (id : Id) (a b : Expr α) : Walk α κ ρ κ := do
  let child ← walkExpr vars n b
  Walk.unlessHeld id (enterProduct vars id a b child)

/-- Compile both sides of a constraint, which may lead back to the constraint. -/
def walkSides (vars : Vars α) (n : Nat) (c : Constraint α) : Walk α κ ρ ρ := do
  let l ← walkExpr vars n c.lhs
  let r ← walkExpr vars n c.rhs
  let d ← Walk.ofExcept (·) (Compiled.sub l r)
  let lowered ← Walk.ofExcept (·) (c.lower vars d)
  Walk.unlessLowered c.id (Walk.enterConstraint c.id lowered)

/-- Compile an expression that was not entered, one level up. -/
def walkNew (vars : Vars α) (n : Nat) : Expr α → Walk α κ ρ κ
  | .const c => walkConstant vars (.const c)
  | .stub s => Walk.enterExpr s.id (Compiled.ofObjective (.ofStub s))
  | .var x => if (vars.state x).fixed then walkConstant vars (.var x) else walkFree vars n x
  | .kron id a b => do
      if (← Walk.make (Make.trust (a.verdict vars))) ≠ .constant then Walk.refuse .kronLeft
      else if (← Walk.make (Make.trust (b.verdict vars))) = .constant then
        walkConstant vars (.kron id a b)
      else walkProduct vars n id a b

/-! ## One level is made of these pieces -/

theorem walkExpr_succ (vars : Vars α) (n : Nat) (e : Expr α) :
    (walkExpr vars (n + 1) e : Walk α κ ρ κ) = Walk.unlessHeld e.id (walkNew vars n e) := by
  cases e with
  | const c | stub s | kron id a b =>
      rw [walkExpr.eq_def]
      rfl
  | var x =>
      have joint : (walkFree vars n x : Walk α κ ρ κ) = (do
          let o ← Walk.enterExpr x.id (Compiled.ofObjective (.ofVariable x (vars.state x).sign))
          if (vars.state x).sign.isOneSided then
            let c ← Walk.make (signConstraint vars (.var x))
            let _ ← walkConstraint vars n c
          (vars.state x).attached.forM fun item => walkAttached vars n item
          pure o) := by
        unfold walkFree walkSign
        split <;> simp
      rw [walkExpr.eq_def, walkNew, joint]
      rfl

theorem walkConstraint_succ (vars : Vars α) (n : Nat) (c : Constraint α) :
    (walkConstraint vars (n + 1) c : Walk α κ ρ ρ)
      = Walk.unlessLowered c.id (walkSides vars n c) := by
  rw [walkConstraint.eq_def]
  rfl

end ConicModel
