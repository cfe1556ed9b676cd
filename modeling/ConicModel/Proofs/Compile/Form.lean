/-
# What is compiled, without a cache

`Expr.form` says by recursion on an expression what is compiled of it, or for what fault it
is refused, and `Constraint.form` the same of a constraint.  No cache occurs in them and no
attached list: what is attached to a variable is lowered on the way but adds nothing to the
entry of the variable.

A cache that walks have filled holds the form of every node, whatever order the nodes were
met in and whatever detours were made (`Pass.Tells`, `Pass.Tells.maintained`).  A product
that its own operand leads back to is therefore entered with the same content on the
detour and after it.
-/
import ConicModel.Proofs.Compile.Maintained

namespace ConicModel

variable {α : Type} [Scalar α] {κ ρ : Type} [Compiled α κ ρ]

/-! ## Forms -/

/-- What is compiled of a constant. -/
def Expr.constantForm (vars : Vars α) (e : Expr α) : Except (Fault α) κ :=
  match e.evaluate vars with
  | .ok v => .ok (Compiled.ofObjective (.ofConstant v.toMatrix))
  | .error u => .error (.unvalued u)

/-- What is compiled of an expression. -/
def Expr.form (vars : Vars α) : Expr α → Except (Fault α) κ
  | const c => constantForm vars (.const c)
  | stub s => .ok (Compiled.ofObjective (.ofStub s))
  | var x =>
    if (vars.state x).fixed then constantForm vars (.var x)
    else .ok (Compiled.ofObjective (.ofVariable x (vars.state x).sign))
  | kron id a b =>
    if a.curvature vars ≠ .constant then .error .kronLeft
    else if b.curvature vars = .constant then constantForm vars (.kron id a b)
    else do
      let child ← form vars b
      product vars a b child

/-- What is compiled of a constraint. -/
def Constraint.form (κ : Type) {ρ : Type} [Compiled α κ ρ] (vars : Vars α) (c : Constraint α) :
    Except (Fault α) ρ := do
  let l : κ ← c.lhs.form vars
  let r : κ ← c.rhs.form vars
  c.between vars l r

variable {vars : Vars α}

namespace Expr

theorem constantForm_ok {e : Expr α} {v : Value α} (h : e.evaluate vars = .ok v) :
    (constantForm vars e : Except (Fault α) κ)
      = .ok (Compiled.ofObjective (.ofConstant v.toMatrix)) := by
  rw [constantForm, h]

theorem constantForm_error {e : Expr α} {u : Unvalued} (h : e.evaluate vars = .error u) :
    (constantForm vars e : Except (Fault α) κ) = .error (.unvalued u) := by
  rw [constantForm, h]

theorem form_free {x : Variable} (free : (vars.state x).fixed = false) :
    ((Expr.var x).form vars : Except (Fault α) κ)
      = .ok (Compiled.ofObjective (.ofVariable x (vars.state x).sign)) := by
  rw [form, if_neg (by simp [free])]

theorem form_left {id : Id} {a b : Expr α} (left : a.curvature vars ≠ .constant) :
    ((Expr.kron id a b).form vars : Except (Fault α) κ) = .error .kronLeft := by
  rw [form, if_pos left]

theorem form_kron {id : Id} {a b : Expr α} (left : a.curvature vars = .constant)
    (right : b.curvature vars ≠ .constant) :
    ((Expr.kron id a b).form vars : Except (Fault α) κ) =
      (do let child ← b.form vars; product vars a b child) := by
  rw [form, if_neg (not_not.mpr left), if_neg right]

/-- Constants are compiled by their values, whatever they are made of. -/
theorem form_constant {N : Set (Node α)} {next : Id} (coherent : Coherent vars N next)
    {e : Expr α} (he : .expr e ∈ N) (constant : e.curvature vars = .constant) :
    (e.form vars : Except (Fault α) κ) = constantForm vars e := by
  cases e with
  | const c => rfl
  | stub s => exact (coherent.roster.no_stub s he).elim
  | var x => rw [form, if_pos (curvature_var_eq_constant_iff.mp constant)]
  | kron id a b =>
      obtain ⟨left, right⟩ := curvature_kron_eq_constant_iff.mp constant
      rw [form, if_neg (not_not.mpr left), if_pos right]

end Expr

namespace Constraint.IsSignOf

variable {x : Variable} {c d : Constraint α} (hc : c.IsSignOf vars x) (hd : d.IsSignOf vars x)

include hc hd

theorem zero_form_eq : (c.rhs.form vars : Except (Fault α) κ) = d.rhs.form vars := by
  obtain ⟨k, hk, value⟩ := hc.rhs
  obtain ⟨k', hk', value'⟩ := hd.rhs
  rw [hk, hk', Expr.form, Expr.form, Expr.constantForm_ok rfl, Expr.constantForm_ok rfl, value,
    value']

/-- All constraints of one sign have one form: they differ in identities alone. -/
theorem form_eq : c.form κ vars = d.form κ vars := by
  have relation : c.relation = d.relation := by
    rcases hc.relation with ⟨sign, h⟩ | ⟨sign, h⟩ <;>
      rcases hd.relation with ⟨sign', h'⟩ | ⟨sign', h'⟩
    · rw [h, h']
    · cases sign.symm.trans sign'
    · cases sign.symm.trans sign'
    · rw [h, h']
  have lhs : c.lhs = d.lhs := hc.lhs.trans hd.lhs.symm
  have between (l r : κ) : (c.between vars l r : Except (Fault α) ρ) = d.between vars l r := by
    have cone : c.cone vars = d.cone vars := by
      rcases hc.relation with ⟨-, h⟩ | ⟨-, h⟩ <;> rw [cone, cone, ← relation, h]
    have size : c.size = d.size := by rw [size, size, lhs]
    simp only [Constraint.between, Constraint.lower, relation, cone, size]
  simp only [form, lhs, zero_form_eq hc hd, between]

end Constraint.IsSignOf

/-! ## Caches that hold forms -/

/-- Everything in the cache is the form of a node that was made. -/
structure Pass.Tells (vars : Vars α) (N : Set (Node α)) (p : Pass κ ρ) : Prop where
  exprs : ∀ i o, (i, o) ∈ p.cache.exprs → ∃ e, .expr e ∈ N ∧ e.id = i ∧ e.form vars = .ok o
  constraints : ∀ i r, (i, r) ∈ p.cache.constraints →
    ∃ c, .constraint c ∈ N ∧ c.id = i ∧ c.form κ vars = .ok r

namespace Pass.Tells

variable {N : Set (Node α)} {next : Id} {p : Pass κ ρ}

theorem of_empty (N : Set (Node α)) (fresh : p.cache = {}) : p.Tells vars N where
  exprs i o h := by
    rw [fresh] at h
    cases h
  constraints i r h := by
    rw [fresh] at h
    cases h

theorem enterExpr (h : p.Tells vars N) {e : Expr α} (he : .expr e ∈ N) {o : κ}
    (form : e.form vars = .ok o) : (p.enterExpr e.id o).Tells vars N where
  exprs i o' hi := by
    rcases List.mem_append.mp hi with hi | hi
    · exact h.exprs i o' hi
    · cases List.mem_singleton.mp hi
      exact ⟨e, he, rfl, form⟩
  constraints := h.constraints

theorem enterConstraint (h : p.Tells vars N) {c : Constraint α} (hc : .constraint c ∈ N) {r : ρ}
    (form : c.form κ vars = .ok r) : (p.enterConstraint c.id r).Tells vars N where
  exprs := h.exprs
  constraints i r' hi := by
    rcases List.mem_append.mp hi with hi | hi
    · exact h.constraints i r' hi
    · cases List.mem_singleton.mp hi
      exact ⟨c, hc, rfl, form⟩

/-- What is found for an expression is its form. -/
theorem form (h : p.Tells vars N) (coherent : Coherent vars N next) {e : Expr α}
    (he : .expr e ∈ N) {o : κ} (held : p.cache.exprs.get? e.id = some o) :
    e.form vars = .ok o := by
  obtain ⟨d, hd, hid, form⟩ := h.exprs _ _ (Table.mem_of_get? held)
  rwa [← coherent.roster.expr_unique hd he hid]

theorem form_constraint (h : p.Tells vars N) (coherent : Coherent vars N next)
    {c : Constraint α} (hc : .constraint c ∈ N) {r : ρ}
    (held : p.cache.constraints.get? c.id = some r) : c.form κ vars = .ok r := by
  obtain ⟨d, hd, hid, form⟩ := h.constraints _ _ (Table.mem_of_get? held)
  rwa [← coherent.roster.constraint_unique hd hc hid]

/-- Walks enter forms if they find forms. -/
theorem maintained (κ : Type) {ρ : Type} [Compiled α κ ρ] (vars : Vars α) :
    Maintained vars fun N (p : Pass κ ρ) => p.Tells vars N where
  mono sub h :=
    { exprs := fun i o hi => by
        obtain ⟨e, he, rest⟩ := h.exprs i o hi
        exact ⟨e, sub he, rest⟩
      constraints := fun i r hi => by
        obtain ⟨c, hc, rest⟩ := h.constraints i r hi
        exact ⟨c, sub hc, rest⟩ }
  spend _ h := ⟨h.exprs, h.constraints⟩
  constant coherent he constant value h :=
    h.enterExpr he ((Expr.form_constant coherent he constant).trans (Expr.constantForm_ok value))
  free _ hx free h := h.enterExpr hx (Expr.form_free free)
  product {N p id a b child o} coherent hn left right held product h := by
    have below := h.form coherent (coherent.roster.kron hn).2 held
    refine h.enterExpr (e := .kron id a b) hn ?_
    rw [Expr.form_kron left right, below]
    exact product
  lower {N p c l r s} coherent hc left right between h := by
    obtain ⟨hl, hr⟩ := coherent.roster.sides hc
    refine h.enterConstraint hc ?_
    rw [Constraint.form, h.form coherent hl left, h.form coherent hr right]
    exact between

end Pass.Tells

end ConicModel
