/-
# Records of inequalities without imaginary content

What is compiled of an expression has no imaginary content if none of its leaves has: a
constant with real elements has none, and a variable has none while its sign is not complex
and, if it is fixed, its value has real elements (`Expr.Plain`).  So the record of an inequality
has no imaginary content if its leaves have none at the moment of the call.

The constraint of a sign is such an inequality, because it is made in the very call that enters
its variable.  Of any other one this is not known: it was checked by the signs of the moment at
which it was made, and lowering asks nobody again.  If no variable has become complex since it
was made, or ceased to be, then the check was good enough.  Otherwise
`late_sign_reaches_nonneg` is what can happen.
-/
import Mathlib.Algebra.Order.Ring.Rat
import ConicModel.Proofs.Advance
import ConicModel.Proofs.Compile.Records
import ConicModel.Proofs.Objective.Plain
import ConicModel.Proofs.Signs

namespace ConicModel

variable {α : Type}

/-! ## Plain expressions -/

/-- What is compiled of a variable has no imaginary content. -/
structure VarState.Plain (s : VarState α) : Prop where
  sign : s.sign ≠ .complex
  value : s.fixed = true → ∀ v, s.value = some v → v.IsReal

/-- What is compiled of an expression has no imaginary content, leaf by leaf. -/
def Expr.Plain (vars : Vars α) : Expr α → Prop
  | var x => (vars.state x).Plain
  | const c => c.value.isComplex = false
  | kron _ a b => a.Plain vars ∧ b.Plain vars
  | stub _ => True

theorem Expr.plain_of_leaves {vars : Vars α} {e : Expr α}
    (var_plain : ∀ x, .var x ∈ e.leaves → (vars.state x).Plain)
    (const_real : ∀ k, .const k ∈ e.leaves → k.value.isComplex = false) : e.Plain vars := by
  induction e with
  | var x => exact var_plain x (List.mem_singleton_self _)
  | const k => exact const_real k (List.mem_singleton_self _)
  | kron id a b iha ihb =>
      exact ⟨iha (fun x hx => var_plain x (List.mem_append_left _ hx))
          fun k hk => const_real k (List.mem_append_left _ hk),
        ihb (fun x hx => var_plain x (List.mem_append_right _ hx))
          fun k hk => const_real k (List.mem_append_right _ hk)⟩
  | stub s => trivial

/-- Both sides of a constraint are plain. -/
def Constraint.Plain (vars : Vars α) (c : Constraint α) : Prop :=
  c.lhs.Plain vars ∧ c.rhs.Plain vars

theorem Constraint.plain_of_leaves {vars : Vars α} {c : Constraint α}
    (var_plain : ∀ x, .var x ∈ c.leaves → (vars.state x).Plain)
    (const_real : ∀ k, .const k ∈ c.leaves → k.value.isComplex = false) : c.Plain vars :=
  ⟨Expr.plain_of_leaves (fun x hx => var_plain x (List.mem_append_left _ hx))
      fun k hk => const_real k (List.mem_append_left _ hk),
    Expr.plain_of_leaves (fun x hx => var_plain x (List.mem_append_right _ hx))
      fun k hk => const_real k (List.mem_append_right _ hk)⟩

/-- The constraints of the nonnegative cone are the inequalities. -/
theorem Constraint.cone_eq_nonneg_iff {vars : Vars α} {c : Constraint α} :
    c.cone vars = .nonneg ↔ c.relation.IsInequality := by
  unfold Relation.IsInequality cone
  cases c.relation with
  | atLeast => exact ⟨fun _ => .inl rfl, fun _ => rfl⟩
  | atMost => exact ⟨fun _ => .inr rfl, fun _ => rfl⟩
  | equal => exact ⟨nofun, nofun⟩
  | semidefinite =>
      dsimp only
      split <;> decide

section

variable [Scalar α] {vars : Vars α}

/-- A constant expression has real elements if it is plain. -/
theorem Expr.Plain.isReal {e : Expr α} (h : e.Plain vars) (constant : e.curvature vars = .constant)
    {v : Value α} (value : e.evaluate vars = .ok v) : v.IsReal := by
  induction e generalizing v with
  | var x =>
      exact h.value (curvature_var_eq_constant_iff.mp constant) v
        (Expr.evaluate_var_ok.mp value)
  | const c =>
      cases value
      exact h
  | kron id a b iha ihb =>
      obtain ⟨left, right⟩ := curvature_kron_eq_constant_iff.mp constant
      obtain ⟨va, vb, ha, hb, rfl⟩ := Expr.evaluate_kron_ok.mp value
      have operands : (va.toMatrix.isComplex || vb.toMatrix.isComplex) = false :=
        Bool.or_eq_false_iff.mpr ⟨iha h.1 left ha, ihb h.2 right hb⟩
      exact (Numeric.isComplex_map₂ (F := Dense) (fun A B => A.kron B) _ _).trans operands
  | stub s => cases value

/-- The constraint of a sign is plain while its variable is free. -/
theorem Constraint.IsSignOf.plain {x : Variable} {c : Constraint α} (h : c.IsSignOf vars x)
    (free : (vars.state x).fixed = false) : c.Plain vars := by
  obtain ⟨k, hk, value⟩ := h.rhs
  constructor
  · rw [h.lhs]
    refine ⟨?_, fun fixed => absurd fixed (by simp [free])⟩
    rcases h.relation with ⟨sign, -⟩ | ⟨sign, -⟩ <;> rw [sign] <;> decide
  · rw [hk, Expr.Plain, value]
    rfl

/-! ## The invariant -/

/-- The entries of plain expressions are plain, and so are the records of plain constraints. -/
structure Pass.Plain (vars : Vars α) (N : Set (Node α))
    (p : Pass (Objective α) (Record α)) : Prop where
  exprs : ∀ i o, (i, o) ∈ p.cache.exprs →
    ∃ e, .expr e ∈ N ∧ e.id = i ∧ (e.Plain vars → o.Plain)
  constraints : ∀ i r, (i, r) ∈ p.cache.constraints →
    ∃ c, .constraint c ∈ N ∧ c.id = i ∧ r.cone = c.cone vars ∧ (c.Plain vars → r.objective.Plain)

namespace Pass.Plain

variable {N : Set (Node α)} {next : Id} {p : Pass (Objective α) (Record α)}

omit [Scalar α] in
theorem of_empty (N : Set (Node α)) (fresh : p.cache = {}) : p.Plain vars N where
  exprs i o h := by
    rw [fresh] at h
    cases h
  constraints i r h := by
    rw [fresh] at h
    cases h

omit [Scalar α] in
/-- What is found for a plain expression is plain. -/
theorem plain (h : p.Plain vars N) (roster : Roster N next) {e : Expr α} (he : .expr e ∈ N)
    {o : Objective α} (held : p.cache.exprs.get? e.id = some o) (plain : e.Plain vars) :
    o.Plain := by
  obtain ⟨d, hd, hid, entry⟩ := h.exprs _ _ (Table.mem_of_get? held)
  exact entry (roster.expr_unique hd he hid ▸ plain)

omit [Scalar α] in
theorem enterExpr (h : p.Plain vars N) {e : Expr α} (he : .expr e ∈ N) {o : Objective α}
    (plain : e.Plain vars → o.Plain) : (p.enterExpr e.id o).Plain vars N where
  exprs i o' hi := by
    rcases List.mem_append.mp hi with hi | hi
    · exact h.exprs i o' hi
    · cases List.mem_singleton.mp hi
      exact ⟨e, he, rfl, plain⟩
  constraints := h.constraints

omit [Scalar α] in
theorem enterConstraint (h : p.Plain vars N) {c : Constraint α} (hc : .constraint c ∈ N)
    {r : Record α} (cone : r.cone = c.cone vars) (plain : c.Plain vars → r.objective.Plain) :
    (p.enterConstraint c.id r).Plain vars N where
  exprs := h.exprs
  constraints i r' hi := by
    rcases List.mem_append.mp hi with hi | hi
    · exact h.constraints i r' hi
    · cases List.mem_singleton.mp hi
      exact ⟨c, hc, rfl, cone, plain⟩

/-- No step of a walk breaks it. -/
theorem maintained (vars : Vars α) :
    Maintained vars fun N (p : Pass (Objective α) (Record α)) => p.Plain vars N where
  mono sub h :=
    { exprs := fun i o hi => by
        obtain ⟨e, he, rest⟩ := h.exprs i o hi
        exact ⟨e, sub he, rest⟩
      constraints := fun i r hi => by
        obtain ⟨c, hc, rest⟩ := h.constraints i r hi
        exact ⟨c, sub hc, rest⟩ }
  spend _ h := ⟨h.exprs, h.constraints⟩
  constant _ he constant value h :=
    h.enterExpr he fun plain => .ofConstant (plain.isReal constant value)
  free {N p x} _ hx _ h :=
    h.enterExpr (e := .var x) hx fun plain => .ofVariable x plain.sign
  product {N p id a b child o} coherent hn left _ held product h := by
    obtain ⟨-, hb⟩ := coherent.roster.kron hn
    obtain ⟨times, v, htimes, hv, product⟩ := Expr.product_ok.mp product
    cases htimes
    refine h.enterExpr (e := .kron id a b) hn fun plain => ?_
    have operator : (v.toMatrix.map fun A => kroneckerOperator A b.shape.1 b.shape.2).isComplex
        = false :=
      (Numeric.isComplex_map (fun A => kroneckerOperator A b.shape.1 b.shape.2) _).trans
        (plain.1.isReal left hv)
    exact (h.plain coherent.roster hb held plain.2).premultiply operator
      (Outcome.mapError_ok.mp product)
  lower {N p c l r s} coherent hc left right between h := by
    obtain ⟨hl, hr⟩ := coherent.roster.sides hc
    obtain ⟨difference, hd, lowered⟩ := Outcome.except_bind_ok.mp between
    cases Constraint.lower_ok lowered
    refine h.enterConstraint hc rfl fun plain => ?_
    have sides : difference.Plain :=
      (h.plain coherent.roster hl left plain.1).sub (h.plain coherent.roster hr right plain.2)
        (Outcome.mapError_ok.mp hd)
    dsimp only
    split
    · exact sides.neg
    · exact sides

end Pass.Plain

/-! ## Calls -/

/-- What a call leaves, whether it is refused or not. -/
theorem leaves_of_call {κ ρ : Type} [Compiled α κ ρ] {N : Set (Node α)} {p : Pass κ ρ}
    {n : Node α} (coherent : Coherent vars N p.ledger.nextId) (hn : n ∈ N) :
    ∃ S, Leaves vars N p (Outcome.left (compileNode vars n p)) S := by
  cases h : compileNode vars n p with
  | ok x q => exact leaves_of_compileNode h coherent hn
  | error f q => exact leaves_of_refused h coherent hn

theorem extends_of_call {κ ρ : Type} [Compiled α κ ρ] (vars : Vars α) (p : Pass κ ρ)
    (n : Node α) : p.cache.Extends (Outcome.left (compileNode vars n p)).cache := by
  cases h : compileNode vars n p with
  | ok x q => exact (Run.cons_of_compileNode h .nil).1.grows.toExtends
  | error f q => exact (refused_of_compileNode h).grows.toExtends

omit [Scalar α] in
/-- In an inequality that has passed the check it is only variables that can have imaginary
content. -/
theorem World.Checked.plain {w : World α} (checked : w.Checked) {c : Constraint α}
    (hc : .constraint c ∈ w.nodes) (inequality : c.relation.IsInequality)
    (var_plain : ∀ x, .var x ∈ c.leaves → (w.vars.state x).Plain) : c.Plain w.vars :=
  Constraint.plain_of_leaves var_plain (checked.sides c hc inequality)

omit [Scalar α] in
/-- Where signs agree with values, what is not complex is plain. -/
theorem World.Aligned.plain {w : World α} (aligned : w.Aligned) {x : Variable}
    (real : (w.vars.state x).sign ≠ .complex) : (w.vars.state x).Plain :=
  ⟨real, fun _ => aligned.values x real⟩

/-- In a session in which no constant is given a sign by hand, the records of one call on an
empty cache, refused or not, are those of constraints, each under the identity of its own, and
those for the nonnegative cone have no imaginary content in each of these cases:

  * the record is that of no constraint made in the session, but of the sign of a variable;
  * none of the variables in its constraint is complex now, nor fixed at a value with complex
    elements;
  * no variable of the session has ever become complex, or ceased to be, after it was made. -/
theorem nonneg_records_plain {w : World α} (run : Relation.ReflTransGen World.Infers {} w)
    {n : Node α} (hn : n ∈ w.nodes) {q : Pass (Objective α) (Record α)}
    (call : Outcome.left (compileNode w.vars n ⟨w.ledger, {}⟩) = q) :
    q.cache.records = q.cache.constraints.items ∧
    ∀ i r, (i, r) ∈ q.cache.constraints → r.cone = .nonneg →
      ((∀ c, .constraint c ∈ w.nodes → c.id ≠ i) → r.objective.Plain) ∧
      (∀ c, .constraint c ∈ w.nodes → c.id = i →
        (∀ x, .var x ∈ c.leaves → (w.vars.state x).Plain) → r.objective.Plain) ∧
      (Relation.ReflTransGen World.Steady {} w → r.objective.Plain) := by
  have sound := (World.Infers.reachable run).sound
  have checked := World.Infers.checked run
  obtain ⟨S, leaves⟩ := leaves_of_call (κ := Objective α) (p := ⟨w.ledger, {}⟩) sound.coherent hn
  rw [call] at leaves
  have plain := leaves.keeps _ (Pass.Plain.maintained w.vars) (.of_empty _ rfl)
  have extended := extends_of_call (κ := Objective α) w.vars ⟨w.ledger, {}⟩ n
  rw [call] at extended
  obtain ⟨t, constraints, records⟩ := extended.constraints
  refine ⟨by rw [records, constraints]; rfl, fun i r hi nonneg => ?_⟩
  obtain ⟨c, hc, rfl, cone, record⟩ := plain.constraints i r hi
  have inequality := Constraint.cone_eq_nonneg_iff.mp (cone.symm.trans nonneg)
  rcases constraint_joined hc with hc | ⟨x, hx⟩
  · have of_variables (var_plain : ∀ x, .var x ∈ c.leaves → (w.vars.state x).Plain) :
        r.objective.Plain := record (checked.plain hc inequality var_plain)
    refine ⟨fun none => (none c hc rfl).elim, fun d hd hid var_plain => ?_, fun steady => ?_⟩
    · cases sound.coherent.roster.constraint_unique hd hc hid
      exact of_variables var_plain
    · have aligned := World.Steady.aligned steady
      exact of_variables fun x hx => aligned.plain (aligned.sides c hc inequality x hx)
  · have of_sign : r.objective.Plain :=
      record ((leaves.signs x c hx).2.plain (leaves.free x c hx))
    exact ⟨fun _ => of_sign, fun _ _ _ _ => of_sign, fun _ => of_sign⟩

end

/-! ### A sign that comes late

A positive scalar is declared and a bound on it is made, which is checked and passes.  Then the
variable is made complex. -/

namespace Late

def x : Variable := ⟨1, 1, 1, .main⟩

def bound : Constraint ℚ :=
  ⟨2, .atLeast, .var x, .const ⟨3, .real (.ofRowMajor 1 1 #[0]), .positive⟩⟩

def declared : World ℚ where
  model := {
    ledger := { nextId := 2 }
    vars := [(1, { sign := .positive })]
    contexts := [(.main, [.expr (.var x)])] }
  nodes := {.expr (.var x)}

def bounded : World ℚ := declared.make { nextId := 4 } (.constraint bound)

def world : World ℚ :=
  ⟨{ bounded.model with vars := [(1, { sign := .complex })] }, bounded.nodes⟩

theorem bound_made : .constraint bound ∈ bounded.nodes := mem_gain _ _

theorem declared_infers : World.Infers {} declared := by
  let spec : VariableSpec ℚ := { sign := .positive }
  have made : spec.declare [] {} = .ok x declared.model := rfl
  have alone : (declared.model.vars.state x).attached = [] := rfl
  have step := World.Infers.declare {} spec x declared.model made
  rw [World.nodes_declared alone] at step
  simpa only [declared, insert_empty_eq] using step

theorem bounded_infers : World.Infers declared bounded :=
  .constraint _ .atLeast (.thing 0 (.expr (.var x))) (.ofInt 0) bound { nextId := 4 }
    (Roster.offers_expr rfl) (Roster.offers_int _ 0) (by with_unfolding_all rfl)

theorem world_infers : World.Infers bounded world :=
  .keep (.change _ x _ world.model (subset_gain _ _ rfl) (.sign .complex) rfl) rfl

theorem bounded_steady : Relation.ReflTransGen World.Steady {} bounded :=
  .tail (.single ⟨declared_infers, fun _ made => made.elim⟩)
    ⟨bounded_infers, fun _ _ => Iff.rfl⟩

theorem world_reached : Relation.ReflTransGen World.Infers {} world :=
  .tail (World.Steady.infers bounded_steady) world_infers

end Late

/-- As long as the sign is what it was declared to be, the records of the bound and of the sign
have no imaginary content. -/
theorem bounded_records_plain : ∃ q : Pass (Objective ℚ) (Record ℚ),
    Outcome.left (compileNode Late.bounded.vars (.constraint Late.bound)
      ⟨Late.bounded.ledger, {}⟩) = q ∧
    q.cache.constraints.ids = [4, 2] ∧ q.cache.records = q.cache.constraints.items ∧
    ∀ e ∈ q.cache.constraints, e.2.cone = .nonneg ∧ e.2.objective.Plain := by
  let q : Pass (Objective ℚ) (Record ℚ) := Outcome.left
    (compileNode Late.bounded.vars (.constraint Late.bound) ⟨Late.bounded.ledger, {}⟩)
  have ids : q.cache.constraints.ids = [4, 2] := by decide +kernel
  have cones : ∀ e ∈ q.cache.constraints, e.2.cone = .nonneg := by decide +kernel
  obtain ⟨records, plain⟩ := nonneg_records_plain (World.Steady.infers Late.bounded_steady)
    Late.bound_made (q := q) rfl
  refine ⟨q, rfl, ids, records, fun e he => ⟨cones e he, ?_⟩⟩
  exact (plain e.1 e.2 he (cones e he)).2.2 Late.bounded_steady

/-- Once the variable is complex, the bound that was checked before is lowered to a record for
the nonnegative cone, under the variable's identity with the coefficient `i` of an imaginary
part. -/
theorem late_sign_reaches_nonneg :
    Relation.ReflTransGen World.Infers {} Late.world ∧
    .constraint Late.bound ∈ Late.world.nodes ∧
    ∃ (x : Returned (Objective ℚ) (Record ℚ)) (q : Pass (Objective ℚ) (Record ℚ)),
      compileNode Late.world.vars (.constraint Late.bound) ⟨Late.world.ledger, {}⟩ = .ok x q ∧
      ∃ r ∈ q.cache.records, r.cone = .nonneg ∧ ¬r.objective.Plain ∧
        (r.objective.get? 1).map (fun p => p.imag.toComplex.toDense.get 0 0) = some Cplx.I := by
  obtain ⟨x, q, compiled, r, hr, cone, ⟨e, he, stored⟩, imag⟩ :
      ∃ (x : Returned (Objective ℚ) (Record ℚ)) (q : Pass (Objective ℚ) (Record ℚ)),
        compileNode Late.world.vars (.constraint Late.bound) ⟨Late.world.ledger, {}⟩ = .ok x q ∧
        ∃ r ∈ q.cache.records, r.cone = .nonneg ∧
          (∃ e ∈ r.objective.entries, Coeffs.stored e.2.imag = 1) ∧
          (r.objective.get? 1).map (fun p => p.imag.toComplex.toDense.get 0 0)
            = some Cplx.I := by
    decide +kernel
  refine ⟨Late.world_reached, Late.bound_made, x, q, compiled, r, hr, cone, fun plain => ?_, imag⟩
  have none : Coeffs.stored e.2.imag = 0 := (plain e he).imag
  rw [none] at stored
  cases stored

end ConicModel
