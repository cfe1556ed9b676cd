/-
# When a compilation is refused

No walk gets past a product whose left operand is not constant at this moment.  A node is
compiled into an empty cache unless a walk from it comes to such a product (`Obstructs`),
and it is never refused for anything else.

That nothing else goes wrong has three reasons.  A variable that is held has a value, so
constants are evaluated (`Coherent.exists_value`).  An objective has as many rows as its
expression has entries, and is over free variables, each of one length, so products and
differences are never refused for the shapes of entries (`Objective.Fits`).  And a walk
looks up whatever it is about to enter, so nothing is entered twice.

By `Refused.blames` only the forms of single nodes have to be looked at.
-/
import ConicModel.Message
import ConicModel.Proofs.Compile.Order
import ConicModel.Proofs.Compile.Meaning
import ConicModel.Proofs.Objective.Total

namespace ConicModel

variable {α : Type}

/-! ## Obstacles -/

/-- From a node a walk comes to a product whose left operand is not constant. -/
def Obstructs (vars : Vars α) (n : Node α) : Prop :=
  ∃ id a b, Reaches vars n (.expr (.kron id a b)) ∧ a.curvature vars ≠ .constant

namespace Obstructs

variable {vars : Vars α} {m n : Node α}

theorem here {id : Id} {a b : Expr α} (left : a.curvature vars ≠ .constant) :
    Obstructs vars (.expr (.kron id a b)) :=
  ⟨id, a, b, .refl, left⟩

theorem of_reaches (h : Obstructs vars n) (reaches : Reaches vars m n) : Obstructs vars m := by
  obtain ⟨id, a, b, hn, left⟩ := h
  exact ⟨id, a, b, reaches.trans hn, left⟩

theorem pass (h : Obstructs vars n) (step : Passes vars m n) : Obstructs vars m :=
  h.of_reaches (.single step)

theorem not_const (c : Constant α) : ¬Obstructs vars (.expr (.const c)) := by
  rintro ⟨id, a, b, reaches, -⟩
  rcases Relation.ReflTransGen.cases_head reaches with same | ⟨k, step, -⟩
  · cases same
  · cases step

/-- An expression is constant or affine, unless there is a bad product on the way. -/
theorem or_certified {N : Set (Node α)} {next : Id} (roster : Roster N next) {e : Expr α}
    (he : .expr e ∈ N) :
    Obstructs vars (.expr e) ∨ e.curvature vars = .constant ∨ e.curvature vars = .affine := by
  induction e with
  | var x =>
      cases fixed : (vars.state x).fixed with
      | true => exact .inr (.inl (curvature_var_eq_constant_iff.mpr fixed))
      | false => exact .inr (.inr (VarState.curvature_eq_affine_iff.mpr fixed))
  | const c => exact .inr (.inl rfl)
  | stub s => exact (roster.no_stub s he).elim
  | kron id a b _ ihb =>
      by_cases left : a.curvature vars = .constant
      · by_cases right : b.curvature vars = .constant
        · exact .inr (.inl (curvature_kron_eq_constant_iff.mpr ⟨left, right⟩))
        · rcases ihb (roster.kron he).2 with obstructs | constant | affine
          · exact .inl (obstructs.pass (.right left right))
          · exact (right constant).elim
          · exact .inr (.inr (curvature_kron_affine left affine))
      · exact .inl (.here left)

theorem of_notDcp {N : Set (Node α)} {next : Id} (roster : Roster N next) {e : Expr α}
    (he : .expr e ∈ N) (notDcp : e.curvature vars = .notDcp) :
    Obstructs vars (.expr e) := by
  have certified : Obstructs vars (.expr e) ∨ e.curvature vars = .constant ∨
      e.curvature vars = .affine := or_certified roster he
  rcases certified with obstructs | constant | affine
  · exact obstructs
  · cases constant.symm.trans notDcp
  · cases affine.symm.trans notDcp

end Obstructs

variable [Scalar α] {vars : Vars α} {N : Set (Node α)} {next : Id}

/-! ## Objectives that fit -/

/-- An objective of so many rows over free variables. -/
structure Objective.Fits (vars : Vars α) (N : Set (Node α)) (n : Nat) (o : Objective α) :
    Prop where
  formed : o.Formed n
  about : o.Over (FreeLength vars N)

theorem Objective.Fits.ofConstant {A : Numeric Dense α} {r c : Nat}
    (shape : A.on Dense.shape = (r, c)) : (Objective.ofConstant A).Fits vars N (r * c) :=
  ⟨Objective.formed_ofConstant A shape, Objective.over_ofConstant _ A⟩

theorem Objective.Fits.ofVariable (h : Coherent vars N next) {x : Variable}
    (hx : .expr (.var x) ∈ N) (free : (vars.state x).fixed = false) (sign : Sign) :
    (Objective.ofVariable x sign : Objective α).Fits vars N (x.rows * x.cols) :=
  ⟨Objective.formed_ofVariable (h.roster.ne_constantKey hx) sign,
    Objective.over_ofVariable sign ⟨x, hx, free, rfl, rfl⟩⟩

namespace Coherent

omit [Scalar α] in
/-- Variables are told apart by identity, so under one identity there is one length. -/
theorem oneWidth (h : Coherent vars N next) : Objective.OneWidth (FreeLength vars N) := by
  rintro i m n ⟨x, hx, -, rfl, rfl⟩ ⟨y, hy, -, same, rfl⟩
  cases h.roster.expr_unique hx hy same.symm
  rfl

/-- What is compiled of the right operand is as high as the operator of the left one is
wide. -/
theorem product_total (h : Coherent vars N next) {id : Id} {a b : Expr α}
    (hn : .expr (.kron id a b) ∈ N) (left : a.curvature vars = .constant)
    {child : Objective α} (below : child.Fits vars N b.length) :
    ∃ o, Expr.product vars a b child = .ok o ∧ o.Fits vars N (Expr.kron id a b).length := by
  have ha : .expr a ∈ N := (h.roster.kron hn).1
  obtain ⟨v, hv⟩ := h.exists_value ha left
  have shape : v.shape = a.shape := h.shape_of_evaluate ha hv
  have length : (Expr.kron id a b).length
      = v.shape.1 * b.shape.1 * (v.shape.2 * b.shape.2) := by
    rw [shape]
    rfl
  obtain ⟨o, ho⟩ := Objective.premultiply_total below.formed (v.cols_operator b.shape.1 b.shape.2)
  have formed : o.Formed (Expr.kron id a b).length := by
    rw [length, ← v.rows_operator]
    exact below.formed.premultiply ho
  refine ⟨o, Expr.product_ok.mpr ⟨_, v, rfl, hv, ?_⟩, formed, below.about.premultiply ho⟩
  exact Outcome.mapError_ok.mpr ho

end Coherent

/-! ## Forms of nodes -/

/-- An expression has a form that fits, or a bad product is in the way. -/
def Expr.Settles (vars : Vars α) (N : Set (Node α)) (e : Expr α) : Prop :=
  (∃ o : Objective α, e.form vars = .ok o ∧ o.Fits vars N e.length) ∨
    (e.form vars : Except (Fault α) (Objective α)) = .error .kronLeft ∧ Obstructs vars (.expr e)

theorem Coherent.settles (h : Coherent vars N next) {e : Expr α} (he : .expr e ∈ N) :
    e.Settles vars N := by
  have of_constant {e : Expr α} (he : .expr e ∈ N) (constant : e.curvature vars = .constant) :
      e.Settles vars N := by
    obtain ⟨v, hv⟩ := h.exists_value he constant
    exact .inl ⟨_, (Expr.form_constant h he constant).trans (Expr.constantForm_ok hv),
      .ofConstant (h.shape_of_evaluate he hv)⟩
  induction e with
  | const c => exact of_constant he rfl
  | stub s => exact (h.roster.no_stub s he).elim
  | var x =>
      cases fixed : (vars.state x).fixed with
      | true => exact of_constant he (curvature_var_eq_constant_iff.mpr fixed)
      | false => exact .inl ⟨_, Expr.form_free fixed, .ofVariable h he fixed _⟩
  | kron id a b _ ihb =>
      by_cases left : a.curvature vars = .constant
      · by_cases right : b.curvature vars = .constant
        · exact of_constant he (curvature_kron_eq_constant_iff.mpr ⟨left, right⟩)
        · unfold Expr.Settles
          rw [Expr.form_kron left right]
          rcases ihb (h.roster.kron he).2 with ⟨child, form, fits⟩ | ⟨form, obstructs⟩
          · obtain ⟨o, product, fits⟩ := h.product_total he left fits
            exact .inl ⟨o, Outcome.except_bind_ok.mpr ⟨child, form, product⟩, fits⟩
          · exact .inr ⟨Outcome.except_bind_error.mpr (.inl form),
              obstructs.pass (.right left right)⟩
      · exact .inr ⟨Expr.form_left left, .here left⟩

/-- A form fits. -/
theorem Coherent.fits_of_form (h : Coherent vars N next) {e : Expr α} (he : .expr e ∈ N)
    {o : Objective α} (form : e.form vars = .ok o) : o.Fits vars N e.length := by
  rcases h.settles he with ⟨o', form', fits⟩ | ⟨error, -⟩
  · cases form.symm.trans form'
    exact fits
  · cases form.symm.trans error

/-- Sides that fit have a difference. -/
theorem Coherent.between_total (h : Coherent vars N next) {c : Constraint α}
    (shapes : c.lhs.shape = c.rhs.shape) {l r : Objective α} (hl : l.Fits vars N c.lhs.length)
    (hr : r.Fits vars N c.rhs.length) : ∃ s, c.between vars l r = .ok s := by
  have length : c.rhs.length = c.lhs.length := by rw [Expr.length, ← shapes]; rfl
  obtain ⟨d, hd⟩ := Objective.sub_total h.oneWidth hl.formed (length ▸ hr.formed) hl.about hr.about
  have difference : Compiled.sub l r = .ok d := Outcome.mapError_ok.mpr hd
  obtain ⟨s, hs⟩ : ∃ s, c.lower vars d = .ok s := by
    unfold Constraint.lower
    split <;> exact ⟨_, rfl⟩
  exact ⟨s, Outcome.except_bind_ok.mpr ⟨d, difference, hs⟩⟩

/-- A constraint is only refused for a bad product in the way of one of its sides. -/
theorem Coherent.form_constraint_error (h : Coherent vars N next) {c : Constraint α}
    (shapes : c.lhs.shape = c.rhs.shape) (hl : c.lhs.Settles vars N) (hr : c.rhs.Settles vars N)
    {f : Fault α} (error : c.form (Objective α) vars = .error f) :
    f = .kronLeft ∧ (Obstructs vars (.expr c.lhs) ∨ Obstructs vars (.expr c.rhs)) := by
  rcases hl with ⟨l, form_l, fits_l⟩ | ⟨form_l, obstructs⟩
  · rcases hr with ⟨r, form_r, fits_r⟩ | ⟨form_r, obstructs⟩
    · obtain ⟨s, hs⟩ := h.between_total shapes fits_l fits_r
      have form : c.form (Objective α) vars = .ok s :=
        Outcome.except_bind_ok.mpr ⟨l, form_l, Outcome.except_bind_ok.mpr ⟨r, form_r, hs⟩⟩
      cases form.symm.trans error
    · have form : c.form (Objective α) vars = .error .kronLeft :=
        Outcome.except_bind_error.mpr
          (.inr ⟨l, form_l, Outcome.except_bind_error.mpr (.inl form_r)⟩)
      cases form.symm.trans error
      exact ⟨rfl, .inr obstructs⟩
  · have form : c.form (Objective α) vars = .error .kronLeft :=
      Outcome.except_bind_error.mpr (.inl form_l)
    cases form.symm.trans error
    exact ⟨rfl, .inl obstructs⟩

theorem Expr.Settles.const (k : Constant α) : (Expr.const k).Settles vars N :=
  .inl ⟨_, Expr.constantForm_ok rfl, .ofConstant rfl⟩

/-- What is in the way of a node is to blame for its refusal. -/
theorem Obstructs.blames {n : Node α} (h : Obstructs vars n) :
    Blames (Objective α) vars .kronLeft n := by
  obtain ⟨id, a, b, reaches, left⟩ := h
  exact ⟨_, reaches, .expr (Expr.form_left left)⟩

/-- Where only constraints are attached, a faulty node has a bad product in its way. -/
theorem Faulty.obstructs {w : World α} (reachable : Reachable w) (only : w.AttachesConstraints)
    {n : Node α} (hn : n ∈ w.nodes) {f : Fault α}
    (faulty : Faulty (Objective α) w.vars n f) : f = .kronLeft ∧ Obstructs w.vars n := by
  have coherent := reachable.sound.coherent
  cases faulty with
  | expr error =>
      rcases coherent.settles hn with ⟨o, form, -⟩ | ⟨form, obstructs⟩
      · cases form.symm.trans error
      · cases form.symm.trans error
        exact ⟨rfl, obstructs⟩
  | @constraint c _ error =>
      obtain ⟨hl, hr⟩ := coherent.roster.sides hn
      obtain ⟨fault, obstructs⟩ := coherent.form_constraint_error (coherent.roster.shapes c hn)
        (coherent.settles hl) (coherent.settles hr) error
      exact ⟨fault, obstructs.elim (·.pass (.lhs c)) (·.pass (.rhs c))⟩
  | @foreign x d free mem =>
      obtain ⟨c, hc⟩ := only x hn _ mem
      cases hc
  | @sign x c _ signed isSignOf error =>
      -- The sides are the variable, which is free, and a zero.
      obtain ⟨k, hk, value⟩ := isSignOf.rhs
      have lhs : c.lhs.Settles w.vars w.nodes := isSignOf.lhs ▸ coherent.settles hn
      have rhs : c.rhs.Settles w.vars w.nodes := hk ▸ .const k
      obtain ⟨fault, obstructs | obstructs⟩ :=
        coherent.form_constraint_error isSignOf.shapes lhs rhs error
      · exact ⟨fault, isSignOf.lhs ▸ obstructs⟩
      · rw [hk] at obstructs
        exact (obstructs.not_const k).elim

/-! ## Refusals -/

section Refusals

variable {w : World α} (reachable : Reachable w) {n : Node α} (made : n ∈ w.nodes)

include reachable made

/-- A refusal is for a product that a walk comes to. -/
theorem obstructs_of_refused (only : w.AttachesConstraints) {f : Fault α}
    {q : Pass (Objective α) (Record α)}
    (h : compileNode w.vars n ⟨w.ledger, {}⟩ = .error f q) :
    f = .kronLeft ∧ Obstructs w.vars n := by
  have coherent := reachable.sound.coherent
  obtain ⟨m, hm, faulty⟩ := Node.task_blames.mp ((refused_of_compileNode h).blames coherent
    (Node.task_within.mpr made) (.of_empty _ rfl))
  obtain ⟨fault, obstructs⟩ := faulty.obstructs reachable only (hm.mem coherent made)
  exact ⟨fault, obstructs.of_reaches hm⟩

/-- Nothing gets past a bad product that a walk comes to. -/
theorem refused_of_obstructs (only : w.AttachesConstraints) (h : Obstructs w.vars n) : ∃ q,
    compileNode w.vars n (⟨w.ledger, {}⟩ : Pass (Objective α) (Record α))
      = .error .kronLeft q := by
  cases compiled : compileNode w.vars n (⟨w.ledger, {}⟩ : Pass (Objective α) (Record α)) with
  | error f q =>
      obtain ⟨rfl, -⟩ := obstructs_of_refused reachable made only compiled
      exact ⟨q, rfl⟩
  | ok x q =>
      obtain ⟨id, a, b, reaches, left⟩ := h
      obtain ⟨S, filled⟩ := Filled.of_compileNode reachable made compiled
      have closure : Closure w.vars S {k | k ∈ [n]} (.expr (.kron id a b)) :=
        reaches.closure List.mem_cons_self S
      obtain ⟨o, -, form⟩ := filled.expr closure
      cases form.symm.trans (Expr.form_left left)

end Refusals

/-- Compiling a node into an empty cache is refused exactly if a walk from it comes to a
product whose left operand is not constant, and only for such a product.  What the rules
certify nothing of is always refused. -/
theorem compilation_refused_iff {w : World α} (reachable : Reachable w)
    (only : w.AttachesConstraints) {n : Node α} (made : n ∈ w.nodes) :
    ((∃ f q, compileNode w.vars n (⟨w.ledger, {}⟩ : Pass (Objective α) (Record α)) = .error f q) ↔
      ∃ id a b, Reaches w.vars n (.expr (.kron id a b)) ∧ a.curvature w.vars ≠ .constant) ∧
    (∀ f q, compileNode w.vars n (⟨w.ledger, {}⟩ : Pass (Objective α) (Record α)) = .error f q →
      f = .kronLeft) ∧
    (∀ e, n = .expr e → e.curvature w.vars = .notDcp →
      ∃ q, compileNode w.vars n (⟨w.ledger, {}⟩ : Pass (Objective α) (Record α))
        = .error .kronLeft q) ∧
    Fault.message .kronLeft = some "kron requires a constant left operand" := by
  refine ⟨⟨?_, ?_⟩, ?_, ?_, rfl⟩
  · rintro ⟨f, q, refused⟩
    exact (obstructs_of_refused reachable made only refused).2
  · intro obstructs
    exact ⟨_, refused_of_obstructs reachable made only obstructs⟩
  · intro f q refused
    exact (obstructs_of_refused reachable made only refused).1
  · rintro e rfl notDcp
    exact refused_of_obstructs reachable made only
      (.of_notDcp reachable.sound.coherent.roster made notDcp)

/-! ### A freed operand

A product of two variables is made while the left one is held, a bound on it is attached to
the right one, and then the left one is freed. -/

namespace Freed

def y : Variable := ⟨1, 1, 1, .main⟩

def x : Variable := ⟨2, 1, 1, .main⟩

def product : Expr ℚ := .kron 3 (.var y) (.var x)

def bound : Constraint ℚ :=
  ⟨4, .atLeast, product, .const ⟨5, .real (.replicate 1 1 0), .positive⟩⟩

def first : World ℚ where
  model := {
    ledger := { nextId := 2 }
    vars := [(1, {})]
    contexts := [(.main, [.expr (.var y)])] }
  nodes := {.expr (.var y)}

def both : World ℚ where
  model := {
    ledger := { nextId := 3 }
    vars := [(1, {}), (2, {})]
    contexts := [(.main, [.expr (.var y), .expr (.var x)])] }
  nodes := insert (.expr (.var x)) first.nodes

def held : World ℚ where
  model := { both.model with
    vars := [(1, { value := some (.number (.real 2)), fixed := true }), (2, {})] }
  nodes := both.nodes

def attached : World ℚ where
  model := { held.model with
    ledger := { nextId := 6 }
    vars := [(1, { value := some (.number (.real 2)), fixed := true }),
      (2, { attached := [.node (.constraint bound)] })] }
  nodes := gain (gain both.nodes (.expr product)) (.constraint bound)

def world : World ℚ where
  model := { attached.model with
    vars := [(1, { value := some (.number (.real 2)) }),
      (2, { attached := [.node (.constraint bound)] })] }
  nodes := attached.nodes

theorem both_reachable : Reachable both := by
  let scalar : VariableSpec ℚ := { shape := .ofInt 1 }
  have hy : scalar.declare [] {} = .ok y first.model := rfl
  have hx : scalar.declare [] first.model = .ok x both.model := rfl
  have declared : Reachable first := by
    simpa only [first, insert_empty_eq] using Reachable.start.declare_plain hy rfl
  exact declared.declare_plain hx rfl

theorem y_declared : .expr (.var y) ∈ both.nodes := .inr rfl

theorem x_declared : .expr (.var x) ∈ both.nodes := .inl rfl

theorem attached_reachable : Reachable attached := by
  have held : Reachable held := both_reachable.next <| .change _ y _ held.model y_declared
    (.fixAt (.ofInt 2)) (by with_unfolding_all rfl)
  have multiplied := held.next <| .kron _ (.thing 0 (.expr (.var y))) (.thing 0 (.expr (.var x)))
    product { nextId := 4 } (Roster.offers_expr y_declared) (Roster.offers_expr x_declared)
    (by with_unfolding_all rfl)
  have bounded := multiplied.next <| .constraint _ .atLeast (.thing 0 (.expr product)) (.ofInt 0)
    bound { nextId := 6 } (Roster.offers_expr (mem_gain _ _)) (Roster.offers_int _ 0)
    (by with_unfolding_all rfl)
  exact bounded.next <| .change _ x _ attached.model
    (subset_gain _ _ (subset_gain _ _ x_declared))
    (.attached [.node (.constraint bound)] fun n hn => by
      cases List.mem_singleton.mp hn
      exact mem_gain _ _) rfl

theorem y_made : .expr (.var y) ∈ attached.nodes := subset_gain _ _ (subset_gain _ _ y_declared)

theorem frees : Step attached world := .change _ y _ world.model y_made .free rfl

theorem world_reachable : Reachable world := attached_reachable.next frees

theorem x_made : .expr (.var x) ∈ world.nodes := subset_gain _ _ (subset_gain _ _ x_declared)

theorem product_made : .expr product ∈ world.nodes := subset_gain _ _ (mem_gain _ _)

theorem attachesConstraints : world.AttachesConstraints := by
  intro z hz item hitem
  have hz : z = y ∨ z = x := by
    simpa [world, attached, both, first, gain, Node.children, bound, product, or_comm] using hz
  rcases hz with rfl | rfl
  · cases hitem
  · exact ⟨bound, List.mem_singleton.mp hitem⟩

end Freed

/-- The right operand leads to the bound, and the bound to the product. -/
theorem freed_refused : ∃ q,
    compileNode Freed.world.vars (.expr (.var Freed.x))
        (⟨Freed.world.ledger, {}⟩ : Pass (Objective ℚ) (Record ℚ)) = .error .kronLeft q ∧
      ∃ id a b, Reaches Freed.world.vars (.expr (.var Freed.x)) (.expr (.kron id a b)) ∧
        a.curvature Freed.world.vars ≠ .constant := by
  obtain ⟨q, refused⟩ : ∃ q, compileNode Freed.world.vars (.expr (.var Freed.x))
      (⟨Freed.world.ledger, {}⟩ : Pass (Objective ℚ) (Record ℚ)) = .error .kronLeft q :=
    ⟨_, by with_unfolding_all rfl⟩
  exact ⟨q, refused, (compilation_refused_iff Freed.world_reachable Freed.attachesConstraints
    Freed.x_made).1.mp ⟨_, q, refused⟩⟩

end ConicModel
