/-
# Products of products compile like one product

`A ⊗ (C ⊗ e)` and `(A ⊗ C) ⊗ e` for constant matrices `A` and `C` have one shape and one
curvature, they evaluate alike, and they compile to objectives with the same keys and the same
matrices (`nested_products_compile_alike`).

If `e` is constant at this moment, both are compiled by their values, and these are the same.
If it is not, the objective of `e` is multiplied twice or once, which comes to the same.

That the products compile at all needs an argument of its own, because the notices given on
the way are not the same.  A refusal would be for a faulty node that is reached from `e`
(`Refused.blames`), and the pass that compiled `e` has been there.  It has also gone through
everything attached to the free variables it has entered (`Run.attends`), so nothing foreign is
attached to these.
-/
import Mathlib.Algebra.Order.Ring.Rat
import ConicModel.Proofs.Compile.Failure
import ConicModel.Proofs.Objective.Composition

namespace ConicModel

variable {α : Type}

/-! ## Nothing foreign is attached to what was compiled -/

section Attached

variable {κ ρ : Type} {vars : Vars α} {N M : Set (Node α)}
  {p q s : Pass κ ρ}

/-- Only nodes are attached to the free variables that were entered between two passes. -/
def Attends (vars : Vars α) (N : Set (Node α)) (p q : Pass κ ρ) : Prop :=
  ∀ x, .expr (.var x) ∈ N → (vars.state x).fixed = false →
    q.Holds (Node.expr (.var x : Expr α)).key →
    p.Holds (Node.expr (.var x : Expr α)).key ∨ ∀ d, .foreign d ∉ (vars.state x).attached

namespace Attends

theorem refl (vars : Vars α) (N : Set (Node α)) (p : Pass κ ρ) : Attends vars N p p :=
  fun _ _ _ held => .inl held

theorem trans (h : Attends vars N p q) (h' : Attends vars N q s) : Attends vars N p s := by
  intro x hx free held
  rcases h' x hx free held with before | nodes
  · exact h x hx free before
  · exact .inr nodes

theorem mono (h : Attends vars M p q) (sub : N ⊆ M) : Attends vars N p q :=
  fun x hx => h x (sub hx)

/-- The entry is not one of a free variable. -/
theorem enterExpr (h : Attends vars N p q) {next : Id} (roster : Roster N next) {e : Expr α}
    (he : .expr e ∈ N) (other : ∀ x, e = .var x → (vars.state x).fixed = true) (o : κ) :
    Attends vars N p (q.enterExpr e.id o) := by
  intro x hx free held
  rcases Pass.holds_enterExpr.mp held with before | here
  · exact h x hx free before
  · cases roster.expr_unique hx he (Key.expr.inj here)
    cases free.symm.trans (other x rfl)

end Attends

variable [Scalar α] [Compiled α κ ρ]

/-- Whoever has gone through a list has met nothing foreign. -/
theorem Run.no_foreign {items : List (Attached α)} (h : Run (κ := κ) vars (.attached items) p q)
    (d : Input α) : .foreign d ∉ items := by
  induction items generalizing p with
  | nil => exact List.not_mem_nil
  | cons item items ih =>
      intro mem
      cases h with
      | constraint first rest =>
          rcases List.mem_cons.mp mem with mem | mem
          · cases mem
          · exact ih rest mem
      | expr first rest =>
          rcases List.mem_cons.mp mem with mem | mem
          · cases mem
          · exact ih rest mem

theorem Run.attends {job : Job α κ ρ} (h : Run vars job p q)
    (coherent : Coherent vars N p.ledger.nextId) (within : job.Within N) :
    Attends vars N p q := by
  induction h generalizing N with
  | known | lowered | nil | unsigned => exact .refl vars N _
  | @constant e v p doubts new constant value =>
      refine Attends.enterExpr (p := p) (q := p.note doubts) (.refl vars N p) coherent.roster
        within (fun x hx => ?_) _
      exact curvature_var_eq_constant_iff.mp (hx ▸ constant)
  | stub => exact (coherent.roster.no_stub _ within).elim
  | @free x p q q' new free sign attached ih ih' =>
      obtain ⟨S, brought, -⟩ := sign.delivers N coherent within
        (VarState.curvature_eq_affine_iff.mpr free) (Pass.holds_enterExpr.mpr (.inr rfl))
      have items := (coherent.respects x within).attached
      have below := (ih coherent within).trans
        ((ih' brought.coherent fun n hn => subset_joined N S (items n hn)).mono
          (subset_joined N S))
      intro y hy free' held
      rcases below y hy free' held with before | nodes
      · rcases Pass.holds_enterExpr.mp before with older | here
        · exact .inl older
        · -- It is the variable itself, and its list was gone through.
          cases coherent.roster.expr_unique hy within (Key.expr.inj here)
          exact .inr attached.no_foreign
      · exact .inr nodes
  | @product id a b child o times v p q doubts new left right below still_new hasProducts value
      product ih =>
      exact (ih (N := N) coherent (coherent.roster.kron within).2).enterExpr coherent.roster
        within (fun x hx => by cases hx) o
  | productMet doubts new left right below met ih =>
      exact ih (N := N) coherent (coherent.roster.kron within).2
  | @lower c l r d s p q q' new lhs rhs difference lower still_new ih ih' =>
      obtain ⟨hl, hr⟩ := coherent.roster.sides within
      obtain ⟨S, brought⟩ := lhs.delivers N coherent (Set.singleton_subset_iff.mpr hl)
      have both := (ih coherent hl).trans
        ((ih' brought.coherent (subset_joined N S hr)).mono (subset_joined N S))
      intro x hx free held
      rcases Pass.holds_enterConstraint.mp held with before | here
      · exact both x hx free before
      · cases here
  | @lowerMet c l r s p q q' new lhs rhs met ih ih' =>
      obtain ⟨hl, hr⟩ := coherent.roster.sides within
      obtain ⟨S, brought⟩ := lhs.delivers N coherent (Set.singleton_subset_iff.mpr hl)
      exact (ih coherent hl).trans
        ((ih' brought.coherent (subset_joined N S hr)).mono (subset_joined N S))
  | @signed x c r l p q yes made lowered ih =>
      have gained := coherent.roster.gain_sign coherent.pos within made
      exact (ih (coherent.gain gained) (mem_gain N _)).mono (subset_gain N _)
  | @constraint c r items p q q' first rest ih ih' =>
      have hc : .constraint c ∈ N := within _ List.mem_cons_self
      obtain ⟨S, brought⟩ := first.delivers N coherent (Set.singleton_subset_iff.mpr hc)
      exact (ih coherent hc).trans ((ih' brought.coherent fun n hn =>
        subset_joined N S (within n (List.mem_cons_of_mem _ hn))).mono (subset_joined N S))
  | @expr e o items p q q' first rest ih ih' =>
      have he : .expr e ∈ N := within _ List.mem_cons_self
      obtain ⟨S, brought⟩ := first.delivers N coherent (Set.singleton_subset_iff.mpr he)
      exact (ih coherent he).trans ((ih' brought.coherent fun n hn =>
        subset_joined N S (within n (List.mem_cons_of_mem _ hn))).mono (subset_joined N S))

/-- Nothing is faulty that is reached from a node that was compiled into an empty cache. -/
theorem not_faulty_of_compiled {w : World α} (reachable : Reachable w) {n m : Node α}
    (made : n ∈ w.nodes) {x : Returned κ ρ} {q : Pass κ ρ}
    (compiled : compileNode w.vars n ⟨w.ledger, {}⟩ = .ok x q) (reaches : Reaches w.vars n m)
    (f : Fault α) : ¬Faulty κ w.vars m f := by
  have coherent := reachable.sound.coherent
  have run := (Run.cons_of_compileNode compiled .nil).1
  have attends := run.attends coherent fun k hk => by
    cases List.mem_singleton.mp hk
    exact made
  obtain ⟨S, filled⟩ := Filled.of_compileNode reachable made compiled
  have closure : Closure w.vars S {k | k ∈ [n]} m := reaches.closure List.mem_cons_self S
  have hm : m ∈ w.nodes := reaches.mem coherent made
  refine filled.not_faulty_of_attached closure (fun y d hy free => ?_) f
  subst hy
  rcases attends y hm free ((filled.closure.entries _).mpr ⟨_, closure, rfl⟩) with before | nodes
  · cases before
  · exact nodes d

/-- What an expression is compiled to is its form. -/
theorem form_of_compiled {w : World α} (reachable : Reachable w) {e : Expr α}
    (made : .expr e ∈ w.nodes) {o : κ} {q : Pass κ ρ}
    (compiled : compileExpr w.vars e ⟨w.ledger, {}⟩ = .ok o q) : e.form w.vars = .ok o := by
  have run := run_of_compileExpr compiled
  obtain ⟨S, brought⟩ := run.delivers w.nodes reachable.sound.coherent
    (Set.singleton_subset_iff.mpr made)
  exact (brought.tells (.of_empty w.nodes rfl)).form brought.coherent
    (subset_joined w.nodes S made) run.done

end Attached

/-! ## One product -/

section Products

variable [Scalar α]

omit [Scalar α] in
/-- From a product a walk comes to the right operand, and to nothing that is not reached from
there. -/
theorem Reaches.of_product {vars : Vars α} {id : Id} {a b : Expr α} {m : Node α}
    (h : Reaches vars (.expr (.kron id a b)) m) :
    m = .expr (.kron id a b) ∨ Reaches vars (.expr b) m := by
  rcases Relation.ReflTransGen.cases_head h with same | ⟨k, step, rest⟩
  · exact .inl same.symm
  · cases step
    exact .inr rest

/-- A product with a constant matrix compiles if its right operand does. -/
theorem product_compiles {w : World α} (reachable : Reachable w) {id : Id} {a : Constant α}
    {e : Expr α} (made : .expr (.kron id (.const a) e) ∈ w.nodes)
    (compiles : ∃ (o : Objective α) (q : Pass (Objective α) (Record α)),
      compileExpr w.vars e ⟨w.ledger, {}⟩ = .ok o q) :
    ∃ (o : Objective α) (q : Pass (Objective α) (Record α)),
      compileExpr w.vars (.kron id (.const a) e) ⟨w.ledger, {}⟩ = .ok o q := by
  have coherent := reachable.sound.coherent
  have he : .expr e ∈ w.nodes := (coherent.roster.kron made).2
  obtain ⟨o, q, compiled⟩ := compiles
  have below (m : Node α) (f : Fault α) (hm : Reaches w.vars (.expr e) m) :
      ¬Faulty (Objective α) w.vars m f :=
    not_faulty_of_compiled reachable he (Outcome.map_ok.mpr ⟨o, compiled, rfl⟩) hm f
  cases call : compileExpr w.vars (.kron id (.const a) e)
      (⟨w.ledger, {}⟩ : Pass (Objective α) (Record α)) with
  | ok o' q' => exact ⟨o', q', rfl⟩
  | error f q' =>
      exfalso
      have refused : compileNode w.vars (.expr (.kron id (.const a) e)) ⟨w.ledger, {}⟩
          = .error f q' := Outcome.map_error.mpr call
      obtain ⟨m, hm, faulty⟩ := Node.task_blames.mp ((refused_of_compileNode refused).blames
        coherent (Node.task_within.mpr made) (.of_empty _ rfl))
      rcases hm.of_product with rfl | hm
      · -- The product has a form, or a bad product is in its way, which is below it.
        cases faulty with
        | expr error =>
            rcases coherent.settles made with ⟨o', form, -⟩ | ⟨-, j, b, c, hm, left⟩
            · cases form.symm.trans error
            · rcases hm.of_product with same | hm
              · cases same
                exact left rfl
              · exact below _ .kronLeft hm (.expr (Expr.form_left left))
      · exact below m f hm faulty

/-! ## Two products -/

variable {i j k : Id} {a c d : Constant α} {e : Expr α}

theorem shape_nested (product : d.value = a.value.map₂ Dense.kron c.value) :
    (Expr.kron i (.const a) (.kron j (.const c) e)).shape = (Expr.kron k (.const d) e).shape := by
  have shape : d.shape = (a.shape.1 * c.shape.1, a.shape.2 * c.shape.2) := by
    rw [Constant.shape, product, Numeric.shape_kron]
    rfl
  simp only [Expr.shape, shape, Nat.mul_assoc]

omit [Scalar α] in
/-- Two products are constant or affine with their right operand. -/
theorem curvature_nested {vars : Vars α}
    (certified : e.curvature vars = .constant ∨ e.curvature vars = .affine) :
    (Expr.kron i (.const a) (.kron j (.const c) e)).curvature vars
      = (Expr.kron k (.const d) e).curvature vars := by
  have left (b : Constant α) : (Expr.const b).curvature vars = .constant := rfl
  rcases certified with constant | affine
  · rw [curvature_kron_eq_constant_iff.mpr ⟨left d, constant⟩]
    exact curvature_kron_eq_constant_iff.mpr
      ⟨left a, curvature_kron_eq_constant_iff.mpr ⟨left c, constant⟩⟩
  · rw [curvature_kron_affine (left d) affine]
    exact curvature_kron_affine (left a) (curvature_kron_affine (left c) affine)

variable [LawfulEntry α]

theorem evaluate_nested (product : d.value = a.value.map₂ Dense.kron c.value) (vars : Vars α) :
    (Expr.kron i (.const a) (.kron j (.const c) e)).evaluate vars
      = (Expr.kron k (.const d) e).evaluate vars := by
  cases value : e.evaluate vars with
  | error u => simp only [Expr.evaluate, value]; rfl
  | ok v =>
      have same : a.value.map₂ Dense.kron (c.value.map₂ Dense.kron v.toMatrix)
          = d.value.map₂ Dense.kron v.toMatrix := by
        rw [product, Numeric.kron_assoc]
      simp only [Expr.evaluate, value]
      exact congrArg (fun A => Except.ok (Value.matrix A)) same

/-- What the two products are compiled to. -/
theorem agree_nested {vars : Vars α} {N : Set (Node α)} {next : Id}
    (coherent : Coherent vars N next)
    (nested : .expr (.kron i (.const a) (.kron j (.const c) e)) ∈ N)
    (flat : .expr (.kron k (.const d) e) ∈ N)
    (product : d.value = a.value.map₂ Dense.kron c.value) {twice once : Objective α}
    (form : (Expr.kron i (.const a) (.kron j (.const c) e)).form vars = .ok twice)
    (form' : (Expr.kron k (.const d) e).form vars = .ok once) : twice.Agree once := by
  have left (b : Constant α) : (Expr.const b).curvature vars = .constant := rfl
  have he : .expr e ∈ N := (coherent.roster.kron flat).2
  by_cases constant : e.curvature vars = .constant
  · have inner : (Expr.kron j (.const c) e).curvature vars = .constant :=
      curvature_kron_eq_constant_iff.mpr ⟨left c, constant⟩
    rw [Expr.form_constant coherent nested
      (curvature_kron_eq_constant_iff.mpr ⟨left a, inner⟩), Expr.constantForm,
      evaluate_nested (k := k) product vars] at form
    rw [Expr.form_constant coherent flat
      (curvature_kron_eq_constant_iff.mpr ⟨left d, constant⟩), Expr.constantForm] at form'
    cases form.symm.trans form'
    exact .refl _
  · have inner : (Expr.kron j (.const c) e).curvature vars ≠ .constant :=
      fun h => constant (curvature_kron_eq_constant_iff.mp h).2
    rw [Expr.form_kron (left a) inner, Expr.form_kron (left c) constant] at form
    rw [Expr.form_kron (left d) constant] at form'
    obtain ⟨middle, below, second⟩ := Outcome.except_bind_ok.mp form
    obtain ⟨child, formed, first⟩ := Outcome.except_bind_ok.mp below
    obtain ⟨child', formed', single⟩ := Outcome.except_bind_ok.mp form'
    cases formed.symm.trans formed'
    obtain ⟨_, _, ⟨⟩, ⟨⟩, first⟩ := Expr.product_ok.mp first
    obtain ⟨_, _, ⟨⟩, ⟨⟩, second⟩ := Expr.product_ok.mp second
    obtain ⟨_, _, ⟨⟩, ⟨⟩, single⟩ := Expr.product_ok.mp single
    have composes := Numeric.composes a.value c.value (m := e.shape.1) (n := e.shape.2)
      (s := c.shape.1) (t := c.shape.2) rfl
    rw [← product] at composes
    refine Objective.agree_premultiply composes ?_ (Outcome.mapError_ok.mp first)
      (Outcome.mapError_ok.mp second) (Outcome.mapError_ok.mp single)
    rw [show Coeffs.cols (c.value.map fun C => kroneckerOperator C e.shape.1 e.shape.2)
      = e.length from (Value.matrix c.value).cols_operator _ _]
    exact (coherent.fits_of_form he formed).formed

/-- A product with a product and the product with the flattened matrix: for all constant
matrices and every expression that compiles they have one shape and one curvature, compile to
the same keys with the same matrices, and evaluate alike. -/
theorem nested_products_compile_alike {w : World α} (reachable : Reachable w)
    (nested : .expr (.kron i (.const a) (.kron j (.const c) e)) ∈ w.nodes)
    (flat : .expr (.kron k (.const d) e) ∈ w.nodes)
    (product : d.value = a.value.map₂ Dense.kron c.value)
    (compiles : ∃ (o : Objective α) (q : Pass (Objective α) (Record α)),
      compileExpr w.vars e ⟨w.ledger, {}⟩ = .ok o q) :
    (Expr.kron i (.const a) (.kron j (.const c) e)).shape = (Expr.kron k (.const d) e).shape ∧
    (Expr.kron i (.const a) (.kron j (.const c) e)).curvature w.vars
      = (Expr.kron k (.const d) e).curvature w.vars ∧
    (∃ (twice once : Objective α) (q q' : Pass (Objective α) (Record α)),
      compileExpr w.vars (.kron i (.const a) (.kron j (.const c) e)) ⟨w.ledger, {}⟩
          = .ok twice q ∧
        compileExpr w.vars (.kron k (.const d) e) ⟨w.ledger, {}⟩ = .ok once q' ∧
        twice.Agree once) ∧
    (Expr.kron i (.const a) (.kron j (.const c) e)).evaluate w.vars
      = (Expr.kron k (.const d) e).evaluate w.vars := by
  have coherent := reachable.sound.coherent
  have inner := (coherent.roster.kron nested).2
  have he : .expr e ∈ w.nodes := (coherent.roster.kron flat).2
  refine ⟨shape_nested product, ?curvature, ?objectives, evaluate_nested product w.vars⟩
  case curvature =>
    refine curvature_nested ?_
    have verdict : Obstructs w.vars (.expr e) ∨ e.curvature w.vars = .constant ∨
        e.curvature w.vars = .affine := Obstructs.or_certified coherent.roster he
    rcases verdict with obstructs | certified
    · obtain ⟨o, q, compiled⟩ := compiles
      obtain ⟨m, hm, faulty⟩ := obstructs.blames
      exact (not_faulty_of_compiled reachable he (Outcome.map_ok.mpr ⟨o, compiled, rfl⟩) hm _
        faulty).elim
    · exact certified
  case objectives =>
    obtain ⟨twice, q, compiled⟩ :=
      product_compiles reachable nested (product_compiles reachable inner compiles)
    obtain ⟨once, q', compiled'⟩ := product_compiles reachable flat compiles
    exact ⟨twice, once, q, q', compiled, compiled', agree_nested coherent nested flat product
      (form_of_compiled reachable nested compiled) (form_of_compiled reachable flat compiled')⟩

end Products

/-! ### A real matrix times a complex one -/

namespace Stacked

open Looped (x)

def left : Constant ℚ := ⟨4, .real (.ofRowMajor 1 2 #[1, 2]), .positive⟩

def right : Constant ℚ := ⟨2, .complex (.ofRowMajor 2 1 #[⟨0, 1⟩, ⟨3, 0⟩]), .complex⟩

def whole : Constant ℚ :=
  ⟨6, .complex (.ofRowMajor 2 2 #[⟨0, 1⟩, ⟨0, 2⟩, ⟨3, 0⟩, ⟨6, 0⟩]), .complex⟩

def inner : Expr ℚ := .kron 3 (.const right) (.var x)

def nested : Expr ℚ := .kron 5 (.const left) inner

def flat : Expr ℚ := .kron 7 (.const whole) (.var x)

def world : World ℚ :=
  ((Looped.declared.make { nextId := 4 } (.expr inner)).make { nextId := 6 }
    (.expr nested)).make { nextId := 8 } (.expr flat)

theorem nested_made : .expr nested ∈ world.nodes := subset_gain _ _ (mem_gain _ _)

theorem flat_made : .expr flat ∈ world.nodes := mem_gain _ _

theorem world_reachable : Reachable world := by
  have hx : .expr (.var x) ∈ Looped.declared.nodes := rfl
  let cell (z : Cplx ℚ) : Input ℚ := .atom 0 (.complex z)
  have first := Looped.declared_reachable.next <| .kron _
    (.array 0 false .complex [2, 1] [cell ⟨0, 1⟩, cell ⟨3, 0⟩]) (.thing 0 (.expr (.var x))) inner
    { nextId := 4 } (fun s e h => by cases h) (Roster.offers_expr hx) (by with_unfolding_all rfl)
  have second := first.next <| .kron _
    (.array 0 false .real [1, 2] [.atom 0 (.real 1), .atom 0 (.real 2)])
    (.thing 0 (.expr inner)) nested { nextId := 6 } (fun s e h => by cases h)
    (Roster.offers_expr (mem_gain _ _)) (by with_unfolding_all rfl)
  exact second.next <| .kron _
    (.array 0 false .complex [2, 2] [cell ⟨0, 1⟩, cell ⟨0, 2⟩, cell ⟨3, 0⟩, cell ⟨6, 0⟩])
    (.thing 0 (.expr (.var x))) flat { nextId := 8 } (fun s e h => by cases h)
    (Roster.offers_expr (subset_gain _ _ (subset_gain _ _ hx))) (by with_unfolding_all rfl)

end Stacked

theorem stacked_products_compile_alike :
    ∃ (twice once : Objective ℚ) (q q' : Pass (Objective ℚ) (Record ℚ)),
      compileExpr Stacked.world.vars Stacked.nested ⟨Stacked.world.ledger, {}⟩ = .ok twice q ∧
        compileExpr Stacked.world.vars Stacked.flat ⟨Stacked.world.ledger, {}⟩ = .ok once q' ∧
        twice.keys = [1, 0] ∧ twice.Agree once := by
  obtain ⟨-, -, ⟨twice, once, q, q', compiled, compiled', agree⟩, -⟩ :=
    nested_products_compile_alike Stacked.world_reachable Stacked.nested_made Stacked.flat_made
      (by with_unfolding_all rfl) ⟨_, _, by with_unfolding_all rfl⟩
  refine ⟨twice, once, q, q', compiled, compiled', ?_, agree⟩
  have keys : ∃ o q, compileExpr Stacked.world.vars Stacked.nested
      (⟨Stacked.world.ledger, {}⟩ : Pass (Objective ℚ) (Record ℚ)) = .ok o q ∧
        o.keys = [1, 0] := by decide +kernel
  obtain ⟨o, q, hq, keys⟩ := keys
  cases compiled.symm.trans hq
  exact keys

end ConicModel
