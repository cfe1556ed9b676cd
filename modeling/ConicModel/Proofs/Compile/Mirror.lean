/-
# Mirror images compile alike

The record of `a ≤ b` is `-(a - b)` and that of `b ≥ a` is `b - a`.  Whatever happens to the
model after the two were made, they have one verdict, one of them can be compiled exactly if the
other one can, and then their records are the same up to the order of the keys.

That one cannot be compiled without the other is not a matter of the walks, which go through the
sides in different orders and may come upon one constraint while they compile the other.  A walk
from a constraint comes to what is reached from its sides, in whatever order, and a constant in
the place of another one of the same value changes nothing in that.
-/
import ConicModel.Proofs.Compile.Nesting
import ConicModel.Proofs.Compile.Records
import ConicModel.Proofs.Mirror
import ConicModel.Proofs.Objective.Arithmetic

namespace ConicModel

variable {α : Type}

/-! ## Verdicts -/

theorem Constraint.Mirrors.verdict {c d : Constraint α} (h : c.Mirrors d) (vars : Vars α) :
    c.verdict vars = d.verdict vars := by
  rw [Constraint.verdict, Constraint.verdict, h.atMost, h.atLeast]
  simp only [differenceVerdict, h.small.verdict, h.large.verdict]

/-! ## What is reached -/

/-- From a constant a walk comes to nothing else. -/
theorem Reaches.of_const {vars : Vars α} {k : Constant α} {n : Node α}
    (h : Reaches vars (.expr (.const k)) n) : n = .expr (.const k) := by
  rcases Relation.ReflTransGen.cases_head h with same | ⟨m, step, -⟩
  · exact same.symm
  · cases step

/-- From a constraint a walk comes to its sides. -/
theorem Reaches.of_constraint {vars : Vars α} {c : Constraint α} {n : Node α}
    (h : Reaches vars (.constraint c) n) :
    n = .constraint c ∨ Reaches vars (.expr c.lhs) n ∨ Reaches vars (.expr c.rhs) n := by
  rcases Relation.ReflTransGen.cases_head h with same | ⟨m, step, rest⟩
  · exact .inl same.symm
  · cases step with
    | lhs => exact .inr (.inl rest)
    | rhs => exact .inr (.inr rest)

variable [Scalar α]

theorem Faulty.not_const {κ ρ : Type} [Compiled α κ ρ] {vars : Vars α} {k : Constant α}
    {f : Fault α} : ¬Faulty κ vars (.expr (.const k)) f := by
  intro faulty
  cases faulty with
  | expr error => cases (Expr.constantForm_ok rfl).symm.trans error

theorem Expr.Twin.form {κ ρ : Type} [Compiled α κ ρ] {d e : Expr α} (h : d.Twin e)
    (vars : Vars α) : (d.form vars : Except (Fault α) κ) = e.form vars := by
  cases h with
  | same => rfl
  | const value sign =>
      rw [Expr.form, Expr.form, Expr.constantForm_ok rfl, Expr.constantForm_ok rfl, value]

/-! ## One compiles if the other one does -/

section

variable {w : World α} (reachable : Reachable w) {c d : Constraint α}

include reachable

/-- A constraint compiles if another one does that has its sides the other way round. -/
theorem compiles_of_crossed (hc : .constraint c ∈ w.nodes) (hd : .constraint d ∈ w.nodes)
    (small : c.lhs.Twin d.rhs) (large : c.rhs.Twin d.lhs)
    (compiles : ∃ (r : Record α) (q : Pass (Objective α) (Record α)),
      compileConstraint w.vars c ⟨w.ledger, {}⟩ = .ok r q) :
    ∃ (s : Record α) (q : Pass (Objective α) (Record α)),
      compileConstraint w.vars d ⟨w.ledger, {}⟩ = .ok s q := by
  have coherent := reachable.sound.coherent
  obtain ⟨r, q, compiled⟩ := compiles
  -- Nothing is faulty that is reached from a side of `c`, or from a constant in its place.
  have below {e e' : Expr α} (twin : e.Twin e') (side : Passes w.vars (.constraint c) (.expr e))
      {m : Node α} (hm : Reaches w.vars (.expr e') m) (f : Fault α) :
      ¬Faulty (Objective α) w.vars m f := by
    cases twin with
    | same =>
        exact not_faulty_of_compiled reachable hc (Outcome.map_ok.mpr ⟨r, compiled, rfl⟩)
          (.head side hm) f
    | const =>
        rw [hm.of_const]
        exact Faulty.not_const
  have unobstructed {e e' : Expr α} (twin : e.Twin e')
      (side : Passes w.vars (.constraint c) (.expr e)) : ¬Obstructs w.vars (.expr e') := by
    intro obstructs
    obtain ⟨m, hm, faulty⟩ := obstructs.blames
    exact below twin side hm .kronLeft faulty
  cases call : compileConstraint w.vars d (⟨w.ledger, {}⟩ : Pass (Objective α) (Record α)) with
  | ok s q' => exact ⟨s, q', rfl⟩
  | error f q' =>
      exfalso
      have refused : compileNode w.vars (.constraint d) ⟨w.ledger, {}⟩ = .error f q' :=
        Outcome.map_error.mpr call
      obtain ⟨m, hm, faulty⟩ := Node.task_blames.mp ((refused_of_compileNode refused).blames
        coherent (Node.task_within.mpr hd) (.of_empty _ rfl))
      rcases hm.of_constraint with rfl | hm | hm
      · cases faulty with
        | constraint error =>
            obtain ⟨hl, hr⟩ := coherent.roster.sides hd
            rcases (coherent.form_constraint_error (coherent.roster.shapes d hd)
              (coherent.settles hl) (coherent.settles hr) error).2 with obstructs | obstructs
            · exact unobstructed large (.rhs c) obstructs
            · exact unobstructed small (.lhs c) obstructs
      · exact below large (.rhs c) hm f faulty
      · exact below small (.lhs c) hm f faulty

/-- What a constraint is compiled to is its form. -/
theorem form_of_compiled_constraint {κ ρ : Type} [Compiled α κ ρ] (made : .constraint c ∈ w.nodes)
    {r : ρ} {q : Pass κ ρ} (compiled : compileConstraint w.vars c ⟨w.ledger, {}⟩ = .ok r q) :
    c.form κ w.vars = .ok r := by
  have run := run_of_compileConstraint compiled
  obtain ⟨S, brought⟩ := run.delivers w.nodes reachable.sound.coherent
    (Set.singleton_subset_iff.mpr made)
  exact (brought.tells (.of_empty w.nodes rfl)).form_constraint brought.coherent
    (subset_joined w.nodes S made) run.done

end

/-! ## The records -/

/-- Two records of one cone and one size, with the same matrices under the same keys.  That the
matrices are the same takes exact arithmetic. -/
structure Record.Mirrors (r s : Record α) : Prop where
  cone : r.cone = s.cone
  size : r.size = s.size
  keys : r.objective.keys.Perm s.objective.keys
  alike : ∀ [LawfulEntry α], r.objective.Alike s.objective

/-- The forms of an upper bound and of its mirror image. -/
theorem Constraint.Mirrors.form {vars : Vars α} {N : Set (Node α)} {next : Id}
    (coherent : Coherent vars N next) {c d : Constraint α} (h : c.Mirrors d)
    (hc : .constraint c ∈ N) {r s : Record α} (form_c : c.form (Objective α) vars = .ok r)
    (form_d : d.form (Objective α) vars = .ok s) : r.Mirrors s := by
  obtain ⟨x, hx, form_c⟩ := Outcome.except_bind_ok.mp form_c
  obtain ⟨y, hy, between⟩ := Outcome.except_bind_ok.mp form_c
  obtain ⟨xy, hxy, lowered⟩ := Outcome.except_bind_ok.mp between
  obtain ⟨y', hy', form_d⟩ := Outcome.except_bind_ok.mp form_d
  obtain ⟨x', hx', between'⟩ := Outcome.except_bind_ok.mp form_d
  obtain ⟨yx, hyx, lowered'⟩ := Outcome.except_bind_ok.mp between'
  rw [← h.large.form] at hy'
  rw [← h.small.form] at hx'
  cases hy.symm.trans hy'
  cases hx.symm.trans hx'
  have hxy : x.sub y = .ok xy := Outcome.mapError_ok.mp hxy
  have hyx : y.sub x = .ok yx := Outcome.mapError_ok.mp hyx
  have hr := Constraint.lower_ok lowered
  have hs := Constraint.lower_ok lowered'
  rw [if_pos h.atMost] at hr
  rw [if_neg (by rw [h.atLeast]; decide)] at hs
  subst hr hs
  obtain ⟨small, large⟩ := coherent.roster.sides hc
  have shapes : c.lhs.shape = c.rhs.shape := coherent.roster.shapes c hc
  have length : c.rhs.length = c.lhs.length := by rw [Expr.length, ← shapes]; rfl
  have fits_x := coherent.fits_of_form small hx
  have fits_y := coherent.fits_of_form large hy
  rw [length] at fits_y
  have sized_x : x.Sized _ (FreeLength vars N) := ⟨fits_x.formed, fits_x.about⟩
  have sized_y : y.Sized _ (FreeLength vars N) := ⟨fits_y.formed, fits_y.about⟩
  have nodup := (sized_x.add sized_y.neg hxy).neg.formed.keys
  have nodup' := (sized_y.add sized_x.neg hyx).formed.keys
  refine ⟨?cone, ?size, ?keys, ?alike⟩
  case cone => rw [Constraint.cone, Constraint.cone, h.atMost, h.atLeast]
  case size =>
    have same : c.lhs.shape = d.lhs.shape := shapes.trans h.large.shape
    show (c.lhs.length : Int) = d.lhs.length
    rw [Expr.length, Expr.length, same]
  case keys =>
    exact (List.perm_ext_iff_of_nodup nodup nodup').mpr (Objective.mem_keys_sub hxy hyx)
  case alike =>
    intro
    exact sized_x.sub_swap coherent.oneWidth sized_y hxy hyx

/-- `a ≤ b` and `b ≥ a` are mirror images, whatever the operands are that can be made expressions
of.  Either both are refused, for the same fault, or both are made.  Then, in every session in
which both of them are and at every later moment, they have one verdict, one compiles into an
empty cache exactly if the other one does, and their records have one cone, one size, and the
same matrices under the same keys. -/
theorem inequality_mirrors {vars : Vars α} {a b : Input α} {x y : Expr α} {la la' lb lb' : Ledger}
    (ha : asExpr vars a la = .ok x la') (hb : asExpr vars b lb = .ok y lb') (l m : Ledger) :
    (∃ f l' m', makeConstraint vars .atMost a b l = .error f l' ∧
      makeConstraint vars .atLeast b a m = .error f.mirrored m') ∨
    ∃ c d l' m', makeConstraint vars .atMost a b l = .ok c l' ∧
      makeConstraint vars .atLeast b a m = .ok d m' ∧
      ∀ w, Reachable w → .constraint c ∈ w.nodes → .constraint d ∈ w.nodes →
        c.verdict w.vars = d.verdict w.vars ∧
        ((∃ (r : Record α) (q : Pass (Objective α) (Record α)),
            compileConstraint w.vars c ⟨w.ledger, {}⟩ = .ok r q) ↔
          ∃ (s : Record α) (q : Pass (Objective α) (Record α)),
            compileConstraint w.vars d ⟨w.ledger, {}⟩ = .ok s q) ∧
        ∀ (r s : Record α) (q q' : Pass (Objective α) (Record α)),
          compileConstraint w.vars c ⟨w.ledger, {}⟩ = .ok r q →
          compileConstraint w.vars d ⟨w.ledger, {}⟩ = .ok s q' → r.Mirrors s := by
  have made := makeConstraint_mirrors ha hb l m
  generalize first : makeConstraint vars .atMost a b l = upper at made
  generalize second : makeConstraint vars .atLeast b a m = lower at made
  cases made with
  | error f l' m' => exact .inl ⟨f, l', m', rfl, rfl⟩
  | @ok c d l' m' mirrors =>
      refine .inr ⟨c, d, l', m', rfl, rfl, fun w reachable hc hd => ⟨mirrors.verdict w.vars,
        ⟨compiles_of_crossed reachable hc hd mirrors.small mirrors.large,
          compiles_of_crossed reachable hd hc mirrors.large.symm mirrors.small.symm⟩, ?_⟩⟩
      intro r s q q' compiled compiled'
      exact mirrors.form reachable.sound.coherent hc
        (form_of_compiled_constraint reachable hc compiled)
        (form_of_compiled_constraint reachable hd compiled')

/-! ### A bound said twice -/

namespace Looped

/-- The variable is at most five. -/
def upper : Constraint ℚ :=
  ⟨2, .atMost, .var x, .const ⟨4, .real (.replicate 2 1 5), .positive⟩⟩

/-- Five is at least the variable. -/
def lower : Constraint ℚ :=
  ⟨5, .atLeast, .const ⟨7, .real (.replicate 2 1 5), .positive⟩, .var x⟩

def bounded : World ℚ :=
  (declared.make { nextId := 5 } (.constraint upper)).make { nextId := 8 } (.constraint lower)

theorem upper_made : makeConstraint declared.vars .atMost (.thing 0 (.expr (.var x))) (.ofInt 5)
    declared.ledger = .ok upper { nextId := 5 } := by
  with_unfolding_all rfl

theorem lower_made : makeConstraint declared.vars .atLeast (.ofInt 5) (.thing 0 (.expr (.var x)))
    { nextId := 5 } = .ok lower { nextId := 8 } := by
  with_unfolding_all rfl

theorem bounded_reachable : Reachable bounded := by
  have hx : .expr (.var x) ∈ declared.nodes := rfl
  have first := declared_reachable.next <| .constraint _ .atMost _ _ upper _
    (Roster.offers_expr hx) (Roster.offers_int _ 5) upper_made
  exact first.next <| .constraint _ .atLeast _ _ lower _ (Roster.offers_int _ 5)
    (Roster.offers_expr (subset_gain _ _ hx)) lower_made

end Looped

/-- Both bounds compile, and to records that mirror each other. -/
theorem looped_bounds_mirror : Reachable Looped.bounded ∧
    ∃ (r s : Record ℚ) (q q' : Pass (Objective ℚ) (Record ℚ)),
      compileConstraint Looped.bounded.vars Looped.upper ⟨Looped.bounded.ledger, {}⟩ = .ok r q ∧
        compileConstraint Looped.bounded.vars Looped.lower ⟨Looped.bounded.ledger, {}⟩
          = .ok s q' ∧ r.Mirrors s := by
  refine ⟨Looped.bounded_reachable, ?_⟩
  have five : ∃ e l, asExpr Looped.declared.vars (.ofInt 5 : Input ℚ) {} = .ok e l := ⟨_, _, rfl⟩
  obtain ⟨e, l, five⟩ := five
  have operand : asExpr Looped.declared.vars (.thing 0 (.expr (.var Looped.x)) : Input ℚ) {}
      = .ok (.var Looped.x) {} := rfl
  rcases inequality_mirrors operand five Looped.declared.ledger { nextId := 5 } with
    ⟨f, _, _, refused, -⟩ | ⟨c, d, _, _, made, made', later⟩
  · cases refused.symm.trans Looped.upper_made
  · cases made.symm.trans Looped.upper_made
    cases made'.symm.trans Looped.lower_made
    obtain ⟨-, together, alike⟩ := later _ Looped.bounded_reachable
      (subset_gain _ _ (mem_gain _ _)) (mem_gain _ _)
    have compiles : ∃ (r : Record ℚ) (q : Pass (Objective ℚ) (Record ℚ)),
        compileConstraint Looped.bounded.vars Looped.upper ⟨Looped.bounded.ledger, {}⟩
          = .ok r q := ⟨_, _, by with_unfolding_all rfl⟩
    obtain ⟨r, q, compiled⟩ := compiles
    obtain ⟨s, q', compiled'⟩ := together.mp ⟨r, q, compiled⟩
    exact ⟨r, s, q, q', compiled, compiled', alike r s q q' compiled compiled'⟩

end ConicModel
