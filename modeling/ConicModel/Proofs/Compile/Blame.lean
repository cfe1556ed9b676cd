/-
# What a refusal is due to

A walk passes from a constraint to its sides, from a product with a constant left operand
and another right one to the right one, and from a free variable to what is attached to it
(`Passes`).  If it is refused, then at a node that it has passed to, and for a fault that can
be told from that node and the variables alone (`Faulty`): the node has no form, or it is a
free variable with something foreign attached or with a sign whose constraint cannot be
lowered.  Neither the cache nor the order of the calls has a part in it.

The induction is on the refusal.  What was done before it on the same level is a run, so
the cache still holds forms when the refusal is reached (`Pass.Tells`).
-/
import ConicModel.Proofs.Compile.Refusal
import ConicModel.Proofs.Compile.Closure
import ConicModel.Proofs.Compile.Form
import Mathlib.Logic.Relation

namespace ConicModel

variable {α : Type}

/-! ## Where walks pass -/

/-- A walk that is at the one node goes on to the other. -/
inductive Passes (vars : Vars α) : Node α → Node α → Prop where
  | lhs (c : Constraint α) : Passes vars (.constraint c) (.expr c.lhs)
  | rhs (c : Constraint α) : Passes vars (.constraint c) (.expr c.rhs)
  | right {id : Id} {a b : Expr α} (left : a.curvature vars = .constant)
      (right : b.curvature vars ≠ .constant) : Passes vars (.expr (.kron id a b)) (.expr b)
  | attached {x : Variable} {n : Node α} (free : (vars.state x).fixed = false)
      (h : .node n ∈ (vars.state x).attached) : Passes vars (.expr (.var x)) n

/-- A walk that starts at the one node may come to the other. -/
abbrev Reaches (vars : Vars α) : Node α → Node α → Prop := Relation.ReflTransGen (Passes vars)

section

variable {vars : Vars α} {N R : Set (Node α)} {next : Id} {m n : Node α}

theorem Passes.brings (h : Passes vars m n) (S : Signs α) : Brings vars S m n := by
  cases h with
  | lhs c => exact .lhs c
  | rhs c => exact .rhs c
  | right _ right => exact .right right
  | attached free h => exact .attached (VarState.curvature_eq_affine_iff.mpr free) h

theorem Reaches.closure (h : Reaches vars m n) (hm : m ∈ R) (S : Signs α) :
    Closure vars S R n := by
  induction h with
  | refl => exact .root hm
  | tail _ step ih => exact .step ih (step.brings S)

/-- What a walk comes to was made. -/
theorem Reaches.mem (h : Reaches vars m n) (coherent : Coherent vars N next) (hm : m ∈ N) :
    n ∈ N := by
  have closure := h.closure (Set.mem_singleton m) []
  have coherent : Coherent vars (joined N []) next := (joined_nil N).symm ▸ coherent
  exact joined_nil N ▸ closure.mem_joined (Set.singleton_subset_iff.mpr hm) coherent

end

/-! ## Faults of nodes -/

variable [Scalar α] {κ ρ : Type} [Compiled α κ ρ]

/-- A node that no walk gets past. -/
inductive Faulty (κ : Type) {ρ : Type} [Compiled α κ ρ] (vars : Vars α) :
    Node α → Fault α → Prop where
  | expr {e : Expr α} {f : Fault α} (h : (e.form vars : Except (Fault α) κ) = .error f) :
      Faulty κ vars (.expr e) f
  | constraint {c : Constraint α} {f : Fault α} (h : c.form κ vars = .error f) :
      Faulty κ vars (.constraint c) f
  | foreign {x : Variable} {d : Input α} (free : (vars.state x).fixed = false)
      (h : .foreign d ∈ (vars.state x).attached) :
      Faulty κ vars (.expr (.var x)) (.mishap .feature)
  /-- The constraint of the sign cannot be lowered. -/
  | sign {x : Variable} {c : Constraint α} {f : Fault α} (signed : x.IsSigned vars)
      (isSignOf : c.IsSignOf vars x) (h : c.form κ vars = .error f) :
      Faulty κ vars (.expr (.var x)) f

/-- From a node there is a way to a node with the fault. -/
def Blames (κ : Type) {ρ : Type} [Compiled α κ ρ] (vars : Vars α) (f : Fault α) (n : Node α) :
    Prop :=
  ∃ m, Reaches vars n m ∧ Faulty κ vars m f

variable {vars : Vars α} {f : Fault α}

theorem Blames.here {n : Node α} (h : Faulty κ vars n f) : Blames κ vars f n :=
  ⟨n, .refl, h⟩

theorem Blames.pass {m n : Node α} (h : Blames κ vars f n) (step : Passes vars m n) :
    Blames κ vars f m := by
  obtain ⟨k, hk, faulty⟩ := h
  exact ⟨k, .head step hk, faulty⟩

/-- What is wrong with the constraint of a sign is wrong with the variable. -/
theorem Blames.of_sign {x : Variable} {c : Constraint α} (h : Blames κ vars f (.constraint c))
    (signed : x.IsSigned vars) (isSignOf : c.IsSignOf vars x) :
    Blames κ vars f (.expr (.var x)) := by
  obtain ⟨m, hm, faulty⟩ := h
  rcases Relation.ReflTransGen.cases_head hm with rfl | ⟨n, step, rest⟩
  · cases faulty with
    | constraint h => exact .here (.sign signed isSignOf h)
  · cases step with
    | lhs => exact ⟨m, isSignOf.lhs ▸ rest, faulty⟩
    | rhs =>
        -- The other side is a zero, which leads nowhere and has a form.
        obtain ⟨k, hk, -⟩ := isSignOf.rhs
        rw [hk] at rest
        rcases Relation.ReflTransGen.cases_head rest with rfl | ⟨n, step, -⟩
        · cases faulty with
          | expr h => cases (Expr.constantForm_ok rfl).symm.trans h
        · cases step

/-! ## Every refusal is due to a node -/

/-- The nodes a task is about were made. -/
def Task.Within (N : Set (Node α)) : Task α → Prop
  | .expr e => .expr e ∈ N
  | .constraint c => .constraint c ∈ N
  | .sign x => .expr (.var x) ∈ N
  | .attached items => ∀ n, .node n ∈ items → n ∈ N

/-- What it is due to that a task is refused.  The sign of a variable is only seen to when
the variable is free. -/
def Task.Blames (κ : Type) {ρ : Type} [Compiled α κ ρ] (vars : Vars α) (f : Fault α) :
    Task α → Prop
  | .expr e => ConicModel.Blames κ vars f (.expr e)
  | .constraint c => ConicModel.Blames κ vars f (.constraint c)
  | .sign x => (vars.state x).fixed = false → ConicModel.Blames κ vars f (.expr (.var x))
  | .attached items => (f = .mishap .feature ∧ ∃ d, .foreign d ∈ items) ∨
      ∃ n, .node n ∈ items ∧ ConicModel.Blames κ vars f n

omit [Scalar α] in
theorem Node.task_within {N : Set (Node α)} {n : Node α} : n.task.Within N ↔ n ∈ N := by
  cases n <;> exact .rfl

theorem Node.task_blames {n : Node α} : n.task.Blames κ vars f ↔ Blames κ vars f n := by
  cases n <;> exact .rfl

/-- What a run has left holds forms if it started from forms. -/
theorem Brought.tells {N R : Set (Node α)} {E : Set Variable} {p q : Pass κ ρ} {S : Signs α}
    (h : Brought vars N R E p q S) (tells : p.Tells vars N) : q.Tells vars (joined N S) :=
  h.keeps _ (Pass.Tells.maintained κ vars) tells

theorem Refused.blames {task : Task α} {p q : Pass κ ρ} (h : Refused vars task p f q)
    {N : Set (Node α)} (coherent : Coherent vars N p.ledger.nextId) (within : task.Within N)
    (tells : p.Tells vars N) : task.Blames κ vars f := by
  induction h generalizing N with
  | unvalued doubts new constant value =>
      exact .here (.expr ((Expr.form_constant coherent within constant).trans
        (Expr.constantForm_error value)))
  | @sign x f p q new free sign ih =>
      have entered : (p.enterExpr x.id _).Tells vars N :=
        (Pass.Tells.maintained κ vars).free coherent within free tells
      exact ih coherent within entered free
  | @brought x f p q q' new free sign attached ih =>
      have entered : (p.enterExpr x.id _).Tells vars N :=
        (Pass.Tells.maintained κ vars).free coherent within free tells
      obtain ⟨S, brought, -⟩ := sign.delivers N coherent within
        (VarState.curvature_eq_affine_iff.mpr free) (Pass.holds_enterExpr.mpr (.inr rfl))
      have items := (coherent.respects x within).attached
      rcases ih brought.coherent (fun n hn => subset_joined N S (items n hn))
        (brought.tells entered) with ⟨rfl, d, hd⟩ | ⟨n, hn, blames⟩
      · exact .here (.foreign free hd)
      · exact blames.pass (.attached free hn)
  | left doubts new left => exact .here (.expr (Expr.form_left left))
  | @operand id a b f p q doubts new left right operand ih =>
      have hb := (coherent.roster.kron within).2
      exact (ih (N := N) coherent hb ⟨tells.exprs, tells.constraints⟩).pass (.right left right)
  | @product id a b child f p q doubts new left right below still_new product =>
      have hb := (coherent.roster.kron within).2
      obtain ⟨S, brought⟩ := below.delivers N coherent (Set.singleton_subset_iff.mpr hb)
      have form : b.form vars = .ok child :=
        (brought.tells ⟨tells.exprs, tells.constraints⟩).form brought.coherent
          (subset_joined N S hb) below.done
      refine .here (.expr ?_)
      rw [Expr.form_kron left right, form]
      exact product
  | @lhs c f p q new lhs ih =>
      exact (ih coherent (coherent.roster.sides within).1 tells).pass (.lhs c)
  | @rhs c l f p q q' new lhs rhs ih =>
      obtain ⟨hl, hr⟩ := coherent.roster.sides within
      obtain ⟨S, brought⟩ := lhs.delivers N coherent (Set.singleton_subset_iff.mpr hl)
      exact (ih brought.coherent (subset_joined N S hr) (brought.tells tells)).pass (.rhs c)
  | @between c l r f p q q' new lhs rhs between =>
      obtain ⟨hl, hr⟩ := coherent.roster.sides within
      obtain ⟨S, left⟩ := lhs.delivers N coherent (Set.singleton_subset_iff.mpr hl)
      obtain ⟨S', right⟩ := rhs.delivers _ left.coherent
        (Set.singleton_subset_iff.mpr (subset_joined N S hr))
      have tells' := right.tells (left.tells tells)
      have form_l := tells'.form right.coherent
        (subset_joined _ S' (subset_joined N S hl)) (rhs.grows.expr_kept lhs.done)
      have form_r := tells'.form right.coherent
        (subset_joined _ S' (subset_joined N S hr)) rhs.done
      refine .here (.constraint ?_)
      rw [Constraint.form, form_l, form_r]
      exact between
  | @signed x c f l p q yes made lowered ih =>
      intro free
      have gained := coherent.roster.gain_sign coherent.pos within made
      have maintained := Pass.Tells.maintained κ vars
      have blames := ih (coherent.gain gained) (mem_gain N _)
        (maintained.spend l (maintained.mono (subset_gain N _) tells))
      exact blames.of_sign ⟨VarState.curvature_eq_affine_iff.mpr free, yes⟩
        (signConstraint_ok made).1
  | foreign => exact .inl ⟨rfl, _, List.mem_cons_self⟩
  | item _ ih =>
      have hn := within _ List.mem_cons_self
      exact .inr ⟨_, List.mem_cons_self,
        Node.task_blames.mp (ih coherent (Node.task_within.mpr hn) tells)⟩
  | @later n items f p q q' first rest ih =>
      obtain ⟨S, brought⟩ := first.delivers N coherent fun m hm => by
        cases List.mem_singleton.mp hm
        exact within n List.mem_cons_self
      rcases ih brought.coherent
        (fun m hm => subset_joined N S (within m (List.mem_cons_of_mem _ hm)))
        (brought.tells tells) with ⟨rfl, d, hd⟩ | ⟨m, hm, blames⟩
      · exact .inl ⟨rfl, d, List.mem_cons_of_mem _ hd⟩
      · exact .inr ⟨m, List.mem_cons_of_mem _ hm, blames⟩

end ConicModel
