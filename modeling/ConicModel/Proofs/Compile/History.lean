/-
# The history of a cache

A cache outlives the calls that fill it.  Between two calls the session goes on, variables
are fixed and freed and constraints are attached to them, so a node may be compiled along
another branch than the last time.  A `Bench` is a session with a cache in it, and a history
of it (`Bench.Step`) is any alternation of operations of the session with calls, whether
these are refused or not.

Whatever the history, the cache is write-once and append-only.  This asks nothing of the
nodes that are compiled and nothing of the cache at the beginning, as it is a matter of each
walk looking itself up before it enters anything, and once more if it has been elsewhere.
-/
import ConicModel.Proofs.Compile.Failure

namespace ConicModel

variable {α κ ρ : Type}

/-! ## Histories -/

/-- A session, and a cache that is filled in it. -/
structure Bench (α κ ρ : Type) where
  world : World α
  cache : Cache κ ρ := {}

/-- The pass in which the next call is made. -/
def Bench.pass (b : Bench α κ ρ) : Pass κ ρ := ⟨b.world.ledger, b.cache⟩

/-- What a call leaves. -/
def Bench.after (b : Bench α κ ρ) (q : Pass κ ρ) : Bench α κ ρ :=
  ⟨⟨{ b.world.model with ledger := q.ledger }, b.world.nodes⟩, q.cache⟩

variable [Scalar α] [Compiled α κ ρ]

/-- One operation of the session, or one call. -/
inductive Bench.Step : Bench α κ ρ → Bench α κ ρ → Prop where
  | session {w w' : World α} (cache : Cache κ ρ) (h : ConicModel.Step w w') :
      Step ⟨w, cache⟩ ⟨w', cache⟩
  | compiled {b : Bench α κ ρ} {n : Node α} {x : Returned κ ρ} {q : Pass κ ρ}
      (h : compileNode b.world.vars n b.pass = .ok x q) : Step b (b.after q)
  | refused {b : Bench α κ ρ} {n : Node α} {f : Fault α} {q : Pass κ ρ}
      (h : compileNode b.world.vars n b.pass = .error f q) : Step b (b.after q)

abbrev Bench.History : Bench α κ ρ → Bench α κ ρ → Prop := Relation.ReflTransGen Bench.Step

/-- No step takes anything out of the cache or puts anything in its place. -/
theorem Bench.Step.extends {b b' : Bench α κ ρ} (h : b.Step b') : b.cache.Extends b'.cache := by
  cases h with
  | session cache => exact .refl cache
  | compiled h => exact (Run.cons_of_compileNode h .nil).1.grows.toExtends
  | refused h => exact (refused_of_compileNode h).grows.toExtends

theorem Bench.History.extends {b b' : Bench α κ ρ} (h : b.History b') :
    b.cache.Extends b'.cache := by
  induction h with
  | refl => exact .refl b.cache
  | tail _ step ih => exact ih.trans step.extends

/-! ## Calls for what is held -/

omit [Scalar α] in
theorem exists_depthBound (vars : Vars α) {start : Nat} (pos : 0 < start) :
    ∃ k, depthBound vars start = k + 1 :=
  Nat.exists_eq_add_one_of_ne_zero (pos.trans_le (Nat.le_add_right start _)).ne'

theorem compileExpr_of_held {vars : Vars α} {e : Expr α} {o : κ} {p : Pass κ ρ}
    (held : p.cache.exprs.get? e.id = some o) : compileExpr vars e p = .ok o p := by
  have pos : 0 < e.depth := by cases e <;> simp [Expr.depth]
  obtain ⟨k, hk⟩ := exists_depthBound vars pos
  rw [compileExpr, hk, walkExpr_succ, Walk.run, Walk.unlessHeld_of_some held]

theorem compileConstraint_of_held {vars : Vars α} {c : Constraint α} {r : ρ} {p : Pass κ ρ}
    (held : p.cache.constraints.get? c.id = some r) : compileConstraint vars c p = .ok r p := by
  obtain ⟨k, hk⟩ := exists_depthBound vars (Nat.succ_pos (max c.lhs.depth c.rhs.depth))
  rw [compileConstraint, Constraint.depth, hk, walkConstraint_succ, Walk.run,
    Walk.unlessLowered_of_some held]

/-- What is held for a node is what a call for it returns, and the call does nothing else. -/
theorem compileNode_of_held {vars : Vars α} {n : Node α} {x : Returned κ ρ} {p : Pass κ ρ}
    (held : x.HeldFor p n) : compileNode vars n p = .ok x p := by
  cases n with
  | expr e =>
      cases x with
      | expr o => exact Outcome.map_ok.mpr ⟨o, compileExpr_of_held held, rfl⟩
      | constraint r => exact held.elim
  | constraint c =>
      cases x with
      | expr o => exact held.elim
      | constraint r => exact Outcome.map_ok.mpr ⟨r, compileConstraint_of_held held, rfl⟩

/-! ## Faults -/

/-- The faults of the cache itself: it is asked to enter what it has entered already. -/
def Fault.IsCached : Fault α → Prop
  | .cachedExpr _ | .cachedConstraint _ => True
  | _ => False

omit κ ρ [Compiled α κ ρ]

theorem Expr.product_not_cached {vars : Vars α} {a b : Expr α} {child : Objective α}
    {f : Fault α} (h : Expr.product vars a b child = .error f) : ¬f.IsCached := by
  rcases Outcome.except_bind_error.mp h with h | ⟨times, htimes, h⟩
  · cases h
  cases htimes
  rcases Outcome.except_bind_error.mp h with h | ⟨v, hv, h⟩
  · obtain ⟨u, -, rfl⟩ := Outcome.mapError_error.mp h
    exact not_false
  · obtain ⟨g, -, rfl⟩ := Outcome.mapError_error.mp h
    exact not_false

theorem Constraint.between_not_cached {vars : Vars α} {c : Constraint α} {l r : Objective α}
    {f : Fault α} (h : c.between vars l r = .error f) : ¬f.IsCached := by
  rcases Outcome.except_bind_error.mp h with h | ⟨d, -, h⟩
  · obtain ⟨g, -, rfl⟩ := Outcome.mapError_error.mp h
    exact not_false
  · unfold Constraint.lower at h
    split at h <;> cases h

/-- No walk asks the cache to enter what it has entered already. -/
theorem Refused.not_cached {vars : Vars α} {task : Task α} {f : Fault α}
    {p q : Pass (Objective α) (Record α)} (h : Refused vars task p f q) : ¬f.IsCached := by
  induction h with
  | unvalued | left | foreign => exact not_false
  | sign _ _ _ ih | brought _ _ _ _ ih | operand _ _ _ _ _ ih | lhs _ _ ih | rhs _ _ _ ih
  | signed _ _ _ ih | item _ ih | later _ _ ih => exact ih
  | product _ _ _ _ _ _ product => exact Expr.product_not_cached product
  | between _ _ _ between => exact Constraint.between_not_cached between

/-! ## The cache -/

/-- Over any history of calls and operations of the session a cache is only added to: every
entry and every record stays where it is, and none is entered twice.  At every moment a
call for a node that is held returns what is held and changes nothing, neither the cache nor
the next identity, and no call is refused because something was entered already. -/
theorem cache_only_grows {b b' : Bench α (Objective α) (Record α)} (history : b.History b') :
    b.cache.Extends b'.cache ∧
    (∀ i o, b.cache.exprs.get? i = some o → b'.cache.exprs.get? i = some o) ∧
    (∀ i r, b.cache.constraints.get? i = some r → b'.cache.constraints.get? i = some r) ∧
    (∀ n x, x.HeldFor b'.pass n → compileNode b'.world.vars n b'.pass = .ok x b'.pass) ∧
    ∀ n f q, compileNode b'.world.vars n b'.pass = .error f q → ¬f.IsCached :=
  ⟨history.extends, fun _ _ => history.extends.expr_kept,
    fun _ _ => history.extends.constraint_kept, fun _ _ => compileNode_of_held,
    fun _ _ _ refused => (refused_of_compileNode refused).not_cached⟩

namespace Freed

/-- The left operand was compiled while it was held. -/
def opened : Bench ℚ (Objective ℚ) (Record ℚ) where
  world := attached
  cache := { exprs := [(1, .ofConstant (Value.number (.real 2)).toMatrix)] }

/-- Then it was freed, and the right one was refused. -/
def spoiled : Bench ℚ (Objective ℚ) (Record ℚ) where
  world := world
  cache := { exprs := opened.cache.exprs.push 2 (.ofVariable x .noSign) }

theorem opened_compiled : compileNode attached.vars (.expr (.var y)) ⟨attached.ledger, {}⟩ =
    .ok (.expr (.ofConstant (Value.number (.real 2)).toMatrix)) opened.pass := by
  with_unfolding_all rfl

theorem spoiled_refused : compileNode world.vars (.expr (.var x)) ⟨world.ledger, opened.cache⟩ =
    .error .kronLeft spoiled.pass := by
  with_unfolding_all rfl

theorem opens : (⟨attached, {}⟩ : Bench ℚ (Objective ℚ) (Record ℚ)).Step opened :=
  Bench.Step.compiled (b := ⟨attached, {}⟩) (q := opened.pass) opened_compiled

theorem history : opened.History spoiled := by
  have freed : opened.Step ⟨world, opened.cache⟩ := .session _ frees
  have refused : Bench.Step ⟨world, opened.cache⟩ spoiled :=
    Bench.Step.refused (b := ⟨world, opened.cache⟩) (q := spoiled.pass) spoiled_refused
  exact .tail (.single freed) refused

end Freed

theorem freed_cache_only_grows :
    (⟨Freed.attached, {}⟩ : Bench ℚ (Objective ℚ) (Record ℚ)).Step Freed.opened ∧
    Freed.opened.History Freed.spoiled ∧
    Freed.opened.cache.Extends Freed.spoiled.cache ∧
    (∀ i o, Freed.opened.cache.exprs.get? i = some o →
      Freed.spoiled.cache.exprs.get? i = some o) ∧
    (∀ i r, Freed.opened.cache.constraints.get? i = some r →
      Freed.spoiled.cache.constraints.get? i = some r) ∧
    (∀ n x, x.HeldFor Freed.spoiled.pass n →
      compileNode Freed.spoiled.world.vars n Freed.spoiled.pass = .ok x Freed.spoiled.pass) ∧
    ∀ n f q, compileNode Freed.spoiled.world.vars n Freed.spoiled.pass = .error f q →
      ¬f.IsCached :=
  ⟨Freed.opens, Freed.history, cache_only_grows Freed.history⟩

end ConicModel
