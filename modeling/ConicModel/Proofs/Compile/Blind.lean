/-
# Compilation is blind to the values of free variables

A compilation evaluates in two places, when it enters a constant and when it multiplies by a
left operand, and in both it has looked at the curvature first.  What is constant at this
moment has no free variable below it, not even if it was made while another one was held, so
the values that free variables have kept are never read.  The kind of a variable is never
looked at, whether it is free or not.

Two states that differ in nothing else (`Vars.Alike`) are therefore taken by the walk for
the same.  This is not said of what the walks bring about but of the walks themselves: in
both states they are one program (`WalksAlike`), whatever the cache holds and whatever is
attached to the variables.  So the induction goes along the text, and no property of runs is
needed.
-/
import ConicModel.Proofs.Compile.Calls
import ConicModel.Proofs.World

namespace ConicModel

variable {α κ ρ : Type}

/-! ## States that look the same -/

/-- The states of a variable differ in its kind at most, and in its value if it is free. -/
structure VarState.Alike (s t : VarState α) : Prop where
  fixed : s.fixed = t.fixed
  sign : s.sign = t.sign
  attached : s.attached = t.attached
  value : s.fixed = true → s.value = t.value

/-- The states of all variables do. -/
structure Vars.Alike (vs ws : Vars α) : Prop where
  ids : vs.ids = ws.ids
  attached : vs.items.map (·.attached) = ws.items.map (·.attached)
  state : ∀ i, ((vs.get? i).getD {}).Alike ((ws.get? i).getD {})

theorem VarState.Alike.refl (s : VarState α) : s.Alike s := ⟨rfl, rfl, rfl, fun _ => rfl⟩

theorem VarState.Alike.curvature {s t : VarState α} (h : s.Alike t) :
    s.curvature = t.curvature := by
  rw [VarState.curvature, VarState.curvature, h.fixed]

theorem Vars.isHeld_eq (vars : Vars α) (i : Id) :
    vars.isHeld i = ((vars.get? i).getD {}).fixed := by
  unfold isHeld
  cases vars.get? i <;> rfl

namespace Vars.Alike

variable {vs ws : Vars α} (h : vs.Alike ws)

include h

theorem var (x : Variable) : (vs.state x).Alike (ws.state x) := h.state x.id

/-! ### Attributes -/

theorem sign (e : Expr α) : e.sign vs = e.sign ws := Expr.sign_congr (fun x => (h.var x).sign) e

theorem verdict (e : Expr α) : e.verdict vs = e.verdict ws := by
  induction e with
  | var x => rw [Expr.verdict, Expr.verdict, (h.var x).curvature]
  | const c => rfl
  | stub s =>
      rw [Expr.verdict, Expr.verdict, isHeld_eq, isHeld_eq, (h.state s.id).fixed]
  | kron id a b iha ihb => rw [Expr.verdict, Expr.verdict, iha, ihb, h.sign a]

theorem cone (c : Constraint α) : c.cone vs = c.cone ws := by
  unfold Constraint.cone Constraint.isComplex
  rw [h.sign c.lhs, h.sign c.rhs]

/-- Below what is constant everything is held, and has one value in both states. -/
theorem evaluate [Entry α] {e : Expr α} (constant : e.curvature vs = .constant) :
    e.evaluate vs = e.evaluate ws := by
  induction e with
  | var x =>
      have value := (h.var x).value (curvature_var_eq_constant_iff.mp constant)
      rw [Expr.evaluate, Expr.evaluate, value]
  | const c => rfl
  | stub s => rfl
  | kron id a b iha ihb =>
      obtain ⟨left, right⟩ := curvature_kron_eq_constant_iff.mp constant
      rw [Expr.evaluate, Expr.evaluate, iha left, ihb right]

/-! ### What a walk makes and lowers -/

theorem checkSides (c : Constraint α) : ConicModel.checkSides vs c = ConicModel.checkSides ws c := by
  unfold ConicModel.checkSides Constraint.isComplex
  rw [h.sign c.lhs, h.sign c.rhs]

variable [Scalar α]

/-- A number is made a constant without a look at any variable. -/
theorem constraint_zero (relation : Relation) (e : Expr α) :
    makeConstraint vs relation (.thing 0 (.expr e)) (.ofInt 0)
      = makeConstraint ws relation (.thing 0 (.expr e)) (.ofInt 0) := by
  have zero : asExpr vs (.ofInt 0) = asExpr ws (.ofInt 0) := rfl
  have given : asExpr vs (.thing 0 (.expr e)) = asExpr ws (.thing 0 (.expr e)) := rfl
  unfold makeConstraint
  simp only [given, zero, h.checkSides]

theorem signConstraint (e : Expr α) :
    ConicModel.signConstraint vs e = ConicModel.signConstraint ws e := by
  unfold ConicModel.signConstraint constraintOfSign
  rw [h.sign e]
  cases e.sign ws with
  | positive => exact h.constraint_zero .atLeast e
  | negative => exact h.constraint_zero .atMost e
  | noSign | complex => rfl

omit [Scalar α] in
theorem lower [Compiled α κ ρ] (c : Constraint α) (d : κ) :
    c.lower vs d = c.lower ws d := by
  unfold Constraint.lower
  rw [h.cone c]

/-! ### How deep a walk may go -/

omit [Scalar α] in
theorem depth : vs.depth = ws.depth := by
  have listed (vars : Vars α) : (vars.flatMap fun e => e.2.attached)
      = (vars.items.map (·.attached)).flatten := by
    rw [Table.items, List.map_map, List.flatMap_def]
    rfl
  rw [Vars.depth, Vars.depth, listed, listed, h.attached]

omit [Scalar α] in
theorem depthBound (start : Nat) :
    ConicModel.depthBound vs start = ConicModel.depthBound ws start := by
  have length : vs.length = ws.length := by
    have ids := congrArg List.length h.ids
    rwa [Table.ids, Table.ids, List.length_map, List.length_map] at ids
  rw [ConicModel.depthBound, ConicModel.depthBound, length, h.depth]

end Vars.Alike

/-! ## Walks that are the same -/

variable [Scalar α] [Compiled α κ ρ]

/-- Within a depth, the walks in two states are the same. -/
structure WalksAlike (κ : Type) {ρ : Type} [Compiled α κ ρ] (vs ws : Vars α) (n : Nat) :
    Prop where
  expr : ∀ e : Expr α, (walkExpr vs n e : Walk α κ ρ κ) = walkExpr ws n e
  constraint : ∀ c : Constraint α, (walkConstraint vs n c : Walk α κ ρ ρ) = walkConstraint ws n c
  attached : ∀ item : Attached α, (walkAttached vs n item : Walk α κ ρ Unit)
    = walkAttached ws n item

omit [Scalar α] [Compiled α κ ρ] in
/-- What follows the use of a verdict need only be the same at its curvature. -/
theorem Walk.trust_congr {β : Type} {v : Verdict} {f g : Curvature → Walk α κ ρ β}
    (h : f v.curvature = g v.curvature) :
    (Walk.make (Make.trust v) >>= f) = (Walk.make (Make.trust v) >>= g) := by
  funext p
  exact congrFun h (p.note v.doubts)

namespace WalksAlike

variable {vs ws : Vars α} {n : Nat}

theorem zero (vs ws : Vars α) : WalksAlike κ vs ws 0 where
  expr e := by rw [walkExpr.eq_def vs 0, walkExpr.eq_def ws 0]
  constraint c := by rw [walkConstraint.eq_def vs 0, walkConstraint.eq_def ws 0]
  attached item := by rw [walkAttached.eq_def vs 0, walkAttached.eq_def ws 0]

theorem constant (alike : vs.Alike ws) {e : Expr α} (constant : e.curvature vs = .constant) :
    (walkConstant vs e : Walk α κ ρ κ) = walkConstant ws e := by
  rw [walkConstant, walkConstant, alike.evaluate constant]

theorem sign (alike : vs.Alike ws) (h : WalksAlike κ vs ws n) (x : Variable) :
    (walkSign vs n x : Walk α κ ρ Unit) = walkSign ws n x := by
  unfold walkSign
  simp only [(alike.var x).sign, alike.signConstraint, h.constraint]

theorem free (alike : vs.Alike ws) (h : WalksAlike κ vs ws n) (x : Variable) :
    (walkFree vs n x : Walk α κ ρ κ) = walkFree ws n x := by
  have item : (fun item => walkAttached vs n item : Attached α → Walk α κ ρ Unit)
      = fun item => walkAttached ws n item := funext h.attached
  unfold walkFree
  rw [(alike.var x).sign, (alike.var x).attached, h.sign alike x, item]

theorem product (alike : vs.Alike ws) (h : WalksAlike κ vs ws n) (id : Id) {a : Expr α}
    (b : Expr α) (left : a.curvature vs = .constant) :
    (walkProduct vs n id a b : Walk α κ ρ κ) = walkProduct ws n id a b := by
  unfold walkProduct enterProduct
  rw [h.expr b, alike.evaluate left]

theorem new (alike : vs.Alike ws) (h : WalksAlike κ vs ws n) (e : Expr α) :
    (walkNew vs n e : Walk α κ ρ κ) = walkNew ws n e := by
  cases e with
  | const c => rfl
  | stub s => rfl
  | var x =>
      rw [walkNew, walkNew, ← (alike.var x).fixed]
      split
      · rename_i fixed
        exact constant alike (curvature_var_eq_constant_iff.mpr fixed)
      · exact h.free alike x
  | kron id a b =>
      -- The verdicts are the same, so both walks are on the same branch.
      rw [walkNew, walkNew, ← alike.verdict a, ← alike.verdict b]
      refine Walk.trust_congr ?_
      by_cases left : (a.verdict vs).curvature = .constant
      · rw [if_neg (not_not.mpr left), if_neg (not_not.mpr left)]
        refine Walk.trust_congr ?_
        by_cases right : (b.verdict vs).curvature = .constant
        · rw [if_pos right, if_pos right]
          exact constant alike (curvature_kron_eq_constant_iff.mpr ⟨left, right⟩)
        · rw [if_neg right, if_neg right]
          exact h.product alike id b left
      · rw [if_pos left, if_pos left]

theorem sides (alike : vs.Alike ws) (h : WalksAlike κ vs ws n) (c : Constraint α) :
    (walkSides vs n c : Walk α κ ρ ρ) = walkSides ws n c := by
  unfold walkSides
  simp only [h.expr, alike.lower]

/-- Alike at one depth, the walks are alike one level up. -/
theorem succ (alike : vs.Alike ws) (h : WalksAlike κ vs ws n) : WalksAlike κ vs ws (n + 1) where
  expr e := by rw [walkExpr_succ, walkExpr_succ, h.new alike e]
  constraint c := by rw [walkConstraint_succ, walkConstraint_succ, h.sides alike c]
  attached item := by
    rw [walkAttached.eq_def vs (n + 1), walkAttached.eq_def ws (n + 1)]
    cases item with
    | foreign d => rfl
    | node m =>
        cases m with
        | constraint c => simp only [h.constraint]
        | expr e => simp only [h.expr]

theorem all (alike : vs.Alike ws) (n : Nat) : WalksAlike κ vs ws n := by
  induction n with
  | zero => exact zero vs ws
  | succ n ih => exact ih.succ alike

end WalksAlike

/-- A call cannot tell two states apart that look the same. -/
theorem compileNode_alike {vs ws : Vars α} (alike : vs.Alike ws) (n : Node α) :
    (compileNode vs n : Compile α κ ρ (Returned κ ρ)) = compileNode ws n := by
  cases n with
  | expr e =>
      rw [compileNode, compileNode, compileExpr, compileExpr, alike.depthBound,
        (WalksAlike.all alike _).expr]
  | constraint c =>
      rw [compileNode, compileNode, compileConstraint, compileConstraint, alike.depthBound,
        (WalksAlike.all alike _).constraint]

/-! ## Calls into several caches -/

/-- The caches that calls are made into, by number, and what making things uses up. -/
structure Shelf (κ ρ : Type) where
  ledger : Ledger := {}
  caches : Nat → Cache κ ρ := fun _ => {}

namespace Shelf

/-- What a call into a cache leaves. -/
def put (s : Shelf κ ρ) (k : Nat) (q : Pass κ ρ) : Shelf κ ρ :=
  ⟨q.ledger, Function.update s.caches k q.cache⟩

/-- Compile a node into a cache.  What a refused call changed stays changed. -/
def call (vars : Vars α) (k : Nat) (n : Node α) (s : Shelf κ ρ) :
    Except (Fault α) (Returned κ ρ) × Shelf κ ρ :=
  match compileNode vars n ⟨s.ledger, s.caches k⟩ with
  | .ok x q => (.ok x, s.put k q)
  | .error f q => (.error f, s.put k q)

/-- What every call of a sequence gives, and what it leaves. -/
def calls (vars : Vars α) : List (Nat × Node α) → Shelf κ ρ →
    List (Except (Fault α) (Returned κ ρ) × Shelf κ ρ)
  | [], _ => []
  | (k, n) :: rest, s => s.call vars k n :: (s.call vars k n).2.calls vars rest

theorem calls_alike {vs ws : Vars α} (alike : vs.Alike ws) (sequence : List (Nat × Node α))
    (s : Shelf κ ρ) : s.calls vs sequence = s.calls ws sequence := by
  induction sequence generalizing s with
  | nil => rfl
  | cons first rest ih =>
      have same : s.call vs first.1 first.2 = s.call ws first.1 first.2 := by
        rw [call, call, compileNode_alike alike]
      rw [calls, calls, same, ih]

end Shelf

/-! ## Holding a variable and letting it go -/

omit κ ρ [Compiled α κ ρ]

/-- The changes that hold a variable, at the value it has or at a given one. -/
inductive Holding (x : Variable) : (Vars α → Make α (Vars α)) → Prop where
  | fix : Holding x fun vars => vars.fix x
  | fixAt (d : Input α) : Holding x fun vars => vars.fixAt x d

/-- Holding a variable sets its value, if anything beside. -/
theorem Holding.ok {x : Variable} {f : Vars α → Make α (Vars α)} (hf : Holding x f)
    {vars vars' : Vars α} {l l' : Ledger} (h : f vars l = .ok vars' l') :
    l' = l ∧ ∃ value : Option (Value α) → Option (Value α),
      vars' = vars.change x fun s => { s with value := value s.value, fixed := true } := by
  cases hf with
  | fix =>
      obtain ⟨-, rfl, rfl⟩ := Vars.fix_ok h
      exact ⟨rfl, fun v => v, rfl⟩
  | fixAt d =>
      obtain ⟨vars₁, l₁, assigned, held⟩ := Outcome.bind_ok.mp h
      obtain ⟨v, -, rfl, rfl⟩ := Vars.assign_ok assigned
      obtain ⟨-, rfl, rfl⟩ := Vars.fix_ok held
      exact ⟨rfl, fun _ => some v, Vars.change_change ..⟩

omit [Scalar α] in
/-- A change of the value of a free variable does not show. -/
theorem Vars.alike_change {vars : Vars α} {x : Variable} (isFree : (vars.state x).fixed = false)
    (value : Option (Value α) → Option (Value α)) :
    (vars.change x fun s => { s with value := value s.value, fixed := false }).Alike vars where
  ids := ids_change ..
  attached := by
    rw [change, Table.update, Table.items, List.map_map, List.map_map, Table.items, List.map_map]
    refine List.map_congr_left fun e _ => ?_
    by_cases here : e.1 = x.id
    · simp [here]
    · simp [here]
  state i := by
    rw [change, Table.get?_update]
    by_cases here : x.id = i
    · subst here
      rw [if_pos rfl]
      have here : ((vars.get? x.id).getD {}).fixed = false := isFree
      cases entry : vars.get? x.id with
      | none => exact .refl _
      | some s =>
          rw [entry] at here
          exact ⟨here.symm, rfl, rfl, fun held => by cases held⟩
    · rw [if_neg here]
      exact .refl _

/-- Held and let go, a variable that was free looks as before. -/
theorem Holding.released {x : Variable} {f : Vars α → Make α (Vars α)} (hf : Holding x f)
    {m m₁ m₂ : Model α} (isFree : (m.vars.state x).fixed = false)
    (held : Work.changeVars f m = .ok () m₁)
    (released : Work.changeVars (fun vars => pure (vars.free x)) m₁ = .ok () m₂) :
    m₂.ledger = m.ledger ∧ m₂.vars.Alike m.vars := by
  obtain ⟨vars₁, l₁, holds, rfl⟩ := Work.changeVars_ok held
  obtain ⟨vars₂, l₂, frees, rfl⟩ := Work.changeVars_ok released
  obtain ⟨rfl, value, rfl⟩ := hf.ok holds
  obtain ⟨rfl, rfl⟩ := Outcome.pure_ok.mp frees
  refine ⟨rfl, ?_⟩
  rw [Vars.free, Vars.change_change]
  exact Vars.alike_change isFree value

/-- Any sequence of calls into any caches gives in two states the same, if they differ in
values of free variables and in kinds only: call by call the same objectives and records or
the same refusals, the same caches with the same records in them, and the same identities
used up.  So it does after a free variable was held and let go again. -/
theorem compilation_blind_to_free_values {κ ρ : Type} [Compiled α κ ρ]
    (sequence : List (Nat × Node α)) (s : Shelf κ ρ) :
    (∀ vs ws : Vars α, vs.Alike ws → s.calls vs sequence = s.calls ws sequence) ∧
    ∀ (m m₁ m₂ : Model α) (x : Variable) (f : Vars α → Make α (Vars α)), Holding x f →
      (m.vars.state x).fixed = false → Work.changeVars f m = .ok () m₁ →
      Work.changeVars (fun vars => pure (vars.free x)) m₁ = .ok () m₂ →
      m₂.ledger = m.ledger ∧ s.calls m₂.vars sequence = s.calls m.vars sequence := by
  refine ⟨fun vs ws alike => Shelf.calls_alike alike sequence s, ?_⟩
  intro m m₁ m₂ x f hf isFree held released
  obtain ⟨ledger, alike⟩ := hf.released isFree held released
  exact ⟨ledger, Shelf.calls_alike alike sequence s⟩

/-! ### A free variable of a cycle -/

namespace Looped

def column : Input ℚ := .ofNumbers (.real ⟨[2], #[5, 7]⟩)

/-- The model in which the variable stands so. -/
def modelWith (s : VarState ℚ) : Model ℚ := { world.model with vars := [(1, s)] }

def attachedState : VarState ℚ := { sign := .positive, attached := [.node (.constraint bound)] }

def valuedState : VarState ℚ :=
  { attachedState with value := some (.matrix (.real ⟨2, 1, #[5, 7], rfl⟩)) }

/-- The variable has a value, and is to be an integer. -/
def valued : World ℚ := ⟨modelWith { valuedState with kind := .integer }, world.nodes⟩

theorem valued_reachable : Reachable valued := by
  have assigned : Reachable ⟨modelWith valuedState, world.nodes⟩ :=
    world_reachable.next <| .change _ x _ _ var_made (.assign column) (by with_unfolding_all rfl)
  exact assigned.next <| .change _ x _ _ var_made (.kind .integer) (by with_unfolding_all rfl)

theorem valued_alike : valued.vars.Alike world.vars where
  ids := rfl
  attached := rfl
  state i := by
    by_cases here : (1 : Id) = i
    · subst here
      exact ⟨rfl, rfl, rfl, fun held => by cases held⟩
    · have absent (s : VarState ℚ) : Table.get? [(1, s)] i = none :=
        Table.get?_eq_none_iff.mpr (by simpa [Table.ids] using Ne.symm here)
      rw [valued, modelWith, World.vars, absent, world, World.vars, absent]
      exact .refl _

/-- Two calls into one cache, and one into another. -/
def someCalls : List (Nat × Node ℚ) :=
  [(0, .constraint bound), (1, .expr triple), (0, .expr (.var x))]

end Looped

theorem looped_compilation_blind :
    Reachable Looped.valued ∧ Reachable Looped.world ∧
    Looped.valued.vars.Alike Looped.world.vars ∧
    Shelf.calls Looped.valued.vars Looped.someCalls
        (⟨Looped.world.ledger, fun _ => {}⟩ : Shelf (Objective ℚ) (Record ℚ))
      = Shelf.calls Looped.world.vars Looped.someCalls ⟨Looped.world.ledger, fun _ => {}⟩ ∧
    ∃ m₁ m₂, Work.changeVars (fun vars => vars.fixAt Looped.x Looped.column)
        Looped.world.model = .ok () m₁ ∧
      Work.changeVars (fun vars => pure (vars.free Looped.x)) m₁ = .ok () m₂ ∧
      Shelf.calls m₂.vars Looped.someCalls
          (⟨Looped.world.ledger, fun _ => {}⟩ : Shelf (Objective ℚ) (Record ℚ))
        = Shelf.calls Looped.world.vars Looped.someCalls ⟨Looped.world.ledger, fun _ => {}⟩ := by
  have blind := compilation_blind_to_free_values (α := ℚ) Looped.someCalls
    (⟨Looped.world.ledger, fun _ => {}⟩ : Shelf (Objective ℚ) (Record ℚ))
  have held : Work.changeVars (fun vars => vars.fixAt Looped.x Looped.column)
      Looped.world.model
        = .ok () (Looped.modelWith { Looped.valuedState with fixed := true }) := by
    with_unfolding_all rfl
  have released : Work.changeVars (fun vars => pure (vars.free Looped.x))
      (Looped.modelWith { Looped.valuedState with fixed := true })
        = .ok () (Looped.modelWith Looped.valuedState) := by
    with_unfolding_all rfl
  refine ⟨Looped.valued_reachable, Looped.world_reachable, Looped.valued_alike,
    blind.1 _ _ Looped.valued_alike, _, _, held, released, ?_⟩
  exact (blind.2 _ _ _ Looped.x _ (.fixAt Looped.column) rfl held released).2

end ConicModel
