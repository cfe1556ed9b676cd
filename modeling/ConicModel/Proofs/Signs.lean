/-
# Signs and elements

Signs say which elements are complex, and it is signs that an inequality is checked by when it
is made.  What is compiled of it later goes by the elements.

A constant whose sign was not given by hand is *candid*: its elements are real unless its sign
is complex.  In a session that gives no such sign (`World.Infers`) all constants are, so those
in an inequality that passed the check are real, and they stay so because constants do not
change (`World.Checked`).

Variables do change.  A value is stored with the elements that fit the sign of that moment, and
the sign can be set afterwards, without a look at the value or at the inequalities that the
variable stands in.  Both are right as long as no variable becomes complex, or ceases to be,
after it was made (`World.Steady`, `World.Candid`).
-/
import Mathlib.Logic.Relation
import ConicModel.Proofs.World

namespace ConicModel

variable {α : Type}

/-! ## Leaves -/

/-- What an expression is made of in the end. -/
def Expr.leaves : Expr α → List (Expr α)
  | kron _ a b => a.leaves ++ b.leaves
  | e => [e]

/-- What the sides of a constraint are made of. -/
def Constraint.leaves (c : Constraint α) : List (Expr α) := c.lhs.leaves ++ c.rhs.leaves

namespace Roster

variable {N : Set (Node α)} {next : Id}

theorem leaf (h : Roster N next) {e d : Expr α} (he : .expr e ∈ N) (hd : d ∈ e.leaves) :
    .expr d ∈ N := by
  induction e with
  | var x | const c | stub s =>
      cases List.mem_singleton.mp hd
      exact he
  | kron id a b iha ihb =>
      obtain ⟨ha, hb⟩ := h.kron he
      exact (List.mem_append.mp hd).elim (iha ha) (ihb hb)

theorem leaf_of_constraint (h : Roster N next) {c : Constraint α} {d : Expr α}
    (hc : .constraint c ∈ N) (hd : d ∈ c.leaves) : .expr d ∈ N := by
  obtain ⟨hl, hr⟩ := h.sides hc
  exact (List.mem_append.mp hd).elim (h.leaf hl) (h.leaf hr)

end Roster

theorem Sign.mul_eq_complex_iff {s t : Sign} :
    s.mul t = .complex ↔ s = .complex ∨ t = .complex := by
  cases s <;> cases t <;> decide

/-- One complex leaf makes an expression complex, and nothing else does. -/
theorem Expr.sign_eq_complex_iff {vars : Vars α} {e : Expr α} :
    e.sign vars = .complex ↔ ∃ d ∈ e.leaves, d.sign vars = .complex := by
  induction e with
  | var x | const c | stub s =>
      exact ⟨fun h => ⟨_, List.mem_singleton_self _, h⟩,
        fun ⟨d, hd, h⟩ => List.mem_singleton.mp hd ▸ h⟩
  | kron id a b iha ihb =>
      rw [sign, Sign.mul_eq_complex_iff, iha, ihb, leaves]
      simp only [List.mem_append, or_and_right, exists_or]

theorem Constraint.isComplex_eq_false_iff {vars : Vars α} {c : Constraint α} :
    c.isComplex vars = false ↔ ∀ d ∈ c.leaves, d.sign vars ≠ .complex := by
  rw [isComplex, Bool.or_eq_false_iff, decide_eq_false_iff_not, decide_eq_false_iff_not,
    Expr.sign_eq_complex_iff, Expr.sign_eq_complex_iff, leaves]
  push Not
  exact List.forall_mem_append.symm

/-- The relations that are checked for complex sides. -/
def Relation.IsInequality (r : Relation) : Prop := r = .atLeast ∨ r = .atMost

/-! ## Candid elements -/

/-- The elements are real. -/
def Value.IsReal (v : Value α) : Prop := v.toMatrix.isComplex = false

/-- Elements are real unless the sign is complex. -/
def Constant.Candid (c : Constant α) : Prop := c.sign ≠ .complex → c.value.isComplex = false

/-- The elements of a value are real unless the sign is complex. -/
def VarState.Candid (s : VarState α) : Prop :=
  s.sign ≠ .complex → ∀ v, s.value = some v → v.IsReal

/-- What was found of a node when it was made, if no sign was given by hand: constants are
candid, and the leaves of an inequality are not complex. -/
def Node.Passes (vars : Vars α) : Node α → Prop
  | .expr (.const k) => k.Candid
  | .expr _ => True
  | .constraint c => c.relation.IsInequality → ∀ d ∈ c.leaves, d.sign vars ≠ .complex

/-- Every constant among the nodes is candid. -/
def Candid (N : Set (Node α)) : Prop := ∀ k, .expr (.const k) ∈ N → k.Candid

/-! ### Element types -/

namespace Numeric

variable {F G : Type → Type}

theorem isComplex_map [Entry α] (f : ∀ {R : Type} [Entry R], F R → G R) (x : Numeric F α) :
    (x.map f).isComplex = x.isComplex := by cases x <;> rfl

theorem isComplex_map₂ [Functor F] [Entry α] (f : ∀ {R : Type} [Entry R], F R → F R → G R)
    (x y : Numeric F α) : (x.map₂ f y).isComplex = (x.isComplex || y.isComplex) := by
  cases x <;> cases y <;> rfl

/-- Under a sign that is not complex elements are made real. -/
theorem isComplex_convert [Functor F] [Scalar α] {sign : Sign} {isReal : F (Cplx α) → Bool}
    {x y : Numeric F α} (h : x.convert sign isReal = .ok y) (real : sign ≠ .complex) :
    y.isComplex = false := by
  unfold convert at h
  rw [if_neg real] at h
  split at h
  · cases h
    rfl
  · split at h
    · cases h
      rfl
    · cases h

end Numeric

section

variable [Scalar α] {vars : Vars α} {N : Set (Node α)} {l l' : Ledger}

/-- A value is accepted with real elements unless the sign is complex. -/
theorem Variable.isReal_of_accept {x : Variable} {sign : Sign} {d : Input α} {v : Value α}
    (h : x.accept sign d = .ok v) (real : sign ≠ .complex) : v.IsReal := by
  obtain ⟨a, -, store⟩ := Variable.accept_ok h
  rw [Variable.store] at store
  split at store
  · obtain ⟨z, hz, rfl⟩ := Outcome.except_map_ok.mp store
    have elements := Numeric.isComplex_convert hz real
    cases z with
    | real z => rfl
    | complex z => cases elements
  · obtain ⟨A, hA, rfl⟩ := Outcome.except_map_ok.mp store
    exact Numeric.isComplex_convert hA real

/-! ### What construction lets pass -/

theorem Constant.candid_of_inferred {d : Input α} {c : Constant α}
    (h : makeConstant vars d none l = .ok c l') : c.Candid := by
  obtain ⟨-, a, A, -, -, rfl⟩ := makeConstant_ok h
  intro real
  cases A with
  | real A => rfl
  | complex A => exact (real rfl).elim

theorem Constant.Candid.spread {c c' : Constant α} {shape : Nat × Nat} (h : c.Candid)
    (made : c.spread shape l = .ok c' l') : c'.Candid := by
  obtain ⟨-, rfl⟩ := spread_ok made
  intro real
  have elements := Numeric.isComplex_map (fun A => Dense.replicate shape.1 shape.2 A.head) c.value
  exact elements.trans (h real)

theorem asExpr_passes {d : Input α} {e : Expr α} (hd : Offers N d)
    (h : asExpr vars d l = .ok e l') : .expr e ∈ N ∨ (Node.expr e).Passes vars := by
  rcases asExpr_ok h with ⟨⟨s, hs⟩, -⟩ | ⟨c, rfl, hc⟩
  · exact .inl (hd s e hs)
  · exact .inr (Constant.candid_of_inferred hc)

omit [Scalar α] in
theorem checkSides_inequality {c c' : Constraint α} (h : checkSides vars c l = .ok c' l')
    (inequality : c.relation.IsInequality) : c.isComplex vars = false := by
  unfold checkSides at h
  rcases inequality with relation | relation <;>
  · rw [relation] at h
    dsimp only at h
    split at h
    · exact (Outcome.throw_ok.mp h).elim
    · rename_i real
      exact Bool.not_eq_true _ ▸ real

/-- A product and its operands pass. -/
theorem makeKron_passes {a b : Input α} {e : Expr α} (ha : Offers N a) (hb : Offers N b)
    (h : makeKron vars a b l = .ok e l') :
    ∀ n ∈ gain N (.expr e), n ∈ N ∨ n.Passes vars := by
  obtain ⟨x, y, l₁, l₂, hx, hy, rfl, -⟩ := makeKron_steps h
  rintro n (rfl | hn | hn)
  · exact .inr trivial
  · rcases List.mem_cons.mp hn with rfl | hn
    · exact asExpr_passes ha hx
    · exact List.mem_singleton.mp hn ▸ asExpr_passes hb hy
  · exact .inl hn

/-- A constraint passes, and so do its sides, also where a constant was spread. -/
theorem makeConstraint_passes {relation : Relation} {dl dr : Input α} {c : Constraint α}
    (candid : Candid N) (hl : Offers N dl) (hr : Offers N dr)
    (h : makeConstraint vars relation dl dr l = .ok c l') :
    ∀ n ∈ gain N (.constraint c), n ∈ N ∨ n.Passes vars := by
  obtain ⟨-, -, x, y, l₁, l₂, hx, hy, hxy, checked⟩ := makeConstraint_steps h
  have left := asExpr_passes hl hx
  have right := asExpr_passes hr hy
  have spread {k k' : Constant α} {shape : Nat × Nat} {l l' : Ledger}
      (h : .expr (.const k) ∈ N ∨ (Node.expr (.const k)).Passes vars)
      (made : k.spread shape l = .ok k' l') : (Node.expr (.const k')).Passes vars :=
    Constant.Candid.spread (h.elim (candid k) fun new => new) made
  have sides : (.expr c.lhs ∈ N ∨ (Node.expr c.lhs).Passes vars) ∧
      (.expr c.rhs ∈ N ∨ (Node.expr c.rhs).Passes vars) := by
    obtain ⟨-, ⟨rfl, rfl, -⟩ | ⟨rfl, k, k', rfl, -, hk, rhs⟩ | ⟨rfl, k, k', rfl, -, hk, lhs⟩⟩ :=
      broadcast_ok hxy
    · exact ⟨left, right⟩
    · exact ⟨left, .inr (rhs ▸ spread right hk)⟩
    · exact ⟨.inr (lhs ▸ spread left hk), right⟩
  rintro n (rfl | hn | hn)
  · exact .inr fun inequality =>
      Constraint.isComplex_eq_false_iff.mp (checkSides_inequality checked inequality)
  · rcases List.mem_cons.mp hn with rfl | hn
    · exact sides.1
    · exact List.mem_singleton.mp hn ▸ sides.2
  · exact .inl hn

/-- A declaration makes no inequality, and the constant it may make is real. -/
theorem VariableSpec.declare_passes {w : World α} (sound : w.Sound) {spec : VariableSpec α}
    {x : Variable} {m : Model α} (h : spec.declare [] w.model = .ok x m) {n : Node α}
    (hn : n ∈ {n | n = .expr (.var x) ∨ n ∈ w.nodes ∨
      ∃ c, .node (.constraint c) ∈ (m.vars.state x).attached ∧
        (n = .constraint c ∨ n ∈ (Node.constraint c).children)}) :
    n ∈ w.nodes ∨ n.Passes m.vars := by
  rcases sound.node_of_declare h hn with rfl | old | ⟨c, k, relation, value, rfl | rfl⟩
  · exact .inr trivial
  · exact .inl old
  · right
    rintro (inequality | inequality) <;> cases relation.symm.trans inequality
  · right
    intro _
    rw [value]
    rfl

end

/-! ## Sessions without signs given by hand -/

/-- One operation that was not refused, and gave no constant a sign by hand. -/
inductive World.Infers [Scalar α] : World α → World α → Prop where
  | constant (w : World α) (d : Input α) (c : Constant α) (l : Ledger)
      (h : makeConstant w.vars d none w.ledger = .ok c l) :
      Infers w (w.make l (.expr (.const c)))
  | kron (w : World α) (a b : Input α) (e : Expr α) (l : Ledger) (ha : Offers w.nodes a)
      (hb : Offers w.nodes b) (h : makeKron w.vars a b w.ledger = .ok e l) :
      Infers w (w.make l (.expr e))
  | constraint (w : World α) (relation : Relation) (dl dr : Input α) (c : Constraint α)
      (l : Ledger) (hl : Offers w.nodes dl) (hr : Offers w.nodes dr)
      (h : makeConstraint w.vars relation dl dr w.ledger = .ok c l) :
      Infers w (w.make l (.constraint c))
  | declare (w : World α) (spec : VariableSpec α) (x : Variable) (m : Model α)
      (h : spec.declare [] w.model = .ok x m) :
      Infers w ⟨m, {n | n = .expr (.var x) ∨ n ∈ w.nodes ∨
        ∃ c, .node (.constraint c) ∈ (m.vars.state x).attached ∧
          (n = .constraint c ∨ n ∈ (Node.constraint c).children)}⟩
  /-- Anything that makes no node. -/
  | keep {w w' : World α} (h : Step w w') (same : w'.nodes = w.nodes) : Infers w w'

namespace World

section

variable [Scalar α] {w w' : World α}

theorem Infers.step (h : w.Infers w') : Step w w' := by
  cases h with
  | constant d c l h => exact .constant w d none c l h
  | kron a b e l ha hb h => exact .kron w a b e l ha hb h
  | constraint relation dl dr c l hl hr h => exact .constraint w relation dl dr c l hl hr h
  | declare spec x m h => exact .declare w spec x m h
  | keep h same => exact h

/-- What is new has passed. -/
theorem Infers.passes (h : w.Infers w') (sound : w.Sound) (candid : Candid w.nodes) :
    ∀ n ∈ w'.nodes, n ∈ w.nodes ∨ n.Passes w'.vars := by
  cases h with
  | constant d c l h =>
      rintro n (rfl | hn | hn)
      · exact .inr (Constant.candid_of_inferred h)
      · cases hn
      · exact .inl hn
  | kron a b e l ha hb h => exact makeKron_passes ha hb h
  | constraint relation dl dr c l hl hr h => exact makeConstraint_passes candid hl hr h
  | declare spec x m h => exact fun n hn => VariableSpec.declare_passes sound h hn
  | keep h same => exact fun n hn => .inl (same ▸ hn)

/-- What a session without signs given by hand comes to. -/
theorem Infers.reachable (run : Relation.ReflTransGen Infers {} w) : Reachable w := by
  induction run with
  | refl => exact .start
  | tail _ h ih => exact ih.next h.step

/-- Constants are candid, and those in inequalities are real. -/
structure Checked (w : World α) : Prop where
  constants : Candid w.nodes
  sides : ∀ c, .constraint c ∈ w.nodes → c.relation.IsInequality →
    ∀ k, .const k ∈ c.leaves → k.value.isComplex = false

theorem Checked.next (h : w.Checked) (sound : w.Sound) (step : w.Infers w') : w'.Checked := by
  have passes := step.passes sound h.constants
  have constants : Candid w'.nodes := fun k hk => (passes _ hk).elim (h.constants k) id
  refine ⟨constants, fun c hc inequality k hk => ?_⟩
  rcases passes _ hc with old | new
  · exact h.sides c old inequality k hk
  · have made := (step.step.sound sound).coherent.roster.leaf_of_constraint hc hk
    exact constants k made (new inequality _ hk)

theorem Infers.checked (run : Relation.ReflTransGen Infers {} w) : w.Checked := by
  induction run with
  | refl => exact ⟨fun k hk => hk.elim, fun c hc => hc.elim⟩
  | tail run h ih => exact ih.next (Infers.reachable run).sound h

end

end World

/-! ## Sessions that leave complex signs alone -/

section

variable [Scalar α] {vars vars' : Vars α} {x : Variable}

omit [Scalar α] in
theorem Vars.candid_change {f : VarState α → VarState α} (h : ∀ y, (vars.state y).Candid)
    (changed : (f (vars.state x)).Candid) (y : Variable) :
    ((vars.change x f).state y).Candid := by
  rcases vars.state_change x y f with same | new
  · rw [same]
    exact h y
  · by_cases here : x.id = y.id
    · have state : vars.state y = vars.state x := by rw [Vars.state, Vars.state, here]
      rw [new, state]
      exact changed
    · rw [vars.state_change_of_ne here]
      exact h y

theorem Vars.candid_assign {d : Input α} {l l' : Ledger} (h : ∀ y, (vars.state y).Candid)
    (assigned : vars.assign x d l = .ok vars' l') : ∀ y, (vars'.state y).Candid := by
  obtain ⟨v, hv, -, rfl⟩ := Vars.assign_ok assigned
  refine Vars.candid_change h fun real w hw => ?_
  cases hw
  exact Variable.isReal_of_accept hv real

/-- Only setting a sign can part it from the elements. -/
theorem Change.candid {N : Set (Node α)} {f : Vars α → Make α (Vars α)} {l l' : Ledger}
    (hf : Change N x f) (known : x.id ∈ vars.ids) (h : ∀ y, (vars.state y).Candid)
    (made : f vars l = .ok vars' l')
    (steady : (vars'.state x).sign = .complex ↔ (vars.state x).sign = .complex) :
    ∀ y, (vars'.state y).Candid := by
  cases hf with
  | assign d => exact Vars.candid_assign h made
  | fix =>
      obtain ⟨-, -, rfl⟩ := Vars.fix_ok made
      exact Vars.candid_change h (h x)
  | fixAt d =>
      obtain ⟨mid, l₁, assigned, fixed⟩ := Outcome.bind_ok.mp made
      obtain ⟨-, -, rfl⟩ := Vars.fix_ok fixed
      have candid := Vars.candid_assign h assigned
      exact Vars.candid_change candid (candid x)
  | free | kind | attached =>
      obtain ⟨rfl, -⟩ := Outcome.pure_ok.mp made
      exact Vars.candid_change h (h x)
  | sign s =>
      obtain ⟨rfl, -⟩ := Outcome.pure_ok.mp made
      rw [Vars.state_change_self known] at steady
      exact Vars.candid_change h fun real => h x fun complex => real (steady.mpr complex)

theorem Model.candid_of_writeBlocks {solution : Flat α} {places : List (Expr α × Slot)}
    {m m' : Model α} (h : ∀ y, (m.vars.state y).Candid)
    (written : places.forM (Model.writeBlock solution) m = .ok () m') :
    ∀ y, (m'.vars.state y).Candid := by
  induction places generalizing m with
  | nil =>
      obtain ⟨-, rfl⟩ := Outcome.pure_ok.mp written
      exact h
  | cons p places ih =>
      obtain ⟨⟨⟩, m₁, first, rest⟩ := Outcome.bind_ok.mp written
      obtain ⟨x, block, d, -, -, -, assigned⟩ := Model.writeBlock_ok first
      obtain ⟨vars, l, hvars, rfl⟩ := Work.changeVars_ok assigned
      exact ih (Vars.candid_assign h hvars) rest

/-- A new variable has no value. -/
theorem VariableSpec.candid_of_declare {spec : VariableSpec α} {m m' : Model α}
    (h : ∀ y, (m.vars.state y).Candid) (declared : spec.declare [] m = .ok x m') :
    ∀ y, (m'.vars.state y).Candid := by
  obtain ⟨-, kind, l, m₁, -, hregister, attached⟩ := VariableSpec.declare_ok declared
  have entered : ∀ y, (m₁.vars.state y).Candid := by
    intro y
    rw [(Model.register_ok hregister).1]
    rcases Vars.state_push m.vars x.id { sign := spec.sign, kind := kind } y with same | ⟨-, new⟩
    · exact (congrArg VarState.Candid same).mpr (h y)
    · refine (congrArg VarState.Candid new).mpr fun _ v hv => ?_
      cases hv
  rcases attached with rfl | attached
  · exact entered
  · obtain ⟨c, l', -, rfl⟩ := VariableSpec.attach_semidefinite_ok attached
    dsimp only
    exact Vars.candid_change entered (entered x)

namespace World

variable {w w' : World α}

/-- One operation after which those variables are complex that were. -/
def Steady (w w' : World α) : Prop :=
  w.Infers w' ∧ ∀ x, .expr (.var x) ∈ w.nodes →
    ((w'.vars.state x).sign = .complex ↔ (w.vars.state x).sign = .complex)

/-- Signs agree with values, and inequalities are about variables that are not complex. -/
structure Aligned (w : World α) : Prop where
  values : ∀ x, (w.vars.state x).Candid
  sides : ∀ c, .constraint c ∈ w.nodes → c.relation.IsInequality →
    ∀ x, .var x ∈ c.leaves → (w.vars.state x).sign ≠ .complex

theorem Steady.values (h : w.Steady w') (sound : w.Sound)
    (values : ∀ x, (w.vars.state x).Candid) : ∀ x, (w'.vars.state x).Candid := by
  obtain ⟨infers, steady⟩ := h
  cases infers.step with
  | spend | constant | kron | constraint => exact values
  | declare spec x m hm => exact VariableSpec.candid_of_declare values hm
  | change x f m hx hf hm =>
      obtain ⟨vars, l, hvars, rfl⟩ := Work.changeVars_ok hm
      exact hf.candid (sound.coherent.known x hx) values hvars (steady x hx)
  | register name n m hn hm =>
      intro x
      rw [World.vars, (Model.register_ok hm).1]
      exact values x
  | clear name m hm =>
      cases hm
      intro x
      rw [World.vars, (w.model.setContext_vars name _).1]
      exact values x
  | setCurrent name previous m hm =>
      cases hm
      exact values
  | load name d layout m hm =>
      obtain ⟨solution, places, -, -, -, written⟩ := Model.loadSolution_ok hm
      exact Model.candid_of_writeBlocks values written

theorem Aligned.next (h : w.Aligned) (sound : w.Sound) (candid : ConicModel.Candid w.nodes)
    (step : w.Steady w') : w'.Aligned := by
  refine ⟨step.values sound h.values, fun c hc inequality x hx => ?_⟩
  rcases step.1.passes sound candid _ hc with old | new
  · have made := sound.coherent.roster.leaf_of_constraint old hx
    exact fun complex => h.sides c old inequality x hx ((step.2 x made).mp complex)
  · exact new inequality _ hx

/-- A steady run is a run. -/
theorem Steady.infers (run : Relation.ReflTransGen Steady {} w) :
    Relation.ReflTransGen Infers {} w :=
  Relation.ReflTransGen.mono (fun _ _ h => h.1) _ _ run

theorem Steady.aligned (run : Relation.ReflTransGen Steady {} w) : w.Aligned := by
  induction run with
  | refl =>
      refine ⟨fun x _ v hv => ?_, fun c hc => hc.elim⟩
      cases hv
  | tail run step ih =>
      have before := Steady.infers run
      exact ih.next (Infers.reachable before).sound (Infers.checked before).constants step

end World

end

end ConicModel
