/-
# What was compiled means what it was compiled from

An objective in a cache stands for an expression in every state that agrees with the one
in which it was compiled: the variables that are held have the values they had, and the
free variables it mentions have any values of their shapes, real unless they are complex.
`Assigns` is such a state, with the parts of the values listed by identity and place;
`Expr.Renders` says that read at these parts an objective gives the entries of the value,
and `Constraint.Renders` says the same of a record and the difference of the two sides.

That a cache holds nothing else (`Pass.Means`) is maintained by walks, so every run keeps it
(`Run.means`).  It is about the nodes made so far, because places are told apart by identity;
when the constraint of a sign is made on the way, it and its zero join them.
-/
import ConicModel.Proofs.Compile.Closure
import ConicModel.Proofs.Evaluation
import ConicModel.Proofs.Objective.Reading

namespace ConicModel

variable {α : Type} [Scalar α]

/-! ## States that agree -/

/-- Free variables by identity, and how many entries each has. -/
def FreeLength (vars : Vars α) (N : Set (Node α)) (i : Id) (n : Nat) : Prop :=
  ∃ x, .expr (.var x) ∈ N ∧ (vars.state x).fixed = false ∧ x.id = i ∧ n = x.rows * x.cols

/-- The states `vars'` give free variables the parts `re` and `im`, as far as these are
asked for, and leave what is held in `vars` as it is. -/
structure Assigns (vars vars' : Vars α) (N : Set (Node α)) (keys : List Id)
    (re im : Id → Nat → α) : Prop where
  held : ∀ x, .expr (.var x) ∈ N → (vars.state x).fixed = true →
    (vars'.state x).value = (vars.state x).value
  free : ∀ x, .expr (.var x) ∈ N → (vars.state x).fixed = false → x.id ∈ keys →
    ∃ v, (vars'.state x).value = some v ∧ v.shape = (x.rows, x.cols) ∧
      ∀ k < x.rows * x.cols, v.entry k = Cplx.ofReal (re x.id k) +
        if (vars.state x).sign = .complex then Cplx.I * Cplx.ofReal (im x.id k) else 0

omit [Scalar α] in
theorem FreeLength.mono {vars : Vars α} {N M : Set (Node α)} (sub : N ⊆ M) {i : Id} {n : Nat}
    (h : FreeLength vars N i n) : FreeLength vars M i n := by
  obtain ⟨x, hx, rest⟩ := h
  exact ⟨x, sub hx, rest⟩

/-- Fewer nodes and fewer keys ask for less. -/
theorem Assigns.mono {vars vars' : Vars α} {N M : Set (Node α)} {keys keys' : List Id}
    {re im : Id → Nat → α} (h : Assigns vars vars' M keys re im) (nodes : N ⊆ M)
    (sub : keys' ⊆ keys) : Assigns vars vars' N keys' re im where
  held x hx := h.held x (nodes hx)
  free x hx free hkey := h.free x (nodes hx) free (sub hkey)

variable [LawfulEntry α]

/-- An objective stands for an expression. -/
structure Expr.Renders (vars : Vars α) (N : Set (Node α)) (e : Expr α) (o : Objective α) :
    Prop where
  formed : o.Formed e.length
  about : o.Over (FreeLength vars N)
  value : ∀ vars' re im, Assigns vars vars' N o.keys re im →
    ∃ v, e.evaluate vars' = .ok v ∧ v.shape = e.shape ∧
      ∀ k < e.length, o.row re im k = v.entry k

/-- A record stands for a constraint: the left side minus the right one, with the sign
changed if the left side is the smaller one. -/
structure Constraint.Renders (vars : Vars α) (N : Set (Node α)) (c : Constraint α)
    (r : Record α) : Prop where
  formed : r.objective.Formed c.size
  about : r.objective.Over (FreeLength vars N)
  cone : r.cone = c.cone vars
  size : r.size = c.size
  value : ∀ vars' re im, Assigns vars vars' N r.objective.keys re im →
    ∃ vl vr, c.lhs.evaluate vars' = .ok vl ∧ c.rhs.evaluate vars' = .ok vr ∧
      vl.shape = c.shape ∧ vr.shape = c.shape ∧
      ∀ k < c.size, r.objective.row re im k =
        if c.relation = .atMost then -(vl.entry k - vr.entry k) else vl.entry k - vr.entry k

namespace Expr.Renders

variable {vars : Vars α} {N M : Set (Node α)} {next : Id}

theorem mono {e : Expr α} {o : Objective α} (h : e.Renders vars N o) (sub : N ⊆ M) :
    e.Renders vars M o where
  formed := h.formed
  about := h.about.mono fun _ _ => FreeLength.mono sub
  value vars' re im ha := h.value vars' re im (ha.mono sub (List.Subset.refl _))

/-! ## Expressions -/

/-- A constant is entered by its value. -/
theorem constant (coherent : Coherent vars N next) {e : Expr α} (he : .expr e ∈ N)
    (constant : e.curvature vars = .constant) {v : Value α} (hv : e.evaluate vars = .ok v) :
    e.Renders vars N (.ofConstant v.toMatrix) where
  formed := Objective.formed_ofConstant _ (coherent.shape_of_evaluate he hv)
  about := Objective.over_ofConstant _ _
  value vars' re im ha := by
    have shape : v.shape = e.shape := coherent.shape_of_evaluate he hv
    refine ⟨v, ?_, shape, fun k hk => Objective.row_ofConstant _ shape hk⟩
    rw [coherent.evaluate_constant he constant ha.held]
    exact hv

/-- A free variable is entered under its own identity. -/
theorem free (coherent : Coherent vars N next) {x : Variable} (hx : .expr (.var x) ∈ N)
    (free : (vars.state x).fixed = false) :
    (Expr.var x).Renders vars N (.ofVariable x (vars.state x).sign) where
  formed := Objective.formed_ofVariable (coherent.roster.ne_constantKey hx) _
  about := Objective.over_ofVariable _ ⟨x, hx, free, rfl, rfl⟩
  value vars' re im ha := by
    obtain ⟨v, hv, shape, entries⟩ := ha.free x hx free List.mem_cons_self
    refine ⟨v, Expr.evaluate_var_ok.mpr hv, shape, fun k hk => ?_⟩
    rw [Objective.row_ofVariable (coherent.roster.ne_constantKey hx) _ hk, entries k hk]

/-- A product is the operator of its left operand times what stands for the right one. -/
theorem kron (coherent : Coherent vars N next) {id : Id} {a b : Expr α}
    (hn : .expr (.kron id a b) ∈ N) (left : a.curvature vars = .constant) {v : Value α}
    (hv : a.evaluate vars = .ok v) {child o : Objective α} (below : b.Renders vars N child)
    (ho : child.premultiply (v.toMatrix.map fun A => kroneckerOperator A b.shape.1 b.shape.2)
      = .ok o) : (Expr.kron id a b).Renders vars N o := by
  have ha : .expr a ∈ N := (coherent.roster.kron hn).1
  have shape : v.shape = a.shape := coherent.shape_of_evaluate ha hv
  have length : (Expr.kron id a b).length
      = v.shape.1 * b.shape.1 * (v.shape.2 * b.shape.2) := by
    rw [shape]
    rfl
  refine ⟨?_, below.about.premultiply ho, fun vars' re im assigns => ?_⟩
  · rw [length, ← v.rows_operator]
    exact below.formed.premultiply ho
  · rw [Objective.keys_premultiply ho] at assigns
    obtain ⟨w, hw, shape_w, entries⟩ := below.value vars' re im assigns
    have hv' : a.evaluate vars' = .ok v := by
      rw [coherent.evaluate_constant ha left assigns.held]
      exact hv
    refine ⟨_, Expr.evaluate_kron_ok.mpr ⟨v, w, hv', hw, rfl⟩, ?_, fun k hk => ?_⟩
    · have shape_v : v.toMatrix.on Dense.shape = a.shape := shape
      have shape_w : w.toMatrix.on Dense.shape = b.shape := shape_w
      rw [Value.shape, Value.toMatrix, Numeric.shape_kron, shape_v, shape_w]
      rfl
    · rw [Objective.row_premultiply below.formed ho, Value.entry_kron v w, shape_w]
      · exact Finset.sum_congr rfl fun l hl => by rw [entries l (Finset.mem_range.mp hl)]
      · rw [shape_w, ← length]
        exact hk

end Expr.Renders

/-! ## Constraints -/

namespace Constraint.Renders

variable {vars : Vars α} {N M : Set (Node α)}

theorem mono {c : Constraint α} {r : Record α} (h : c.Renders vars N r) (sub : N ⊆ M) :
    c.Renders vars M r :=
  { h with
    about := h.about.mono fun _ _ => FreeLength.mono sub
    value := fun vars' re im ha => h.value vars' re im (ha.mono sub (List.Subset.refl _)) }

section Lowering

variable {c : Constraint α} (shapes : c.lhs.shape = c.rhs.shape) {l r d : Objective α}
  (hl : c.lhs.Renders vars N l) (hr : c.rhs.Renders vars N r) (hd : l.sub r = .ok d)

include shapes hl hr hd

/-- The difference says what the left side is, minus what the right one is. -/
theorem difference {vars' : Vars α} {re im : Id → Nat → α}
    (ha : Assigns vars vars' N d.keys re im) :
    ∃ vl vr, c.lhs.evaluate vars' = .ok vl ∧ c.rhs.evaluate vars' = .ok vr ∧
      vl.shape = c.shape ∧ vr.shape = c.shape ∧
      ∀ k < c.size, d.row re im k = vl.entry k - vr.entry k := by
  have length : c.rhs.length = c.size := by rw [Expr.length, ← shapes]; rfl
  have hr_formed : r.Formed c.size := length ▸ hr.formed
  -- The difference has the keys of both sides.
  have keys : ∀ i, i ∈ l.keys ∨ i ∈ r.keys → i ∈ d.keys := by
    intro i hi
    rw [← Objective.keys_neg r] at hi
    exact (Objective.mem_keys_add hd i).mpr hi
  obtain ⟨vl, hvl, shape_l, left⟩ := hl.value vars' re im
    (ha.mono (Set.Subset.refl N) fun i hi => keys i (.inl hi))
  obtain ⟨vr, hvr, shape_r, right⟩ := hr.value vars' re im
    (ha.mono (Set.Subset.refl N) fun i hi => keys i (.inr hi))
  refine ⟨vl, vr, hvl, hvr, shape_l, shape_r.trans shapes.symm, fun k hk => ?_⟩
  rw [Objective.row_sub hl.formed hr_formed hd, left k hk, right k (length ▸ hk)]

/-- A record is lowered from what stands for the two sides. -/
theorem lower {s : Record α} (hs : c.lower vars d = .ok s) : c.Renders vars N s := by
  have length : c.rhs.length = c.size := by rw [Expr.length, ← shapes]; rfl
  have hr_formed : r.Formed c.size := length ▸ hr.formed
  have formed : d.Formed c.size := hl.formed.add hr_formed.neg hd
  have about : d.Over (FreeLength vars N) := hl.about.add hr.about.neg hd
  rw [Constraint.lower] at hs
  split at hs
  · rename_i atMost
    cases hs
    refine ⟨formed.neg, about.neg, rfl, rfl, fun vars' re im ha => ?_⟩
    have ha : Assigns vars vars' N d.keys re im := Objective.keys_neg d ▸ ha
    obtain ⟨vl, vr, hvl, hvr, shape_l, shape_r, rows⟩ := difference shapes hl hr hd ha
    refine ⟨vl, vr, hvl, hvr, shape_l, shape_r, fun k hk => ?_⟩
    rw [if_pos atMost, ← rows k hk]
    exact Objective.row_neg d k
  · rename_i other
    cases hs
    refine ⟨formed, about, rfl, rfl, fun vars' re im ha => ?_⟩
    obtain ⟨vl, vr, hvl, hvr, shape_l, shape_r, rows⟩ := difference shapes hl hr hd ha
    refine ⟨vl, vr, hvl, hvr, shape_l, shape_r, fun k hk => ?_⟩
    rw [if_neg other]
    exact rows k hk

end Lowering

end Constraint.Renders

/-! ## Caches -/

/-- Everything in the cache stands for a node that was made. -/
structure Pass.Means (vars : Vars α) (N : Set (Node α))
    (p : Pass (Objective α) (Record α)) : Prop where
  exprs : ∀ i o, (i, o) ∈ p.cache.exprs → ∃ e, .expr e ∈ N ∧ e.id = i ∧ e.Renders vars N o
  constraints : ∀ i r, (i, r) ∈ p.cache.constraints →
    ∃ c, .constraint c ∈ N ∧ c.id = i ∧ c.Renders vars N r

namespace Pass.Means

variable {vars : Vars α} {N M : Set (Node α)} {next : Id}
  {p : Pass (Objective α) (Record α)}

theorem mono (h : p.Means vars N) (sub : N ⊆ M) : p.Means vars M where
  exprs i o hi := by
    obtain ⟨e, he, hid, renders⟩ := h.exprs i o hi
    exact ⟨e, sub he, hid, renders.mono sub⟩
  constraints i r hi := by
    obtain ⟨c, hc, hid, renders⟩ := h.constraints i r hi
    exact ⟨c, sub hc, hid, renders.mono sub⟩

theorem spend (h : p.Means vars N) (l : Ledger) : (p.spend l).Means vars N :=
  ⟨h.exprs, h.constraints⟩

theorem enterExpr (h : p.Means vars N) {e : Expr α} (he : .expr e ∈ N) {o : Objective α}
    (renders : e.Renders vars N o) : (p.enterExpr e.id o).Means vars N where
  exprs i o' hi := by
    rcases List.mem_append.mp hi with hi | hi
    · exact h.exprs i o' hi
    · cases List.mem_singleton.mp hi
      exact ⟨e, he, rfl, renders⟩
  constraints := h.constraints

theorem enterConstraint (h : p.Means vars N) {c : Constraint α} (hc : .constraint c ∈ N)
    {r : Record α} (renders : c.Renders vars N r) : (p.enterConstraint c.id r).Means vars N where
  exprs := h.exprs
  constraints i r' hi := by
    rcases List.mem_append.mp hi with hi | hi
    · exact h.constraints i r' hi
    · cases List.mem_singleton.mp hi
      exact ⟨c, hc, rfl, renders⟩

/-- What is found for an expression stands for it. -/
theorem renders (h : p.Means vars N) (coherent : Coherent vars N next) {e : Expr α}
    (he : .expr e ∈ N) {o : Objective α} (held : p.cache.exprs.get? e.id = some o) :
    e.Renders vars N o := by
  obtain ⟨d, hd, hid, renders⟩ := h.exprs _ _ (Table.mem_of_get? held)
  rwa [← coherent.roster.expr_unique hd he hid]

/-- Walks enter what stands for its node if they find what does. -/
theorem maintained (vars : Vars α) :
    Maintained vars fun N (p : Pass (Objective α) (Record α)) => p.Means vars N where
  mono sub h := h.mono sub
  spend l h := h.spend l
  constant coherent he constant value h :=
    h.enterExpr he (.constant coherent he constant value)
  free coherent hx free h := h.enterExpr hx (.free coherent hx free)
  product {N p id a b child o} coherent hn left _ held product h := by
    obtain ⟨times, v, hasProducts, value, product⟩ := Expr.product_ok.mp product
    cases hasProducts
    have below := h.renders coherent (coherent.roster.kron hn).2 held
    exact h.enterExpr (e := .kron id a b) hn
      (.kron coherent hn left value below (Outcome.mapError_ok.mp product))
  lower {N p c l r s} coherent hc left right between h := by
    obtain ⟨d, difference, lower⟩ := Outcome.except_bind_ok.mp between
    obtain ⟨hl, hr⟩ := coherent.roster.sides hc
    exact h.enterConstraint hc (.lower (coherent.roster.shapes c hc)
      (h.renders coherent hl left) (h.renders coherent hr right)
      (Outcome.mapError_ok.mp difference) lower)

end Pass.Means

/-! ## Runs -/

/-- The state after a run, with the constraints of signs that were made. -/
structure Meant (vars : Vars α) (N : Set (Node α)) (q : Pass (Objective α) (Record α))
    (S : Signs α) : Prop where
  signs : SignsOf vars N S
  coherent : Coherent vars (joined N S) q.ledger.nextId
  means : q.Means vars (joined N S)

theorem Brought.meant {vars : Vars α} {N R : Set (Node α)} {E : Set Variable}
    {p q : Pass (Objective α) (Record α)} {S : Signs α} (h : Brought vars N R E p q S)
    (means : p.Means vars N) : Meant vars N q S :=
  ⟨h.signsOf, h.coherent, h.keeps _ (Pass.Means.maintained vars) means⟩

section Joined

variable {vars : Vars α} {N : Set (Node α)} {S : Signs α} {q : Pass (Objective α) (Record α)}

omit [LawfulEntry α] in
theorem FreeLength.of_joined (signs : SignsOf vars N S) {i : Id} {n : Nat}
    (h : FreeLength vars (joined N S) i n) : FreeLength vars N i n := by
  obtain ⟨x, hx, rest⟩ := h
  exact ⟨x, signs.var_mem hx, rest⟩

omit [LawfulEntry α] in
theorem Assigns.to_joined (signs : SignsOf vars N S) {vars' : Vars α} {keys : List Id}
    {re im : Id → Nat → α} (h : Assigns vars vars' N keys re im) :
    Assigns vars vars' (joined N S) keys re im where
  held x hx := h.held x (signs.var_mem hx)
  free x hx := h.free x (signs.var_mem hx)

/-- What is found for an expression stands for it as long as only variables that were
there before have values. -/
theorem Meant.renders (h : Meant vars N q S) {e : Expr α} (he : .expr e ∈ N) {o : Objective α}
    (held : q.cache.exprs.get? e.id = some o) : e.Renders vars N o :=
  have renders := h.means.renders h.coherent (subset_joined N S he) held
  { formed := renders.formed
    about := renders.about.mono fun _ _ => FreeLength.of_joined h.signs
    value := fun vars' re im ha => renders.value vars' re im (ha.to_joined h.signs) }

end Joined

omit [Scalar α] [LawfulEntry α] in
/-- The nodes a job is about were made. -/
def Job.Within {κ ρ : Type} (N : Set (Node α)) : Job α κ ρ → Prop
  | .expr e _ => .expr e ∈ N
  | .constraint c _ => .constraint c ∈ N
  | .sign x => .expr (.var x) ∈ N
  | .attached items => ∀ n, .node n ∈ items → n ∈ N

/-- Whatever runs enter stands for what it was entered for. -/
theorem Run.means {vars : Vars α} {job : Job α (Objective α) (Record α)}
    {p q : Pass (Objective α) (Record α)} (h : Run vars job p q) {N : Set (Node α)}
    (coherent : Coherent vars N p.ledger.nextId) (within : job.Within N)
    (means : p.Means vars N) : ∃ S, Meant vars N q S := by
  cases job with
  | expr e o =>
      obtain ⟨S, brought⟩ := h.delivers N coherent (Set.singleton_subset_iff.mpr within)
      exact ⟨S, brought.meant means⟩
  | constraint c r =>
      obtain ⟨S, brought⟩ := h.delivers N coherent (Set.singleton_subset_iff.mpr within)
      exact ⟨S, brought.meant means⟩
  | attached items =>
      obtain ⟨S, brought⟩ := h.delivers N coherent within
      exact ⟨S, brought.meant means⟩
  | sign x =>
      cases h with
      | unsigned => exact ⟨[], (Brought.refl coherent ∅).meant means⟩
      | @signed _ c r l _ _ yes made lowered =>
          have gained := coherent.roster.gain_sign coherent.pos within made
          obtain ⟨S, brought⟩ := lowered.delivers _ (coherent.gain gained)
            (Set.singleton_subset_iff.mpr (mem_gain N _))
          have meant := brought.meant ((means.mono (subset_gain N _)).spend l)
          refine ⟨(x, c) :: S, ?_, joined_cons N x c S ▸ meant.coherent,
            joined_cons N x c S ▸ meant.means⟩
          intro y d hd
          rcases List.mem_cons.mp hd with hd | hd
          · cases hd
            exact ⟨within, (signConstraint_ok made).1⟩
          · obtain ⟨hy, isSignOf⟩ := meant.signs y d hd
            exact ⟨gained.vars y hy, isSignOf⟩

/-! ## Values stored in the free variables -/

section Store

variable {vars : Vars α} {N : Set (Node α)}

omit [Scalar α] [LawfulEntry α] in
/-- The states after values were stored in all free variables. -/
def Vars.store (vars : Vars α) (s : Id → Value α) : Vars α :=
  vars.map fun e => (e.1, if e.2.fixed then e.2 else { e.2 with value := some (s e.1) })

omit [Scalar α] [LawfulEntry α] in
theorem Vars.state_store {x : Variable} (known : x.id ∈ vars.ids) (s : Id → Value α) :
    (vars.store s).state x =
      if (vars.state x).fixed then vars.state x
      else { vars.state x with value := some (s x.id) } := by
  rw [state, state]
  induction vars with
  | nil => cases known
  | cons e vars ih =>
      rw [store, List.map_cons, Table.get?, Table.get?]
      by_cases first : e.1 = x.id
      · rw [if_pos first, if_pos first, Option.getD_some, Option.getD_some, first]
      · rw [if_neg first, if_neg first]
        rcases List.mem_cons.mp known with known | known
        · exact (first known.symm).elim
        · exact ih known

/-- Values for the free variables: each has the shape of its variable, and is real unless
the variable is complex. -/
def Vars.Fits (vars : Vars α) (N : Set (Node α)) (s : Id → Value α) : Prop :=
  ∀ x, .expr (.var x) ∈ N → (vars.state x).fixed = false →
    (s x.id).shape = (x.rows, x.cols) ∧
      ((vars.state x).sign ≠ .complex → ∀ k < x.rows * x.cols, ((s x.id).entry k).im = 0)

/-- Stored values are read by their real and imaginary parts. -/
theorem Vars.Fits.assigns {next : Id} (coherent : Coherent vars N next) {s : Id → Value α}
    (fits : vars.Fits N s) (keys : List Id) :
    Assigns vars (vars.store s) N keys (fun i k => ((s i).entry k).re)
      fun i k => ((s i).entry k).im where
  held x hx fixed := by rw [Vars.state_store (coherent.known x hx), if_pos fixed]
  free x hx free _ := by
    have not_fixed : ¬(vars.state x).fixed = true := Bool.eq_false_iff.mp free
    obtain ⟨shape, real⟩ := fits x hx free
    refine ⟨s x.id, ?_, shape, fun k hk => ?_⟩
    · rw [Vars.state_store (coherent.known x hx), if_neg not_fixed]
    · split
      · exact (Cplx.re_add_I_mul_im _).symm
      · rename_i no
        rw [add_zero]
        exact Cplx.ext rfl (real no k hk)

/-- What is compiled of an expression with an empty cache says what the expression
evaluates to: for any values stored in the free variables, `Σ R_v · re v + I_v · im v` over
the variables mentioned, plus the offset, is the column-major flattening of the value. -/
theorem compiled_objective_evaluates {w : World α} (reachable : Reachable w) {e : Expr α}
    (made : .expr e ∈ w.nodes) {o : Objective α} {q : Pass (Objective α) (Record α)}
    (h : compileExpr w.vars e ⟨w.ledger, {}⟩ = .ok o q) {s : Id → Value α}
    (fits : w.vars.Fits w.nodes s) :
    o.Formed e.length ∧ o.Over (FreeLength w.vars w.nodes) ∧
      ∃ v, e.evaluate (w.vars.store s) = .ok v ∧ v.shape = e.shape ∧
        ∀ k < e.length, o.row (fun i j => ((s i).entry j).re) (fun i j => ((s i).entry j).im) k
          = v.entry k := by
  have coherent := reachable.sound.coherent
  have run := run_of_compileExpr h
  have none : Pass.Means w.vars w.nodes ⟨w.ledger, {}⟩ :=
    ⟨fun i o hi => (by cases hi), fun i r hi => (by cases hi)⟩
  obtain ⟨S, meant⟩ := run.means coherent made none
  have renders := meant.renders made run.done
  exact ⟨renders.formed, renders.about, renders.value _ _ _ (fits.assigns coherent o.keys)⟩

end Store

/-- Values for the variable of the cyclic world. -/
def Looped.values (_ : Id) : Value ℚ := .matrix (.real (.ofRowMajor 2 1 #[5, 7]))

theorem Looped.values_fit : Looped.world.vars.Fits Looped.world.nodes Looped.values := by
  intro y hy _
  cases Looped.eq_x hy
  have real : ∀ k < 2, ((Looped.values 1).entry k).im = 0 := by decide +kernel
  exact ⟨rfl, fun _ => real⟩

/-- In the cyclic world, three times the variable is compiled and evaluates to what the
objective says, with five and seven for its entries. -/
theorem looped_objective_evaluates :
    Looped.world.vars.Fits Looped.world.nodes Looped.values ∧
    ∃ o q, compileExpr Looped.world.vars Looped.triple
        (⟨Looped.world.ledger, {}⟩ : Pass (Objective ℚ) (Record ℚ)) = .ok o q ∧
      ∃ v, Looped.triple.evaluate (Looped.world.vars.store Looped.values) = .ok v ∧
        ∀ k < 2, o.row (fun i j => ((Looped.values i).entry j).re)
          (fun i j => ((Looped.values i).entry j).im) k = v.entry k := by
  obtain ⟨o, q, compiled, -⟩ : ∃ o q, compileExpr Looped.world.vars Looped.triple
      (⟨Looped.world.ledger, {}⟩ : Pass (Objective ℚ) (Record ℚ)) = .ok o q ∧
      o.variableIds = [Looped.x.id] := by
    decide +kernel
  obtain ⟨-, -, v, evaluated, -, same⟩ := compiled_objective_evaluates Looped.world_reachable
    Looped.triple_made compiled Looped.values_fit
  exact ⟨Looped.values_fit, o, q, compiled, v, evaluated, same⟩

end ConicModel
