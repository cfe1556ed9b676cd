/-
# Records and entries go together

A record stands for a constraint and has been lowered from what the cache held for the two
sides at that moment.  Later the variables may be fixed and freed and their signs changed, and
other entries are made in other states; but what a record was lowered from is never touched.
So at every moment the objective of a record is the difference of two entries of the same
cache, one for each side of its constraint, with its sign changed if the constraint is an upper
bound (`Cache.Follows`).

It may be that lowering the sides has lowered the constraint as well, on a detour.  Then the
record of the detour stays and the other one is dropped, so whichever was entered, it was
entered while both sides were held.  That is what is asked of the one step that enters records
(`Maintained.lower`), and `Bench.Arises.keeps` does the rest.

The rows of a record can be told because no objective that is compiled is without an entry
(`Objective.Full`).
-/
import ConicModel.Proofs.Compile.Lifetime

namespace ConicModel

variable {α : Type} [Scalar α]

/-! ## Objectives with entries -/

/-- An objective of so many rows that has an entry. -/
structure Objective.Full (n : Nat) (o : Objective α) : Prop where
  formed : o.Formed n
  entered : o.keys ≠ []

namespace Objective.Full

variable {n : Nat} {a b o : Objective α}

omit [Scalar α] in
theorem rows (h : o.Full n) : o.rows = some n := by
  cases known : o.rows with
  | none =>
      refine (h.entered ?_).elim
      rw [keys, entries_of_rows known]
      rfl
  | some m => rw [h.formed.rows_eq known]

theorem ofConstant {A : Numeric Dense α} {r c : Nat} (shape : A.on Dense.shape = (r, c)) :
    (Objective.ofConstant A).Full (r * c) :=
  ⟨formed_ofConstant A shape, by rw [keys_ofConstant]; exact List.cons_ne_nil _ _⟩

theorem ofVariable {x : Variable} (hx : x.id ≠ constantKey) (sign : Sign) :
    (Objective.ofVariable x sign : Objective α).Full (x.rows * x.cols) :=
  ⟨formed_ofVariable hx sign, by rw [keys_ofVariable]; exact List.cons_ne_nil _ _⟩

theorem premultiply {M : Coeffs α} (h : a.Full n) (product : a.premultiply M = .ok o) :
    o.Full (Coeffs.rows M) :=
  ⟨h.formed.premultiply product, by rw [keys_premultiply product]; exact h.entered⟩

theorem neg (h : o.Full n) : o.neg.Full n :=
  ⟨h.formed.neg, by rw [keys_neg]; exact h.entered⟩

theorem sub (ha : a.Full n) (hb : b.Full n) (difference : a.sub b = .ok o) : o.Full n := by
  refine ⟨ha.formed.add hb.formed.neg difference, ?_⟩
  obtain ⟨i, hi⟩ := List.exists_mem_of_ne_nil _ ha.entered
  exact List.ne_nil_of_mem ((mem_keys_add difference i).mpr (.inl hi))

end Objective.Full

/-! ## Records of constraints -/

/-- The cones that a relation may be lowered to. -/
def Relation.Cones : Relation → Cone → Prop
  | .atLeast, cone | .atMost, cone => cone = .nonneg
  | .equal, cone => cone = .zero
  | .semidefinite, cone => cone = .semidefinite ∨ cone = .hermitian

omit [Scalar α] in
theorem Constraint.cones_cone (vars : Vars α) (c : Constraint α) :
    c.relation.Cones (c.cone vars) := by
  unfold Constraint.cone
  cases c.relation with
  | atLeast | atMost | equal => rfl
  | semidefinite =>
      dsimp only
      split
      · exact .inr rfl
      · exact .inl rfl

/-- A record that says of the entries of a cache what a constraint says of its sides. -/
structure Cache.Follows (cache : Cache (Objective α) (Record α)) (c : Constraint α)
    (r : Record α) : Prop where
  objective : ∃ left right difference, cache.exprs.get? c.lhs.id = some left ∧
    cache.exprs.get? c.rhs.id = some right ∧ left.sub right = .ok difference ∧
    r.objective = if c.relation = .atMost then difference.neg else difference
  rows : r.objective.rows = some c.lhs.length
  size : r.size = c.lhs.length
  cone : c.relation.Cones r.cone

theorem Cache.Follows.mono {cache cache' : Cache (Objective α) (Record α)} {c : Constraint α}
    {r : Record α} (h : cache.Follows c r)
    (kept : ∀ i o, cache.exprs.get? i = some o → cache'.exprs.get? i = some o) :
    cache'.Follows c r := by
  obtain ⟨left, right, difference, hl, hr, rest⟩ := h.objective
  exact { h with objective := ⟨left, right, difference, kept _ _ hl, kept _ _ hr, rest⟩ }

/-- The record that a difference is lowered to. -/
theorem Constraint.lower_ok {vars : Vars α} {c : Constraint α} {difference : Objective α}
    {r : Record α} (h : c.lower vars difference = .ok r) :
    r = ⟨if c.relation = .atMost then difference.neg else difference, c.cone vars, c.size⟩ := by
  unfold lower at h
  by_cases upper : c.relation = .atMost
  · rw [if_pos upper] at h ⊢
    cases h
    rfl
  · rw [if_neg upper] at h ⊢
    cases h
    rfl

/-- What is lowered from two entries follows them. -/
theorem Cache.follows_of_between {cache : Cache (Objective α) (Record α)} {vars : Vars α}
    {c : Constraint α} {left right : Objective α} {r : Record α}
    (hl : cache.exprs.get? c.lhs.id = some left) (hr : cache.exprs.get? c.rhs.id = some right)
    (full_left : left.Full c.lhs.length) (full_right : right.Full c.lhs.length)
    (between : c.between vars left right = .ok r) : cache.Follows c r := by
  obtain ⟨difference, hd, lowered⟩ := Outcome.except_bind_ok.mp between
  have hd : left.sub right = .ok difference := Outcome.mapError_ok.mp hd
  have full := full_left.sub full_right hd
  cases Constraint.lower_ok lowered
  refine ⟨⟨left, right, difference, hl, hr, hd, rfl⟩, ?_, rfl, c.cones_cone vars⟩
  dsimp only
  split
  · exact full.neg.rows
  · exact full.rows

/-! ## The invariant -/

/-- Every entry is that of an expression with so many rows, and every record follows the
constraint that it is entered for. -/
structure Pass.Follows (N : Set (Node α)) (p : Pass (Objective α) (Record α)) : Prop where
  exprs : ∀ i o, (i, o) ∈ p.cache.exprs → ∃ e, .expr e ∈ N ∧ e.id = i ∧ o.Full e.length
  constraints : ∀ i r, (i, r) ∈ p.cache.constraints →
    ∃ c, .constraint c ∈ N ∧ c.id = i ∧ p.cache.Follows c r

namespace Pass.Follows

variable {vars : Vars α} {N : Set (Node α)} {next : Id} {p : Pass (Objective α) (Record α)}

theorem of_empty (N : Set (Node α)) (fresh : p.cache = {}) : p.Follows N where
  exprs i o h := by
    rw [fresh] at h
    cases h
  constraints i r h := by
    rw [fresh] at h
    cases h

/-- What is found for an expression has its rows. -/
theorem full (h : p.Follows N) (coherent : Coherent vars N next) {e : Expr α}
    (he : .expr e ∈ N) {o : Objective α} (held : p.cache.exprs.get? e.id = some o) :
    o.Full e.length := by
  obtain ⟨d, hd, hid, full⟩ := h.exprs _ _ (Table.mem_of_get? held)
  rwa [← coherent.roster.expr_unique hd he hid]

/-- What is found for a constraint follows it. -/
theorem follows (h : p.Follows N) (roster : Roster N next) {c : Constraint α}
    (hc : .constraint c ∈ N) {r : Record α} (held : p.cache.constraints.get? c.id = some r) :
    p.cache.Follows c r := by
  obtain ⟨d, hd, hid, follows⟩ := h.constraints _ _ (Table.mem_of_get? held)
  rwa [← roster.constraint_unique hd hc hid]

theorem enterExpr (h : p.Follows N) {e : Expr α} (he : .expr e ∈ N) {o : Objective α}
    (full : o.Full e.length) : (p.enterExpr e.id o).Follows N where
  exprs i o' hi := by
    rcases List.mem_append.mp hi with hi | hi
    · exact h.exprs i o' hi
    · cases List.mem_singleton.mp hi
      exact ⟨e, he, rfl, full⟩
  constraints i r hi := by
    obtain ⟨c, hc, hid, follows⟩ := h.constraints i r hi
    exact ⟨c, hc, hid, follows.mono fun _ _ held => Table.get?_append_of_some held _⟩

theorem enterConstraint (h : p.Follows N) {c : Constraint α} (hc : .constraint c ∈ N)
    {r : Record α} (follows : p.cache.Follows c r) : (p.enterConstraint c.id r).Follows N where
  exprs := h.exprs
  constraints i r' hi := by
    rcases List.mem_append.mp hi with hi | hi
    · obtain ⟨d, hd, hid, follows⟩ := h.constraints i r' hi
      exact ⟨d, hd, hid, follows.mono fun _ _ held => held⟩
    · cases List.mem_singleton.mp hi
      exact ⟨c, hc, rfl, follows.mono fun _ _ held => held⟩

/-- No step of a walk breaks it, in whatever state. -/
theorem maintained (vars : Vars α) :
    Maintained vars fun N (p : Pass (Objective α) (Record α)) => p.Follows N where
  mono sub h :=
    { exprs := fun i o hi => by
        obtain ⟨e, he, rest⟩ := h.exprs i o hi
        exact ⟨e, sub he, rest⟩
      constraints := fun i r hi => by
        obtain ⟨c, hc, rest⟩ := h.constraints i r hi
        exact ⟨c, sub hc, rest⟩ }
  spend _ h := ⟨h.exprs, h.constraints⟩
  constant coherent he _ value h := h.enterExpr he (.ofConstant (coherent.shape_of_evaluate he value))
  free {N p x} coherent hx _ h :=
    h.enterExpr (e := .var x) hx (.ofVariable (coherent.roster.ne_constantKey hx) _)
  product {N p id a b child o} coherent hn left _ held product h := by
    obtain ⟨ha, hb⟩ := coherent.roster.kron hn
    obtain ⟨times, v, htimes, hv, product⟩ := Expr.product_ok.mp product
    cases htimes
    have full := (h.full coherent hb held).premultiply (Outcome.mapError_ok.mp product)
    have shape : v.shape = a.shape := coherent.shape_of_evaluate ha hv
    have length : (Expr.kron id a b).length
        = v.shape.1 * b.shape.1 * (v.shape.2 * b.shape.2) := by
      rw [shape]
      rfl
    refine h.enterExpr (e := .kron id a b) hn ?_
    rw [length, ← v.rows_operator]
    exact full
  lower {N p c l r s} coherent hc left right between h := by
    obtain ⟨hl, hr⟩ := coherent.roster.sides hc
    have length : c.rhs.length = c.lhs.length := by
      rw [Expr.length, ← coherent.roster.shapes c hc]
      rfl
    exact h.enterConstraint hc (Cache.follows_of_between left right (h.full coherent hl left)
      (length ▸ h.full coherent hr right) between)

end Pass.Follows

/-! ## The life of a cache -/

theorem Bench.Arises.extends {κ ρ : Type} [Compiled α κ ρ] {b : Bench α κ ρ} (h : b.Arises) :
    ({} : Cache κ ρ).Extends b.cache := by
  induction h with
  | empty => exact .refl _
  | session _ _ ih => exact ih
  | compiled _ _ h ih => exact ih.trans (Bench.Step.compiled h).extends
  | refused _ _ h ih => exact ih.trans (Bench.Step.refused h).extends

/-- At every moment of the life of a cache, whatever was compiled into it, whether calls were
refused, and whatever became of the variables in between: the records are those of the
constraints in the order in which these were entered, each constraint entered once, and each
record follows its constraint, which was made in the session or for the sign that a variable
had at some time.  In particular a constraint of the session is followed by what is found for
it. -/
theorem records_follow_entries {b : Bench α (Objective α) (Record α)} (arises : b.Arises) :
    b.cache.records = b.cache.constraints.items ∧ b.cache.constraints.ids.Nodup ∧
    (∀ i r, (i, r) ∈ b.cache.constraints → ∃ c : Constraint α, c.id = i ∧
      (.constraint c ∈ b.world.nodes ∨ ∃ (vars : Vars α) (x : Variable),
        .expr (.var x) ∈ b.world.nodes ∧ c.IsSignOf vars x) ∧ b.cache.Follows c r) ∧
    ∀ c r, .constraint c ∈ b.world.nodes → b.cache.constraints.get? c.id = some r →
      b.cache.Follows c r := by
  obtain ⟨E, made, follows⟩ := arises.keeps Pass.Follows.maintained fun N _ => .of_empty N
  refine ⟨?_, arises.extends.constraints_nodup List.nodup_nil, fun i r hi => ?_,
    fun c r hc => follows.follows made.sound.coherent.roster (.inl hc)⟩
  · obtain ⟨t, constraints, records⟩ := arises.extends.constraints
    rw [records, constraints]
    rfl
  · obtain ⟨c, hc, hid, followed⟩ := follows.constraints i r hi
    exact ⟨c, hid, hc.elim .inl (made.constraint c), followed⟩

/-! ### A sign that changes -/

/-- The bound of the cycle is lowered, and with it the constraint of the sign.  Then the sign
of the variable is changed, and both records stay what they were. -/
theorem looped_records_follow : ∃ (x : Returned (Objective ℚ) (Record ℚ))
    (q : Pass (Objective ℚ) (Record ℚ)) (m : Model ℚ),
    compileNode Looped.world.vars (.constraint Looped.bound) ⟨Looped.world.ledger, {}⟩
      = .ok x q ∧
    q.cache.constraints.ids = [7, 4] ∧
    Work.changeVars (fun vars => pure (vars.change Looped.x fun s => { s with sign := .negative }))
      { Looped.world.model with ledger := q.ledger } = .ok () m ∧
    q.cache.records = q.cache.constraints.items ∧ q.cache.constraints.ids.Nodup ∧
    (∀ i r, (i, r) ∈ q.cache.constraints → ∃ c : Constraint ℚ, c.id = i ∧
      (.constraint c ∈ Looped.world.nodes ∨ ∃ (vars : Vars ℚ) (x : Variable),
        .expr (.var x) ∈ Looped.world.nodes ∧ c.IsSignOf vars x) ∧ q.cache.Follows c r) ∧
    ∀ c r, .constraint c ∈ Looped.world.nodes → q.cache.constraints.get? c.id = some r →
      q.cache.Follows c r := by
  obtain ⟨x, q, compiled, ids⟩ : ∃ x q,
      compileNode Looped.world.vars (.constraint Looped.bound)
        (⟨Looped.world.ledger, {}⟩ : Pass (Objective ℚ) (Record ℚ)) = .ok x q ∧
      q.cache.constraints.ids = [7, 4] := by
    decide +kernel
  let start : Bench ℚ (Objective ℚ) (Record ℚ) := ⟨Looped.world, {}⟩
  have lowered : (start.after q).Arises :=
    .compiled (.empty Looped.world_reachable) Looped.bound_made compiled
  have changed := lowered.session
    (.change _ Looped.x _ _ Looped.var_made (.sign .negative) rfl)
  exact ⟨x, q, _, compiled, ids, rfl, records_follow_entries changed⟩

end ConicModel
