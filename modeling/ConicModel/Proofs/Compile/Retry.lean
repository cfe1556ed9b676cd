/-
# Calls that are repeated

What a refused call leaves in the cache is not undone.  A product and a constraint are only
entered when everything below them is there, so they can be left out but not left half-done.
A free variable is entered before the constraint of its sign and before its attached list,
because those may lead back to it; when something attached is refused, the variable stays.

So a call that is refused is refused again, with one exception.  A call that is repeated
does not walk a variable that is entered, and if what it was refused for is behind such a
variable, it is not found the second time.  The call then succeeds, while something that is
attached to the variable is missing (`Pass.Overlooks`).

The cache may have a history in which other branches were taken, so nothing can be said of
the entries that the call has found.  What is entered from then on has a licence in the
present state (`Licensed`), and licences are only gained.  A node that cannot be licensed is
barred for good (`Barred`), and so is what cannot be entered without it.  The induction is on
the refusal: up to the last variable on its way everything is barred.
-/
import ConicModel.Proofs.Compile.History

namespace ConicModel

variable {α : Type} [Scalar α] {κ ρ : Type} [Compiled α κ ρ]

/-! ## Licences -/

/-- What allows a walk to enter a node. -/
inductive Licensed (vars : Vars α) (q : Pass κ ρ) : Node α → Prop where
  | constant {e : Expr α} {v : Value α} (constant : e.curvature vars = .constant)
      (value : e.evaluate vars = .ok v) : Licensed vars q (.expr e)
  | free {x : Variable} (free : (vars.state x).fixed = false) : Licensed vars q (.expr (.var x))
  | product {id : Id} {a b : Expr α} {child o : κ} (left : a.curvature vars = .constant)
      (right : b.curvature vars ≠ .constant) (held : q.cache.exprs.get? b.id = some child)
      (product : Expr.product vars a b child = .ok o) : Licensed vars q (.expr (.kron id a b))
  | lower {c : Constraint α} {l r : κ} {s : ρ} (lhs : q.cache.exprs.get? c.lhs.id = some l)
      (rhs : q.cache.exprs.get? c.rhs.id = some r) (between : c.between vars l r = .ok s) :
      Licensed vars q (.constraint c)

variable {vars : Vars α} {N M K : Set (Node α)} {p q s : Pass κ ρ} {n m : Node α}

theorem Licensed.mono (h : Licensed vars p n)
    (kept : ∀ i o, p.cache.exprs.get? i = some o → q.cache.exprs.get? i = some o) :
    Licensed vars q n := by
  cases h with
  | constant constant value => exact .constant constant value
  | free free => exact .free free
  | product left right held product => exact .product left right (kept _ _ held) product
  | lower lhs rhs between => exact .lower (kept _ _ lhs) (kept _ _ rhs) between

/-- Unless it is a variable, what a walk passes to from it is there. -/
theorem Licensed.passed (h : Licensed vars q n) (step : Passes vars n m)
    (solid : ∀ x, n ≠ .expr (.var x)) : q.Holds m.key := by
  cases step with
  | attached => exact (solid _ rfl).elim
  | right _ right =>
      cases h with
      | constant constant => exact (right (curvature_kron_eq_constant_iff.mp constant).2).elim
      | product _ _ held => exact Table.mem_ids_of_get? held
  | lhs =>
      cases h with
      | lower lhs => exact Table.mem_ids_of_get? lhs
  | rhs =>
      cases h with
      | lower _ rhs => exact Table.mem_ids_of_get? rhs

/-- What is in the cache was there at `p`, or has a licence. -/
def Pass.Licenses (vars : Vars α) (p : Pass κ ρ) (N : Set (Node α)) (q : Pass κ ρ) : Prop :=
  ∀ k, q.Holds k → p.Holds k ∨ ∃ n ∈ N, n.key = k ∧ Licensed vars q n

namespace Pass.Licenses

theorem enterExpr (h : p.Licenses vars N q) {e : Expr α} (he : .expr e ∈ N) (o : κ)
    (licensed : Licensed vars q (.expr e)) : p.Licenses vars N (q.enterExpr e.id o) := by
  have kept (i : Id) (o' : κ) (held : q.cache.exprs.get? i = some o') :
      (q.enterExpr e.id o).cache.exprs.get? i = some o' := Table.get?_append_of_some held _
  intro k hk
  rcases Pass.holds_enterExpr.mp hk with old | rfl
  · rcases h k old with older | ⟨n, hn, key, licensed⟩
    · exact .inl older
    · exact .inr ⟨n, hn, key, licensed.mono kept⟩
  · exact .inr ⟨_, he, rfl, licensed.mono kept⟩

theorem maintained (vars : Vars α) (p : Pass κ ρ) :
    Maintained vars fun N (q : Pass κ ρ) => p.Licenses vars N q where
  mono sub h k hk := (h k hk).imp_right fun ⟨n, hn, rest⟩ => ⟨n, sub hn, rest⟩
  spend l h k hk := (h k hk).imp_right fun ⟨n, hn, key, licensed⟩ =>
    ⟨n, hn, key, licensed.mono fun _ _ held => held⟩
  constant _ he constant value h := h.enterExpr he _ (.constant constant value)
  free _ hx free h := h.enterExpr hx _ (.free free)
  product {N q id a b child o} _ hn left right held product h :=
    h.enterExpr (e := .kron id a b) hn o (.product left right held product)
  lower {N q c l r s} _ hc lhs rhs between h k hk := by
    rcases Pass.holds_enterConstraint.mp hk with old | rfl
    · refine (h k old).imp_right fun ⟨n, hn, key, licensed⟩ => ?_
      exact ⟨n, hn, key, licensed.mono fun _ _ held => held⟩
    · exact .inr ⟨_, hc, rfl, .lower lhs rhs between⟩

end Pass.Licenses

/-! ## What calls lead to -/

/-- What lies between two passes in one state, whether or not a call was refused. -/
structure Leads (vars : Vars α) (N M : Set (Node α)) (p q : Pass κ ρ) : Prop where
  sub : N ⊆ M
  coherent : Coherent vars M q.ledger.nextId
  grows : p.Grows q
  licenses : p.Licenses vars M q

/-- No place is taken that was not given away yet. -/
def Pass.Below (p : Pass κ ρ) : Prop := ∀ i ∈ p.cache.exprs.ids, i < p.ledger.nextId

namespace Leads

theorem refl (coherent : Coherent vars N p.ledger.nextId) : Leads vars N N p p :=
  ⟨Set.Subset.refl N, coherent, .refl p, fun _ => .inl⟩

theorem trans (h : Leads vars N M p q) (h' : Leads vars M K q s) : Leads vars N K p s where
  sub := h.sub.trans h'.sub
  coherent := h'.coherent
  grows := h.grows.trans h'.grows
  licenses k hk := by
    rcases h'.licenses k hk with old | new
    · rcases h.licenses k old with older | ⟨n, hn, key, licensed⟩
      · exact .inl older
      · exact .inr ⟨n, h'.sub hn, key, licensed.mono fun _ _ => h'.grows.expr_kept⟩
    · exact .inr new

theorem note (coherent : Coherent vars N p.ledger.nextId) (doubts : List Doubt) :
    Leads vars N N p (p.note doubts) :=
  ⟨Set.Subset.refl N, coherent, .note p doubts, fun _ => .inl⟩

theorem enterVar (coherent : Coherent vars N p.ledger.nextId) {x : Variable}
    (hx : .expr (.var x) ∈ N) (new : p.cache.exprs.get? x.id = none)
    (free : (vars.state x).fixed = false) :
    Leads vars N N p
      (p.enterExpr x.id (Compiled.ofObjective (.ofVariable x (vars.state x).sign))) where
  sub := Set.Subset.refl N
  coherent := coherent
  grows := .enterExpr new _
  licenses := Pass.Licenses.enterExpr (e := .var x) (fun _ => .inl) hx _ (.free free)

theorem of_brought {R : Set (Node α)} {E : Set Variable} {S : Signs α}
    (h : Brought vars N R E p q S) (grows : p.Grows q) : Leads vars N (joined N S) p q where
  sub := subset_joined N S
  coherent := h.coherent
  grows := grows
  licenses := h.keeps _ (Pass.Licenses.maintained vars p) fun _ => .inl

theorem of_run {e : Expr α} {o : κ} (h : Run vars (.expr e o) p q)
    (coherent : Coherent vars N p.ledger.nextId) (he : .expr e ∈ N) :
    ∃ M, Leads vars N M p q := by
  obtain ⟨S, brought⟩ := h.delivers N coherent (Set.singleton_subset_iff.mpr he)
  exact ⟨_, .of_brought brought h.grows⟩

/-- A free variable is entered, and then the constraint of its sign is. -/
theorem of_sign {x : Variable} (coherent : Coherent vars N p.ledger.nextId)
    (hx : .expr (.var x) ∈ N) (new : p.cache.exprs.get? x.id = none)
    (free : (vars.state x).fixed = false)
    (sign : Run vars (.sign x)
      (p.enterExpr x.id (Compiled.ofObjective (.ofVariable x (vars.state x).sign))) q) :
    ∃ M, Leads vars N M p q ∧ q.Holds (Node.expr (.var x : Expr α)).key := by
  have entered := Leads.enterVar coherent hx new free
  have held := Pass.holds_enterExpr (p := p) (i := x.id)
    (o := Compiled.ofObjective (.ofVariable x (vars.state x).sign)).mpr (.inr rfl)
  obtain ⟨S, brought, -⟩ := sign.delivers N entered.coherent hx
    (VarState.curvature_eq_affine_iff.mpr free) held
  exact ⟨_, entered.trans (.of_brought brought sign.grows), sign.grows.holds held⟩

theorem of_attached {items : List (Attached α)} (h : Run (κ := κ) vars (.attached items) p q)
    (coherent : Coherent vars N p.ledger.nextId) (within : ∀ n, .node n ∈ items → n ∈ N) :
    ∃ M, Leads vars N M p q := by
  obtain ⟨S, brought⟩ := h.delivers N coherent within
  exact ⟨_, .of_brought brought h.grows⟩

/-- A new entry for a node is licensed by that node. -/
theorem licensed (h : Leads vars N M p q) (hn : n ∈ N) (new : ¬p.Holds n.key)
    (held : q.Holds n.key) : Licensed vars q n := by
  rcases h.licenses _ held with old | ⟨m, hm, key, licensed⟩
  · exact (new old).elim
  · cases h.coherent.roster.unique m hm n (h.sub hn) (Node.id_eq_of_key key)
    exact licensed

theorem below (h : Leads vars N M p q) (below : p.Below) : q.Below := by
  intro i hi
  rcases h.licenses (.expr i) hi with old | ⟨n, hn, key, -⟩
  · exact (below i old).trans_le h.grows.next
  · cases n with
    | constraint c => cases key
    | expr e =>
        cases key
        exact h.coherent.roster.lt _ hn

end Leads

/-! ## What is barred -/

/-- Whatever is called from now on, the node will not be entered. -/
def Barred (vars : Vars α) (N : Set (Node α)) (q : Pass κ ρ) (n : Node α) : Prop :=
  ∀ M s, Leads vars N M q s → ¬s.Holds n.key

namespace Barred

theorem of_unlicensed (leads : Leads vars N M p q) (hn : n ∈ N) (new : ¬p.Holds n.key)
    (never : ∀ K s, Leads vars M K q s → ¬Licensed vars s n) : Barred vars M q n :=
  fun K s further held => never K s further ((leads.trans further).licensed hn new held)

theorem unvalued {e : Expr α} {u : Unvalued} (leads : Leads vars N M p q) (he : .expr e ∈ N)
    (new : p.cache.exprs.get? e.id = none) (constant : e.curvature vars = .constant)
    (value : e.evaluate vars = .error u) : Barred vars M q (.expr e) := by
  refine of_unlicensed leads he (Table.get?_eq_none_iff.mp new) fun K s _ licensed => ?_
  cases licensed with
  | constant _ value' => cases value'.symm.trans value
  | free free => cases free.symm.trans (curvature_var_eq_constant_iff.mp constant)
  | product _ right => exact right (curvature_kron_eq_constant_iff.mp constant).2

section Products

variable {id : Id} {a b : Expr α} (leads : Leads vars N M p q) (hn : .expr (.kron id a b) ∈ N)
  (new : p.cache.exprs.get? id = none)

include leads hn new

theorem left (left : a.curvature vars ≠ .constant) : Barred vars M q (.expr (.kron id a b)) := by
  refine of_unlicensed leads hn (Table.get?_eq_none_iff.mp new) fun K s _ licensed => ?_
  cases licensed with
  | constant constant => exact left (curvature_kron_eq_constant_iff.mp constant).1
  | product left' => exact left left'

theorem product {child : κ} {f : Fault α} (right : b.curvature vars ≠ .constant)
    (below : q.cache.exprs.get? b.id = some child)
    (product : Expr.product vars a b child = .error f) :
    Barred vars M q (.expr (.kron id a b)) := by
  refine of_unlicensed leads hn (Table.get?_eq_none_iff.mp new) fun K s further licensed => ?_
  cases licensed with
  | constant constant => exact right (curvature_kron_eq_constant_iff.mp constant).2
  | product _ _ held product' =>
      cases held.symm.trans (further.grows.expr_kept below)
      cases product'.symm.trans product

end Products

theorem between {c : Constraint α} {l r : κ} {f : Fault α} (leads : Leads vars N M p q)
    (hc : .constraint c ∈ N) (new : p.cache.constraints.get? c.id = none)
    (lhs : q.cache.exprs.get? c.lhs.id = some l) (rhs : q.cache.exprs.get? c.rhs.id = some r)
    (between : c.between vars l r = .error f) : Barred vars M q (.constraint c) := by
  refine of_unlicensed leads hc (Table.get?_eq_none_iff.mp new) fun K s further licensed => ?_
  cases licensed with
  | lower held held' between' =>
      cases held.symm.trans (further.grows.expr_kept lhs)
      cases held'.symm.trans (further.grows.expr_kept rhs)
      cases between'.symm.trans between

/-- A node is not entered without what is below it. -/
theorem of_passes (leads : Leads vars N M p q) (hn : n ∈ N) (new : ¬p.Holds n.key)
    (step : Passes vars n m) (solid : ∀ x, n ≠ .expr (.var x)) (below : Barred vars M q m) :
    Barred vars M q n :=
  of_unlicensed leads hn new fun K s further licensed =>
    below K s further (licensed.passed step solid)

end Barred

/-- A free variable is in the cache, and something attached to it will never be. -/
structure Strands (vars : Vars α) (N : Set (Node α)) (q : Pass κ ρ) (x : Variable)
    (item : Attached α) : Prop where
  held : q.Holds (Node.expr (.var x : Expr α)).key
  free : (vars.state x).fixed = false
  attached : item ∈ (vars.state x).attached
  barred : ∀ m, item = .node m → Barred vars N q m

/-- A node is barred, or something is on the way from it. -/
def Stops (vars : Vars α) (N : Set (Node α)) (q : Pass κ ρ) (n : Node α) : Prop :=
  Barred vars N q n ∨ ∃ x item, Reaches vars n (.expr (.var x)) ∧ Strands vars N q x item

/-- What is below a node stops it. -/
theorem Stops.pass (h : Stops vars M q m) (leads : Leads vars N M p q) (hn : n ∈ N)
    (new : ¬p.Holds n.key) (step : Passes vars n m) (solid : ∀ x, n ≠ .expr (.var x)) :
    Stops vars M q n := by
  rcases h with barred | ⟨x, item, reaches, strands⟩
  · exact .inl (.of_passes leads hn new step solid barred)
  · exact .inr ⟨x, item, .head step reaches, strands⟩

/-- What is attached to a variable that is entered may be missing. -/
theorem Stops.of_attached {x : Variable} {item : Attached α}
    (held : q.Holds (Node.expr (.var x : Expr α)).key) (free : (vars.state x).fixed = false)
    (mem : item ∈ (vars.state x).attached)
    (h : ∀ m, item = .node m → Stops vars N q m) : Stops vars N q (.expr (.var x)) := by
  right
  cases item with
  | foreign d => exact ⟨x, _, .refl, held, free, mem, fun m h => by cases h⟩
  | node m =>
      rcases h m rfl with barred | ⟨y, item, reaches, strands⟩
      · refine ⟨x, _, .refl, held, free, mem, ?_⟩
        rintro _ ⟨⟩
        exact barred
      · exact ⟨y, item, .head (.attached free mem) reaches, strands⟩

/-- How a refused task is left: its node is stopped, or one of its items. -/
def Task.Stops (vars : Vars α) (N : Set (Node α)) (q : Pass κ ρ) : Task α → Prop
  | .expr e => ConicModel.Stops vars N q (.expr e)
  | .constraint c => ConicModel.Stops vars N q (.constraint c)
  | .sign _ => False
  | .attached items => ∃ item ∈ items, ∀ m, item = .node m → ConicModel.Stops vars N q m

theorem Node.task_stops : n.task.Stops vars N q ↔ Stops vars N q n := by
  cases n <;> exact .rfl

/-! ## The constraint of a sign -/

section Signs

variable {p q : Pass (Objective α) (Record α)} (coherent : Coherent vars N p.ledger.nextId)
  {x : Variable} (hx : .expr (.var x) ∈ N) (free : (vars.state x).fixed = false)
  (held : p.cache.exprs.get? x.id = some (.ofVariable x (vars.state x).sign))

include held in
/-- A variable that is held is given back. -/
theorem Run.of_held {o : Objective α} (run : Run vars (.expr (.var x) o) p q) :
    o = .ofVariable x (vars.state x).sign ∧ q = p := by
  cases run with
  | known there => exact ⟨Option.some.inj (there.symm.trans held), rfl⟩
  | constant _ new | free new => cases held.symm.trans new

include held in
theorem Refused.not_of_held {f : Fault α} : ¬Refused vars (.expr (.var x)) p f q := by
  intro refused
  cases refused with
  | unvalued _ new | sign new | brought new => cases held.symm.trans new

include coherent hx free held in
/-- The constraint of a sign is lowered from the variable and a new zero. -/
theorem Coherent.sign_not_refused (below : p.Below) {c : Constraint α} {l : Ledger}
    (made : signConstraint vars (.var x) p.ledger = .ok c l) {f : Fault α} :
    ¬Refused vars (.constraint c) (p.spend l) f q := by
  obtain ⟨isSignOf, -, k, rhs, zero, -⟩ := signConstraint_ok made
  have shapes : c.lhs.shape = c.rhs.shape := isSignOf.shapes
  have lhs : c.lhs = .var x := isSignOf.lhs
  -- Nothing stands yet where the zero will.
  have new : p.cache.exprs.get? k.id = none := by
    refine Table.get?_eq_none_iff.mpr fun there => ?_
    exact absurd (below k.id there) (not_lt.mpr zero.le)
  obtain ⟨id, relation, left, right⟩ := c
  cases lhs
  cases rhs
  intro refused
  cases refused with
  | lhs _ refused => exact Refused.not_of_held (p := p.spend l) held refused
  | rhs _ _ refused =>
      cases refused with
      | unvalued _ _ _ value => cases value
  | between _ run run' between =>
      obtain ⟨rfl, rfl⟩ := Run.of_held (p := p.spend l) held run
      cases run' with
      | known there => cases there.symm.trans new
      | constant _ _ _ value =>
          cases value
          obtain ⟨s, lowered⟩ := coherent.between_total shapes (.ofVariable coherent hx free _)
            (.ofConstant rfl)
          cases lowered.symm.trans between

end Signs

/-! ## Every refusal stops what it was about -/

/-- A pass in the state of a world whose nodes are among those made so far. -/
structure Pass.In (w : World α) (N : Set (Node α)) (p : Pass κ ρ) : Prop where
  sub : w.nodes ⊆ N
  coherent : Coherent w.vars N p.ledger.nextId
  below : p.Below

theorem Leads.inside {w : World α} (h : Leads w.vars N M p q) (inside : p.In w N) : q.In w M :=
  ⟨inside.sub.trans h.sub, h.coherent, h.below inside.below⟩

/-- The induction.  The sign of a variable stands apart, as it is never refused. -/
theorem Refused.stops {w : World α} (reachable : Reachable w) {task : Task α} {f : Fault α}
    {p q : Pass (Objective α) (Record α)} (h : Refused w.vars task p f q)
    (plain : ∀ x, task ≠ .sign x) (within : task.Within w.nodes) {N : Set (Node α)}
    (inside : p.In w N) : ∃ M, Leads w.vars N M p q ∧ task.Stops w.vars M q := by
  have coherent := reachable.sound.coherent
  induction h generalizing N with
  | unvalued doubts new constant value =>
      have noted := Leads.note inside.coherent doubts
      exact ⟨N, noted, .inl (.unvalued noted (inside.sub within) new constant value)⟩
  | sign new free sign =>
      have entered := Leads.enterVar inside.coherent (inside.sub within) new free
      cases sign with
      | signed _ made lowered =>
          exact (entered.coherent.sign_not_refused (inside.sub within) free
            (Table.get?_push_self new _) (entered.below inside.below) made lowered).elim
  | @brought x f p q q' new free sign attached ih =>
      obtain ⟨K, before, held⟩ :=
        Leads.of_sign inside.coherent (inside.sub within) new free sign
      obtain ⟨M, leads, item, mem, stops⟩ := ih (fun _ h => by cases h)
        (coherent.respects x within).attached (before.inside inside)
      exact ⟨M, before.trans leads, .of_attached (leads.grows.holds held) free mem stops⟩
  | left doubts new left =>
      have noted := Leads.note inside.coherent doubts
      exact ⟨N, noted, .inl (.left noted (inside.sub within) new left)⟩
  | operand doubts new left right operand ih =>
      have noted := Leads.note inside.coherent doubts
      obtain ⟨M, leads, stops⟩ := ih (fun _ h => by cases h) (coherent.roster.kron within).2
        (noted.inside inside)
      exact ⟨M, noted.trans leads, stops.pass (noted.trans leads) (inside.sub within)
        (Table.get?_eq_none_iff.mp new) (.right left right) fun _ h => by cases h⟩
  | product doubts new left right below still_new product =>
      have noted := Leads.note inside.coherent doubts
      obtain ⟨M, after⟩ := Leads.of_run below noted.coherent
        (inside.sub (coherent.roster.kron within).2)
      have leads := noted.trans after
      exact ⟨M, leads, .inl (.product leads (inside.sub within) new right below.done product)⟩
  | lhs new lhs ih =>
      obtain ⟨M, leads, stops⟩ :=
        ih (fun _ h => by cases h) (coherent.roster.sides within).1 inside
      exact ⟨M, leads, stops.pass leads (inside.sub within) (Table.get?_eq_none_iff.mp new)
        (.lhs _) fun _ h => by cases h⟩
  | rhs new lhs rhs ih =>
      obtain ⟨hl, hr⟩ := coherent.roster.sides within
      obtain ⟨M, first⟩ := Leads.of_run lhs inside.coherent (inside.sub hl)
      obtain ⟨K, second, stops⟩ := ih (fun _ h => by cases h) hr (first.inside inside)
      have leads := first.trans second
      exact ⟨K, leads, stops.pass leads (inside.sub within) (Table.get?_eq_none_iff.mp new)
        (.rhs _) fun _ h => by cases h⟩
  | between new lhs rhs between =>
      obtain ⟨hl, hr⟩ := coherent.roster.sides within
      obtain ⟨M, first⟩ := Leads.of_run lhs inside.coherent (inside.sub hl)
      obtain ⟨K, second⟩ := Leads.of_run rhs first.coherent (first.sub (inside.sub hr))
      have leads := first.trans second
      exact ⟨K, leads, .inl (.between leads (inside.sub within) new
        (rhs.grows.expr_kept lhs.done) rhs.done between)⟩
  | signed => exact (plain _ rfl).elim
  | foreign =>
      exact ⟨N, .refl inside.coherent, _, List.mem_cons_self, fun m h => by cases h⟩
  | @item n items f p q item ih =>
      obtain ⟨M, leads, stops⟩ := ih (by cases n <;> rintro _ ⟨⟩)
        (Node.task_within.mpr (within n List.mem_cons_self)) inside
      refine ⟨M, leads, _, List.mem_cons_self, ?_⟩
      rintro _ ⟨⟩
      exact Node.task_stops.mp stops
  | @later n items f p q q' first rest ih =>
      obtain ⟨M, before⟩ := Leads.of_attached first inside.coherent fun m hm => by
        cases List.mem_singleton.mp hm
        exact inside.sub (within n List.mem_cons_self)
      obtain ⟨K, leads, item, mem, stops⟩ := ih (fun _ h => by cases h)
        (fun m hm => within m (List.mem_cons_of_mem _ hm)) (before.inside inside)
      exact ⟨K, before.trans leads, item, List.mem_cons_of_mem _ mem, stops⟩

/-! ## Two calls -/

/-- A call that is not refused leads on, and enters its node. -/
theorem leads_of_compileNode {x : Returned κ ρ} (h : compileNode vars n p = .ok x q)
    (coherent : Coherent vars N p.ledger.nextId) (hn : n ∈ N) :
    (∃ M, Leads vars N M p q) ∧ q.Holds n.key := by
  have run : Run (κ := κ) vars (.attached [.node n]) p q := (Run.cons_of_compileNode h .nil).1
  refine ⟨Leads.of_attached run coherent fun m hm => ?_, run.done n List.mem_cons_self⟩
  cases List.mem_singleton.mp hm
  exact hn

theorem stops_of_compileNode {w : World α} (reachable : Reachable w) (made : n ∈ w.nodes)
    {p q : Pass (Objective α) (Record α)} (inside : p.In w N) {f : Fault α}
    (h : compileNode w.vars n p = .error f q) :
    ∃ M, Leads w.vars N M p q ∧ Stops w.vars M q n := by
  obtain ⟨M, leads, stops⟩ := (refused_of_compileNode h).stops reachable
    (by cases n <;> rintro _ ⟨⟩) (Node.task_within.mpr made) inside
  exact ⟨M, leads, Node.task_stops.mp stops⟩

/-- What a session and calls for nodes of it lead to, from an empty cache. -/
inductive Bench.Arises : Bench α κ ρ → Prop where
  | empty {w : World α} (reachable : Reachable w) : Arises ⟨w, {}⟩
  | session {w w' : World α} {cache : Cache κ ρ} (before : Arises ⟨w, cache⟩)
      (step : ConicModel.Step w w') : Arises ⟨w', cache⟩
  | compiled {b : Bench α κ ρ} {n : Node α} {x : Returned κ ρ} {q : Pass κ ρ}
      (before : Arises b) (made : n ∈ b.world.nodes)
      (h : compileNode b.world.vars n b.pass = .ok x q) : Arises (b.after q)
  | refused {b : Bench α κ ρ} {n : Node α} {f : Fault α} {q : Pass κ ρ}
      (before : Arises b) (made : n ∈ b.world.nodes)
      (h : compileNode b.world.vars n b.pass = .error f q) : Arises (b.after q)

theorem Bench.Arises.inside {b : Bench α (Objective α) (Record α)} (h : b.Arises) :
    Reachable b.world ∧ b.pass.In b.world b.world.nodes := by
  have spent {b : Bench α (Objective α) (Record α)} {q : Pass (Objective α) (Record α)}
      {M : Set (Node α)} (reachable : Reachable b.world)
      (inside : b.pass.In b.world b.world.nodes)
      (leads : Leads b.world.vars b.world.nodes M b.pass q) :
      Reachable (b.after q).world ∧ (b.after q).pass.In (b.after q).world (b.after q).world.nodes :=
    have after : Reachable (b.after q).world :=
      reachable.next (.spend b.world q.ledger leads.grows.next)
    ⟨after, Set.Subset.refl _, after.sound.coherent, leads.below inside.below⟩
  induction h with
  | empty reachable =>
      exact ⟨reachable, Set.Subset.refl _, reachable.sound.coherent, fun i hi => by cases hi⟩
  | session before step ih =>
      obtain ⟨reachable, inside⟩ := ih
      have after := reachable.next step
      exact ⟨after, Set.Subset.refl _, after.sound.coherent,
        fun i hi => (inside.below i hi).trans_le (step.nextId_le reachable.sound)⟩
  | compiled before made h ih =>
      obtain ⟨reachable, inside⟩ := ih
      obtain ⟨⟨M, leads⟩, -⟩ := leads_of_compileNode h inside.coherent made
      exact spent reachable inside leads
  | refused before made h ih =>
      obtain ⟨reachable, inside⟩ := ih
      obtain ⟨M, leads, -⟩ := stops_of_compileNode reachable made inside h
      exact spent reachable inside leads

/-- A free variable is in the cache, and something attached to it is not. -/
structure Pass.Overlooks (vars : Vars α) (q : Pass κ ρ) (x : Variable) (item : Attached α) :
    Prop where
  held : q.Holds (Node.expr (.var x : Expr α)).key
  free : (vars.state x).fixed = false
  attached : item ∈ (vars.state x).attached
  missing : ∀ m, item = .node m → ¬q.Holds m.key

theorem Strands.overlooks {x : Variable} {item : Attached α} (h : Strands vars N q x item)
    (leads : Leads vars N M q s) : s.Overlooks vars x item :=
  ⟨leads.grows.holds h.held, h.free, h.attached, fun m hm => h.barred m hm _ _ leads⟩

/-- A call that was refused is refused again, or on the way from its node there is a free
variable that is in the cache while something attached to the variable is not, neither
before the second call nor after it. -/
theorem refused_again {b : Bench α (Objective α) (Record α)} (arises : b.Arises) {n : Node α}
    (made : n ∈ b.world.nodes) {f : Fault α} {q : Pass (Objective α) (Record α)}
    (h : compileNode b.world.vars n b.pass = .error f q) :
    (∃ g q', compileNode b.world.vars n q = .error g q') ∨
      ∃ x q' y item, compileNode b.world.vars n q = .ok x q' ∧
        Reaches b.world.vars n (.expr (.var y)) ∧
        q.Overlooks b.world.vars y item ∧ q'.Overlooks b.world.vars y item := by
  obtain ⟨reachable, inside⟩ := arises.inside
  obtain ⟨M, leads, stops⟩ := stops_of_compileNode reachable made inside h
  cases again : compileNode b.world.vars n q with
  | error g q' => exact .inl ⟨g, q', rfl⟩
  | ok x q' =>
      obtain ⟨⟨K, further⟩, held⟩ := leads_of_compileNode again leads.coherent (leads.sub made)
      rcases stops with barred | ⟨y, item, reaches, strands⟩
      · exact (barred K q' further held).elim
      · exact .inr ⟨x, q', y, item, rfl, reaches, strands.overlooks (.refl leads.coherent),
          strands.overlooks further⟩

theorem Freed.spoiled_arises : Freed.spoiled.Arises := by
  have opened : opened.Arises :=
    Bench.Arises.compiled (b := ⟨attached, {}⟩) (.empty attached_reachable) y_made opened_compiled
  exact Bench.Arises.refused (b := ⟨world, Freed.opened.cache⟩) (.session opened frees) x_made
    spoiled_refused

/-- The left operand was compiled while it was held, and the right one was refused after it
was freed.  The product is refused as often as it is compiled. -/
theorem freed_refused_again : ∃ q : Pass (Objective ℚ) (Record ℚ),
    compileNode Freed.world.vars (.expr Freed.product) Freed.spoiled.pass = .error .kronLeft q ∧
      ((∃ g q', compileNode Freed.world.vars (.expr Freed.product) q = .error g q') ∨
        ∃ x q' y item, compileNode Freed.world.vars (.expr Freed.product) q = .ok x q' ∧
          Reaches Freed.world.vars (.expr Freed.product) (.expr (.var y)) ∧
          q.Overlooks Freed.world.vars y item ∧ q'.Overlooks Freed.world.vars y item) := by
  obtain ⟨q, refused⟩ : ∃ q, compileNode Freed.world.vars (.expr Freed.product)
      Freed.spoiled.pass = .error .kronLeft q := ⟨_, by with_unfolding_all rfl⟩
  exact ⟨q, refused, refused_again Freed.spoiled_arises Freed.product_made refused⟩

/-- The right operand is refused once.  The second call finds the variable in the cache and
succeeds, and the bound that is attached to the variable has not been lowered. -/
theorem freed_forgets_bound : Reachable Freed.world ∧
    .expr (.var Freed.x) ∈ Freed.world.nodes ∧
    .node (.constraint Freed.bound) ∈ (Freed.world.vars.state Freed.x).attached ∧
    ∃ (q q' : Pass (Objective ℚ) (Record ℚ)) (o : Returned (Objective ℚ) (Record ℚ)),
      compileNode Freed.world.vars (.expr (.var Freed.x)) ⟨Freed.world.ledger, {}⟩
        = .error .kronLeft q ∧
      compileNode Freed.world.vars (.expr (.var Freed.x)) q = .ok o q' ∧
      q'.cache.constraints = [] :=
  ⟨Freed.world_reachable, Freed.x_made, List.mem_cons_self, _, _, _, by with_unfolding_all rfl,
    by with_unfolding_all rfl, rfl⟩

end ConicModel
