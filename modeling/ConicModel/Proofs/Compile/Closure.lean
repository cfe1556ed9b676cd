/-
# What a compilation enters

The nodes a model consists of bring each other in (`Brings`): a constraint brings in its
two sides, a product its right operand unless that is constant, and a free variable what
is attached to it and the constraint of its sign, if it has one.  `Closure` is everything
that some roots bring in.  The constraints of signs are made on the way, so both are
relative to a list of them (`Signs`).

A compilation that started from an empty cache has entered the closure of its roots and
nothing else.  While it is going on this is not so: a free variable is entered before what
it brings.  But whatever a run enters is settled when that run is at its end, and that is
the invariant (`Brought`): each entry of the later pass is an entry of the earlier one, or
belongs to a node that the roots reach and whose own successors are entered by then.  There
is no need to say which nodes are still open, because those were entered before the run.
It also says that the run has preserved whatever walks maintain, relative to the nodes that
the run has made.
-/
import ConicModel.Proofs.World
import ConicModel.Proofs.Compile.Calls
import ConicModel.Proofs.Compile.Maintained

namespace ConicModel

variable {α κ ρ : Type}

/-! ## What brings in what -/

/-- The constraints made for signs, each with its variable. -/
abbrev Signs (α : Type) := List (Variable × Constraint α)

/-- A variable of which the sign stands for a constraint, for as long as it is free. -/
def Variable.IsSigned (vars : Vars α) (x : Variable) : Prop :=
  (vars.state x).curvature = .affine ∧ (vars.state x).sign.isOneSided = true

/-- A node brings in another one directly. -/
inductive Brings (vars : Vars α) (S : Signs α) : Node α → Node α → Prop where
  | lhs (c : Constraint α) : Brings vars S (.constraint c) (.expr c.lhs)
  | rhs (c : Constraint α) : Brings vars S (.constraint c) (.expr c.rhs)
  | right {id : Id} {a b : Expr α} (h : b.curvature vars ≠ .constant) :
      Brings vars S (.expr (.kron id a b)) (.expr b)
  | attached {x : Variable} {n : Node α} (free : (vars.state x).curvature = .affine)
      (h : .node n ∈ (vars.state x).attached) : Brings vars S (.expr (.var x)) n
  | sign {x : Variable} {c : Constraint α} (signed : x.IsSigned vars) (h : (x, c) ∈ S) :
      Brings vars S (.expr (.var x)) (.constraint c)

/-- Everything that some nodes bring in, themselves included. -/
inductive Closure (vars : Vars α) (S : Signs α) (roots : Set (Node α)) : Node α → Prop where
  | root {n : Node α} (h : n ∈ roots) : Closure vars S roots n
  | step {m n : Node α} (h : Closure vars S roots m) (brings : Brings vars S m n) :
      Closure vars S roots n

section

variable {vars : Vars α} {S S' : Signs α} {R R' : Set (Node α)}

theorem Brings.mono {m n : Node α} (h : Brings vars S m n) (sub : S ⊆ S') :
    Brings vars S' m n := by
  cases h with
  | lhs c => exact .lhs c
  | rhs c => exact .rhs c
  | right h => exact .right h
  | attached free h => exact .attached free h
  | sign signed h => exact .sign signed (sub h)

theorem Closure.mono {n : Node α} (h : Closure vars S R n) (sub : S ⊆ S') :
    Closure vars S' R n := by
  induction h with
  | root h => exact .root h
  | step _ brings ih => exact .step ih (brings.mono sub)

/-- What is brought in by nodes that are brought in is brought in. -/
theorem Closure.reroot {n : Node α} (h : Closure vars S R n)
    (reached : ∀ r ∈ R, Closure vars S R' r) : Closure vars S R' n := by
  induction h with
  | root h => exact reached _ h
  | step _ brings ih => exact .step ih brings

end

/-! ## Nodes made on the way -/

/-- The nodes together with the constraints of signs and what these are made of. -/
def joined (N : Set (Node α)) (S : Signs α) : Set (Node α) :=
  {n | n ∈ N ∨ ∃ s ∈ S, n = .constraint s.2 ∨ n ∈ (Node.constraint s.2).children}

theorem joined_nil (N : Set (Node α)) : joined N [] = N := by
  ext n
  simp [joined]

theorem joined_append (N : Set (Node α)) (S S' : Signs α) :
    joined N (S ++ S') = joined (joined N S) S' := by
  ext n
  simp only [joined, Set.mem_ofPred_eq, List.mem_append, or_and_right, exists_or, or_assoc]

theorem joined_cons (N : Set (Node α)) (x : Variable) (c : Constraint α) (S : Signs α) :
    joined N ((x, c) :: S) = joined (gain N (.constraint c)) S := by
  ext n
  simp only [joined, gain, Set.mem_ofPred_eq, List.mem_cons, exists_eq_or_imp]
  constructor
  · rintro (h | (h | h) | h)
    · exact .inl (.inr (.inr h))
    · exact .inl (.inl h)
    · exact .inl (.inr (.inl h))
    · exact .inr h
  · rintro ((h | h | h) | h)
    · exact .inr (.inl (.inl h))
    · exact .inr (.inl (.inr h))
    · exact .inl h
    · exact .inr (.inr h)

theorem subset_joined (N : Set (Node α)) (S : Signs α) : N ⊆ joined N S :=
  fun _ h => .inl h

/-- A constraint among them was there before, or is that of a sign. -/
theorem constraint_joined {N : Set (Node α)} {S : Signs α} {c : Constraint α}
    (hc : .constraint c ∈ joined N S) : .constraint c ∈ N ∨ ∃ x, (x, c) ∈ S := by
  rcases hc with hc | ⟨⟨x, d⟩, hs, hc | hc⟩
  · exact .inl hc
  · cases hc
    exact .inr ⟨x, hs⟩
  · rcases List.mem_cons.mp hc with hc | hc
    · cases hc
    · cases List.mem_singleton.mp hc

section Signs

variable [Scalar α]

/-- The constraints of signs are about variables that were made. -/
def SignsOf (vars : Vars α) (N : Set (Node α)) (S : Signs α) : Prop :=
  ∀ x c, (x, c) ∈ S → .expr (.var x) ∈ N ∧ c.IsSignOf vars x

namespace SignsOf

variable {vars : Vars α} {N : Set (Node α)} {S S' : Signs α}

/-- No variable joins with them. -/
theorem var_mem (h : SignsOf vars N S) {x : Variable} (hx : .expr (.var x) ∈ joined N S) :
    .expr (.var x) ∈ N := by
  rcases hx with hx | ⟨⟨y, c⟩, hs, hx | hx⟩
  · exact hx
  · cases hx
  · obtain ⟨hy, is_sign⟩ := h y c hs
    obtain ⟨k, hk, -⟩ := is_sign.rhs
    rcases List.mem_cons.mp hx with hx | hx
    · cases (Node.expr.inj hx).trans is_sign.lhs
      exact hy
    · cases (Node.expr.inj (List.mem_singleton.mp hx)).trans hk

/-- A constraint was there before, or is that of a sign. -/
theorem constraint_mem (h : SignsOf vars N S) {c : Constraint α}
    (hc : .constraint c ∈ joined N S) :
    .constraint c ∈ N ∨ ∃ x, .expr (.var x) ∈ N ∧ c.IsSignOf vars x := by
  rcases constraint_joined hc with hc | ⟨x, hs⟩
  · exact .inl hc
  · exact .inr ⟨x, h x c hs⟩

end SignsOf

end Signs

/-! ## The invariant -/

section Invariant

variable [Scalar α] [Compiled α κ ρ]

omit [Scalar α] [Compiled α κ ρ] in
/-- The successors of a node are entered, and if it is a signed variable its sign has its
constraint. -/
structure Settled (vars : Vars α) (S : Signs α) (q : Pass κ ρ) (n : Node α) : Prop where
  entered : ∀ m, Brings vars S n m → q.Holds m.key
  signed : ∀ x, n = .expr (.var x) → x.IsSigned vars → ∃ c, (x, c) ∈ S

/-- A constraint that was made for the sign of a variable between two passes. -/
structure MadeFor (vars : Vars α) (N : Set (Node α)) (E : Set Variable) (p q : Pass κ ρ)
    (x : Variable) (c : Constraint α) : Prop where
  known : .expr (.var x) ∈ N
  signed : x.IsSigned vars
  isSignOf : c.IsSignOf vars x
  fresh : p.ledger.nextId ≤ c.id
  zero_fresh : p.ledger.nextId ≤ c.rhs.id
  constraint : q.Holds (Node.constraint c).key
  var : q.Holds (Node.expr (.var x : Expr α)).key
  /-- The variable is new as well, unless it is one of `E`. -/
  new : p.Holds (Node.expr (.var x : Expr α)).key → x ∈ E

/-- What lies between two passes: the nodes `R` were brought in, with all that they bring
in.  Constraints were made for signs of new variables, or of variables in `E`. -/
structure Brought (vars : Vars α) (N R : Set (Node α)) (E : Set Variable) (p q : Pass κ ρ)
    (S : Signs α) : Prop where
  coherent : Coherent vars (joined N S) q.ledger.nextId
  made : ∀ x c, (x, c) ∈ S → MadeFor vars N E p q x c
  single : ∀ x c c', (x, c) ∈ S → (x, c') ∈ S → c = c'
  reached : ∀ k, q.Holds k →
    p.Holds k ∨ ∃ n : Node α, n.key = k ∧ Closure vars S R n ∧ Settled vars S q n
  keeps : ∀ I, Maintained vars I → I N p → I (joined N S) q

omit [Scalar α] [Compiled α κ ρ] in
/-- A settled node stays so while more constraints are made and entered. -/
theorem Settled.mono {vars : Vars α} {S S' : Signs α} {q s : Pass κ ρ} {n : Node α}
    (h : Settled vars S q n) (sub : S ⊆ S') (grows : q.Grows s)
    (entered : ∀ x c, (x, c) ∈ S' → s.Holds (Node.constraint c).key) :
    Settled vars S' s n where
  entered m hm := by
    cases hm with
    | lhs c => exact grows.holds (h.entered _ (.lhs c))
    | rhs c => exact grows.holds (h.entered _ (.rhs c))
    | right nonconstant => exact grows.holds (h.entered _ (.right nonconstant))
    | attached free mem => exact grows.holds (h.entered _ (.attached free mem))
    | sign signed mem => exact entered _ _ mem
  signed x hx signed := by
    obtain ⟨c, hc⟩ := h.signed x hx signed
    exact ⟨c, sub hc⟩

namespace Brought

variable {vars : Vars α} {N R R' : Set (Node α)} {E : Set Variable} {p q s : Pass κ ρ}
  {S S' : Signs α}

/-- Nothing was done. -/
theorem refl (coherent : Coherent vars N p.ledger.nextId) (R : Set (Node α)) :
    Brought vars N R ∅ p p [] where
  coherent := (joined_nil N).symm ▸ coherent
  made x c h := by cases h
  single x c c' h := by cases h
  reached k h := .inl h
  keeps I _ h := (joined_nil N).symm ▸ h

theorem reroot (h : Brought vars N R E p q S) (reached : ∀ r ∈ R, Closure vars S R' r) :
    Brought vars N R' E p q S :=
  { h with
    reached := fun k hk => by
      rcases h.reached k hk with old | ⟨n, hn, closure, settled⟩
      · exact .inl old
      · exact .inr ⟨n, hn, closure.reroot reached, settled⟩ }

theorem signsOf (h : Brought vars N R E p q S) : SignsOf vars N S :=
  fun x c hc => ⟨(h.made x c hc).known, (h.made x c hc).isSignOf⟩

/-- One thing after the other. -/
theorem seq (h : Brought vars N R E p q S) (h' : Brought vars (joined N S) R' ∅ q s S')
    (first : p.Grows q) (second : q.Grows s) :
    Brought vars N (R ∪ R') E p s (S ++ S') where
  coherent := joined_append N S S' ▸ h'.coherent
  made x c hc := by
    rcases List.mem_append.mp hc with hc | hc
    · have m := h.made x c hc
      exact { m with constraint := second.holds m.constraint, var := second.holds m.var }
    · have m := h'.made x c hc
      exact { m with
        known := h.signsOf.var_mem m.known
        fresh := first.next.trans m.fresh
        zero_fresh := first.next.trans m.zero_fresh
        new := fun held => (m.new (first.holds held)).elim }
  single x c c' hc hc' := by
    rcases List.mem_append.mp hc with hc | hc <;> rcases List.mem_append.mp hc' with hc' | hc'
    · exact h.single x c c' hc hc'
    -- What the first has made a constraint for is not new to the second.
    · exact ((h'.made x c' hc').new (h.made x c hc).var).elim
    · exact ((h'.made x c hc).new (h.made x c' hc').var).elim
    · exact h'.single x c c' hc hc'
  reached k hk := by
    have entered : ∀ x c, (x, c) ∈ S ++ S' → s.Holds (Node.constraint c).key := by
      intro x c hc
      rcases List.mem_append.mp hc with hc | hc
      · exact second.holds (h.made x c hc).constraint
      · exact (h'.made x c hc).constraint
    rcases h'.reached k hk with old | ⟨n, hn, closure, settled⟩
    · rcases h.reached k old with older | ⟨n, hn, closure, settled⟩
      · exact .inl older
      · have sub : S ⊆ S ++ S' := List.subset_append_left S S'
        exact .inr ⟨n, hn, (closure.mono sub).reroot fun r hr => .root (.inl hr),
          settled.mono sub second entered⟩
    · have sub : S' ⊆ S ++ S' := List.subset_append_right S S'
      exact .inr ⟨n, hn, (closure.mono sub).reroot fun r hr => .root (.inr hr),
        settled.mono sub (.refl s) entered⟩
  keeps I maintained holds :=
    joined_append N S S' ▸ h'.keeps I maintained (h.keeps I maintained holds)

/-- A node is entered after what it brings. -/
theorem close {n : Node α} (h : Brought vars N R E p q S) (grows : q.Grows s)
    (next : s.ledger.nextId = q.ledger.nextId)
    (enters : ∀ k, s.Holds k → q.Holds k ∨ k = n.key)
    (reached : ∀ r ∈ R, Brings vars S n r)
    (brings : ∀ m, Brings vars S n m → s.Holds m.key)
    (unsigned : ∀ x, n = .expr (.var x) → ¬x.IsSigned vars)
    (keeps : ∀ I, Maintained vars I → I (joined N S) q → I (joined N S) s) :
    Brought vars N {n} E p s S where
  coherent := next ▸ h.coherent
  made x c hc :=
    have m := h.made x c hc
    { m with constraint := grows.holds m.constraint, var := grows.holds m.var }
  single := h.single
  reached k hk := by
    rcases enters k hk with old | rfl
    · rcases h.reached k old with older | ⟨m, hm, closure, settled⟩
      · exact .inl older
      · exact .inr ⟨m, hm, closure.reroot fun r hr => .step (.root rfl) (reached r hr),
          settled.mono (List.Subset.refl S) grows
            fun x c hc => grows.holds (h.made x c hc).constraint⟩
    · exact .inr ⟨n, rfl, .root rfl, brings, fun x hx signed => (unsigned x hx signed).elim⟩
  keeps I maintained holds := keeps I maintained (h.keeps I maintained holds)

/-- A free variable is entered before what it brings. -/
theorem open_var {x : Variable} {o : κ} (h : Brought vars N R {x} (p.enterExpr x.id o) q S)
    (new : p.cache.exprs.get? x.id = none)
    (keeps : ∀ I, Maintained vars I → I N p → I N (p.enterExpr x.id o))
    (reached : ∀ r ∈ R, Brings vars S (.expr (.var x)) r)
    (settled : Settled vars S q (.expr (.var x))) : Brought vars N {.expr (.var x)} ∅ p q S where
  coherent := h.coherent
  made y c hc := by
    have m := h.made y c hc
    refine { m with new := fun held => ?_ }
    cases m.new (Pass.holds_enterExpr.mpr (.inl held))
    exact Table.get?_eq_none_iff.mp new held
  single := h.single
  reached k hk := by
    rcases h.reached k hk with old | ⟨n, hn, closure, settled⟩
    · rcases Pass.holds_enterExpr.mp old with older | rfl
      · exact .inl older
      · exact .inr ⟨_, rfl, .root rfl, settled⟩
    · exact .inr ⟨n, hn, closure.reroot fun r hr => .step (.root rfl) (reached r hr), settled⟩
  keeps I maintained holds := h.keeps I maintained (keeps I maintained holds)

/-- The constraint of a sign is entered after it was made. -/
theorem sign {x : Variable} {c : Constraint α} {l : Ledger}
    (made : signConstraint vars (.var x) p.ledger = .ok c l)
    (h : Brought vars (gain N (.constraint c)) {.constraint c} ∅ (p.spend l) q S)
    (known : .expr (.var x) ∈ N) (gained : ∀ y, .expr (.var y) ∈ gain N (.constraint c) →
      .expr (.var y) ∈ N) (signed : x.IsSigned vars) (constraint : q.Holds (Node.constraint c).key)
    (opened : p.Holds (Node.expr (.var x : Expr α)).key) (grows : p.Grows q) :
    Brought vars N {n | ∃ d, (x, d) ∈ (x, c) :: S ∧ n = .constraint d} {x} p q ((x, c) :: S) := by
  obtain ⟨isSignOf, hid, k, hk, zero, -⟩ := signConstraint_ok made
  have others {y : Variable} {d : Constraint α} (hd : (y, d) ∈ S) : y ≠ x := by
    rintro rfl
    exact (h.made y d hd).new opened
  exact
    { coherent := joined_cons N x c S ▸ h.coherent
      made := fun y d hd => by
        rcases List.mem_cons.mp hd with hd | hd
        · cases hd
          exact ⟨known, signed, isSignOf, hid.ge, hk ▸ zero.le, constraint, grows.holds opened,
            fun _ => rfl⟩
        · have m := h.made y d hd
          have le := (nextId_lt_of_signConstraint made).le
          exact { m with
            known := gained y m.known
            fresh := le.trans m.fresh
            zero_fresh := le.trans m.zero_fresh
            new := fun held => (m.new held).elim }
      single := fun y d d' hd hd' => by
        rcases List.mem_cons.mp hd with hd | hd <;> rcases List.mem_cons.mp hd' with hd' | hd'
        · cases hd
          cases hd'
          rfl
        · cases hd
          exact (others hd' rfl).elim
        · cases hd'
          exact (others hd rfl).elim
        · exact h.single y d d' hd hd'
      reached := fun k hk => by
        have entered : ∀ y d, (y, d) ∈ (x, c) :: S → q.Holds (Node.constraint d).key := by
          intro y d hd
          rcases List.mem_cons.mp hd with hd | hd
          · cases hd
            exact constraint
          · exact (h.made y d hd).constraint
        have sub : S ⊆ (x, c) :: S := List.subset_cons_self _ _
        rcases h.reached k hk with old | ⟨n, hn, closure, settled⟩
        · exact .inl old
        · refine .inr ⟨n, hn, (closure.mono sub).reroot ?_, settled.mono sub (.refl q) entered⟩
          rintro r rfl
          exact .root ⟨c, List.mem_cons_self, rfl⟩
      keeps := fun I maintained holds => by
        rw [joined_cons]
        exact h.keeps I maintained (maintained.spend l (maintained.mono (subset_gain N _) holds)) }

/-- What was made on the way was not entered. -/
theorem of_spend {l : Ledger} (h : Brought vars N R E (p.spend l) q S)
    (le : p.ledger.nextId ≤ l.nextId) : Brought vars N R E p q S where
  coherent := h.coherent
  made x c hc :=
    have m := h.made x c hc
    { m with
      fresh := le.trans m.fresh
      zero_fresh := le.trans m.zero_fresh
      new := m.new }
  single := h.single
  reached k hk := h.reached k hk
  keeps I maintained holds := h.keeps I maintained (maintained.spend l holds)

end Brought

omit [Scalar α] [Compiled α κ ρ] in
/-- A constant brings in nothing. -/
theorem Brings.not_constant {e : Expr α} {n : Node α} (h : Brings vars S (.expr e) n) :
    e.curvature vars ≠ .constant := by
  intro constant
  cases h with
  | right nonconstant => exact nonconstant (curvature_kron_eq_constant_iff.mp constant).2
  | attached free _ => cases free.symm.trans constant
  | sign signed _ => cases signed.1.symm.trans constant

/-! ## Every run keeps it -/

/-- Between two passes some nodes are brought in, whatever else was made before. -/
def Delivers (vars : Vars α) (R : Set (Node α)) (p q : Pass κ ρ) : Prop :=
  ∀ N, Coherent vars N p.ledger.nextId → R ⊆ N → ∃ S, Brought vars N R ∅ p q S

/-- The same for the sign of a free variable that was entered.  If the sign has a
constraint, that is what is brought in. -/
def DeliversSign (vars : Vars α) (x : Variable) (p q : Pass κ ρ) : Prop :=
  ∀ N, Coherent vars N p.ledger.nextId → .expr (.var x) ∈ N →
    (vars.state x).curvature = .affine → p.Holds (Node.expr (.var x : Expr α)).key →
    ∃ S, Brought vars N {n | ∃ c, (x, c) ∈ S ∧ n = .constraint c} {x} p q S ∧
      (x.IsSigned vars → ∃ c, (x, c) ∈ S)

namespace Delivers

variable {vars : Vars α} {R R' : Set (Node α)} {p q s : Pass κ ρ}

theorem refl (vars : Vars α) (R : Set (Node α)) (p : Pass κ ρ) : Delivers vars R p p :=
  fun _ coherent _ => ⟨[], .refl coherent R⟩

theorem seq (h : Delivers vars R p q) (h' : Delivers vars R' q s) (first : p.Grows q)
    (second : q.Grows s) : Delivers vars (R ∪ R') p s := by
  intro N coherent sub
  obtain ⟨S, brought⟩ := h N coherent fun r hr => sub (.inl hr)
  obtain ⟨S', brought'⟩ := h' _ brought.coherent fun r hr => subset_joined N S (sub (.inr hr))
  exact ⟨S ++ S', brought.seq brought' first second⟩

/-- The first attached node, and then the others. -/
theorem attached {n : Node α} {items : List (Attached α)} (h : Delivers vars {n} p q)
    (h' : Delivers vars {m | .node m ∈ items} q s) (first : p.Grows q) (second : q.Grows s) :
    Delivers vars {m | .node m ∈ .node n :: items} p s := by
  have nodes : {m | .node m ∈ Attached.node n :: items} = {n} ∪ {m | .node m ∈ items} := by
    ext m
    simp
  rw [nodes]
  exact h.seq h' first second

/-! ### Expressions -/

theorem constant {e : Expr α} {v : Value α} {doubts : List Doubt}
    (new : p.cache.exprs.get? e.id = none) (constant : e.curvature vars = .constant)
    (value : e.evaluate vars = .ok v) :
    Delivers vars {.expr e} p
      ((p.note doubts).enterExpr e.id (Compiled.ofObjective (.ofConstant v.toMatrix))) := by
  intro N coherent sub
  have base := Brought.refl (p := p.note doubts) coherent ∅
  have entered := base.close (n := .expr e) (.enterExpr (p := p.note doubts) new _) rfl
    (fun k => Pass.holds_enterExpr.mp) (fun r hr => hr.elim)
    (fun m hm => (hm.not_constant constant).elim)
    (fun x hx signed => by
      cases hx
      cases signed.1.symm.trans constant)
    fun I maintained holds =>
      maintained.constant base.coherent (subset_joined N [] (sub rfl)) constant value holds
  exact ⟨[], entered.of_spend (Int.le_refl _)⟩

/-- The variable is entered first, so what it brings may lead back to it. -/
theorem free {x : Variable} {o : κ}
    (opens : o = Compiled.ofObjective (.ofVariable x (vars.state x).sign))
    (new : p.cache.exprs.get? x.id = none) (free : (vars.state x).fixed = false)
    (sign : DeliversSign vars x (p.enterExpr x.id o) q)
    (items : Delivers vars {n | .node n ∈ (vars.state x).attached} q s)
    (first : (p.enterExpr x.id o).Grows q) (second : q.Grows s)
    (done : ∀ n, .node n ∈ (vars.state x).attached → s.Holds n.key) :
    Delivers vars {.expr (.var x)} p s := by
  intro N coherent sub
  have within : .expr (.var x) ∈ N := sub rfl
  have affine : (vars.state x).curvature = .affine := VarState.curvature_eq_affine_iff.mpr free
  obtain ⟨S, brought, signs⟩ := sign N coherent within affine
    (Pass.holds_enterExpr.mpr (.inr rfl))
  obtain ⟨S', brought'⟩ := items _ brought.coherent fun n hn =>
    subset_joined N S ((coherent.respects x within).attached n hn)
  have both := brought.seq brought' first second
  refine ⟨S ++ S', both.open_var new (fun I maintained holds => ?_) ?_
    ⟨fun m hm => ?_, fun y hy signed => ?_⟩⟩
  · exact opens ▸ maintained.free coherent within free holds
  · rintro r (⟨c, hc, rfl⟩ | hr)
    · exact .sign (brought.made x c hc).signed (List.mem_append_left S' hc)
    · exact .attached affine hr
  · cases hm with
    | attached _ mem => exact done m mem
    | sign _ mem => exact (both.made _ _ mem).constraint
  · cases hy
    obtain ⟨c, hc⟩ := signs signed
    exact ⟨c, List.mem_append_left S' hc⟩

section Products

variable {id : Id} {a b : Expr α} {doubts : List Doubt}

theorem product {child o : κ} (h : Delivers vars {.expr b} (p.note doubts) q)
    (left : a.curvature vars = .constant) (right : b.curvature vars ≠ .constant)
    (held : q.cache.exprs.get? b.id = some child) (new : q.cache.exprs.get? id = none)
    (product : Expr.product vars a b child = .ok o) :
    Delivers vars {.expr (.kron id a b)} p (q.enterExpr id o) := by
  intro N coherent sub
  have hb : .expr b ∈ N := (coherent.roster.kron (sub rfl)).2
  obtain ⟨S, brought⟩ := h N coherent (Set.singleton_subset_iff.mpr hb)
  refine ⟨S, .of_spend (l := (p.note doubts).ledger) ?_ (Int.le_refl _)⟩
  refine brought.close (.enterExpr new o) rfl (fun k => Pass.holds_enterExpr.mp) ?_ ?_
    (fun x hx => by cases hx) fun I maintained holds => ?_
  · rintro r rfl
    exact .right right
  · intro m hm
    cases hm with
    | right _ => exact Pass.holds_enterExpr.mpr (.inl (Table.mem_ids_of_get? held))
  · exact maintained.product brought.coherent (subset_joined N S (sub rfl)) left right held
      product holds

/-- The product was entered on a detour. -/
theorem productMet (h : Delivers vars {.expr b} (p.note doubts) q)
    (right : b.curvature vars ≠ .constant) : Delivers vars {.expr (.kron id a b)} p q := by
  intro N coherent sub
  have hb : .expr b ∈ N := (coherent.roster.kron (sub rfl)).2
  obtain ⟨S, brought⟩ := h N coherent (Set.singleton_subset_iff.mpr hb)
  refine ⟨S, .of_spend (l := (p.note doubts).ledger) (brought.reroot ?_) (Int.le_refl _)⟩
  rintro r rfl
  exact .step (.root rfl) (.right right)

end Products

/-! ### Constraints -/

section Sides

variable {c : Constraint α} (h : Delivers vars ({.expr c.lhs} ∪ {.expr c.rhs}) p q)

include h

theorem sides {N : Set (Node α)} (coherent : Coherent vars N p.ledger.nextId)
    (hc : .constraint c ∈ N) : ∃ S, Brought vars N ({.expr c.lhs} ∪ {.expr c.rhs}) ∅ p q S := by
  obtain ⟨left, right⟩ := coherent.roster.sides hc
  refine h N coherent ?_
  rintro r (rfl | rfl)
  · exact left
  · exact right

theorem lower {l r : κ} {s : ρ} (new : q.cache.constraints.get? c.id = none)
    (left : q.cache.exprs.get? c.lhs.id = some l) (right : q.cache.exprs.get? c.rhs.id = some r)
    (between : c.between vars l r = .ok s) :
    Delivers vars {.constraint c} p (q.enterConstraint c.id s) := by
  intro N coherent sub
  obtain ⟨S, brought⟩ := h.sides coherent (sub rfl)
  refine ⟨S, brought.close (.enterConstraint new s) rfl (fun k => Pass.holds_enterConstraint.mp)
    ?_ ?_ (fun x hx => by cases hx) fun I maintained holds => ?_⟩
  · rintro n (rfl | rfl)
    · exact .lhs c
    · exact .rhs c
  · intro m hm
    refine Pass.holds_enterConstraint.mpr (.inl ?_)
    cases hm with
    | lhs => exact Table.mem_ids_of_get? left
    | rhs => exact Table.mem_ids_of_get? right
  · exact maintained.lower brought.coherent (subset_joined N S (sub rfl)) left right between holds

/-- The constraint was entered on a detour. -/
theorem lowerMet : Delivers vars {.constraint c} p q := by
  intro N coherent sub
  obtain ⟨S, brought⟩ := h.sides coherent (sub rfl)
  refine ⟨S, brought.reroot ?_⟩
  rintro n (rfl | rfl)
  · exact .step (.root rfl) (.lhs c)
  · exact .step (.root rfl) (.rhs c)

end Sides

end Delivers

/-! ### Signs -/

namespace DeliversSign

variable {vars : Vars α} {x : Variable} {p q : Pass κ ρ}

/-- A sign without a constraint. -/
theorem unsigned (no : (vars.state x).sign.isOneSided = false) : DeliversSign vars x p p := by
  intro N coherent _ _ _
  have none : Brought vars N ∅ ∅ p p [] := .refl coherent ∅
  refine ⟨[], { none.reroot fun r hr => hr.elim with
    made := fun y c hc => by cases hc }, fun signed => ?_⟩
  cases no.symm.trans signed.2

theorem signed {c : Constraint α} {l : Ledger} (yes : (vars.state x).sign.isOneSided = true)
    (made : signConstraint vars (.var x) p.ledger = .ok c l)
    (h : Delivers vars {.constraint c} (p.spend l) q) (held : q.Holds (Node.constraint c).key)
    (grows : (p.spend l).Grows q) : DeliversSign vars x p q := by
  intro N coherent within affine opened
  have gained := coherent.roster.gain_sign coherent.pos within made
  obtain ⟨S, brought⟩ := h _ (coherent.gain gained)
    (Set.singleton_subset_iff.mpr (mem_gain N _))
  have all := (Pass.Grows.spend p (nextId_lt_of_signConstraint made).le).trans grows
  exact ⟨(x, c) :: S, brought.sign made within gained.vars ⟨affine, yes⟩ held opened all,
    fun _ => ⟨c, List.mem_cons_self⟩⟩

end DeliversSign

/-- What a job brings in. -/
def Job.Delivers (vars : Vars α) (p q : Pass κ ρ) : Job α κ ρ → Prop
  | .expr e _ => ConicModel.Delivers vars {.expr e} p q
  | .constraint c _ => ConicModel.Delivers vars {.constraint c} p q
  | .sign x => DeliversSign vars x p q
  | .attached items => ConicModel.Delivers vars {n | .node n ∈ items} p q

theorem Run.delivers {vars : Vars α} {job : Job α κ ρ} {p q : Pass κ ρ}
    (h : Run vars job p q) : job.Delivers vars p q := by
  induction h with
  | known | lowered | nil => exact .refl vars _ _
  | unsigned no => exact .unsigned no
  | constant doubts new constant value => exact .constant new constant value
  | stub new => exact fun N coherent sub => (coherent.roster.no_stub _ (sub rfl)).elim
  | free new free sign attached ih ih' =>
      exact .free rfl new free ih ih' sign.grows attached.grows attached.done
  | product doubts new left right below still_new hasProducts value product ih =>
      exact ih.product left right below.done still_new
        (Expr.product_ok.mpr ⟨_, _, hasProducts, value, product⟩)
  | productMet doubts new left right below met ih => exact ih.productMet right
  | lower new lhs rhs difference lower still_new ih ih' =>
      exact (ih.seq ih' lhs.grows rhs.grows).lower still_new (rhs.grows.expr_kept lhs.done)
        rhs.done (Outcome.except_bind_ok.mpr ⟨_, difference, lower⟩)
  | lowerMet new lhs rhs met ih ih' => exact (ih.seq ih' lhs.grows rhs.grows).lowerMet
  | signed yes made lowered ih =>
      exact .signed yes made ih (Table.mem_ids_of_get? lowered.done) lowered.grows
  | constraint first rest ih ih' => exact ih.attached ih' first.grows rest.grows
  | expr first rest ih ih' => exact ih.attached ih' first.grows rest.grows

end Invariant

/-! ## From an empty cache -/

section Fresh

variable [Scalar α] {vars : Vars α} {N : Set (Node α)} {S : Signs α}

/-- A pass holds the closure of some nodes, and each constraint of it is recorded once. -/
structure HoldsClosure (vars : Vars α) (N : Set (Node α)) (start : Id) (S : Signs α)
    (roots : Set (Node α)) (q : Pass κ ρ) : Prop where
  /-- There are entries for the nodes of the closure and for nothing else. -/
  entries : ∀ k, q.Holds k ↔ ∃ n : Node α, Closure vars S roots n ∧ n.key = k
  /-- No two nodes of it share a place. -/
  distinct : ∀ m n, Closure vars S roots m → Closure vars S roots n → m.id = n.id → m = n
  exprs_nodup : q.cache.exprs.ids.Nodup
  constraints_nodup : q.cache.constraints.ids.Nodup
  /-- The records are those of the entries, in order. -/
  records : q.cache.records = q.cache.constraints.items
  /-- A constraint made on the way is new, and is that of the sign of a variable reached. -/
  signs : ∀ x c, (x, c) ∈ S → Closure vars S roots (.expr (.var x)) ∧ x.IsSigned vars ∧
    c.IsSignOf vars x ∧ start ≤ c.id
  /-- Each signed variable that was reached has one. -/
  signed : ∀ x, Closure vars S roots (.expr (.var x)) → x.IsSigned vars → ∃! c, (x, c) ∈ S
  /-- The other constraints were made before. -/
  old : ∀ c, Closure vars S roots (.constraint c) → .constraint c ∈ N ∨ ∃ x, (x, c) ∈ S

omit [Scalar α] in
/-- What nodes bring in was made, before or on the way. -/
theorem Closure.mem_joined {next : Id} {roots : Set (Node α)} {n : Node α}
    (h : Closure vars S roots n) (sub : roots ⊆ N)
    (coherent : Coherent vars (joined N S) next) : n ∈ joined N S := by
  induction h with
  | root h => exact subset_joined N S (sub h)
  | step _ brings ih =>
      cases brings with
      | lhs c => exact (coherent.roster.sides ih).1
      | rhs c => exact (coherent.roster.sides ih).2
      | right _ => exact (coherent.roster.kron ih).2
      | attached _ mem => exact (coherent.respects _ ih).attached _ mem
      | sign _ mem => exact .inr ⟨_, mem, .inl rfl⟩

omit [Scalar α] in
theorem Node.id_eq_of_key {m n : Node α} (h : m.key = n.key) : m.id = n.id := by
  cases m with
  | expr d =>
      cases n with
      | expr e => exact Key.expr.inj h
      | constraint c => cases h
  | constraint c =>
      cases n with
      | expr e => cases h
      | constraint d => exact Key.constraint.inj h

theorem Brought.holdsClosure [Compiled α κ ρ] {R : Set (Node α)} {p q : Pass κ ρ}
    (h : Brought vars N R ∅ p q S) (grows : p.Grows q) (fresh : p.cache = {}) (sub : R ⊆ N)
    (roots : ∀ n ∈ R, q.Holds n.key) : HoldsClosure vars N p.ledger.nextId S R q := by
  have nothing (k : Key) : ¬p.Holds k := by
    cases k <;> simp [Pass.Holds, fresh, Table.ids]
  have made {n : Node α} (hn : Closure vars S R n) : n ∈ joined N S :=
    hn.mem_joined sub h.coherent
  -- Places tell nodes apart, so a node that was made is settled once its place is taken.
  have settled {n : Node α} (hn : n ∈ joined N S) (held : q.Holds n.key) :
      Closure vars S R n ∧ Settled vars S q n := by
    rcases h.reached _ held with old | ⟨m, hm, closure, settled⟩
    · exact (nothing _ old).elim
    · cases h.coherent.roster.unique m (made closure) n hn (Node.id_eq_of_key hm)
      exact ⟨closure, settled⟩
  have held {n : Node α} (hn : Closure vars S R n) : q.Holds n.key := by
    induction hn with
    | root hn => exact roots _ hn
    | step hm brings ih => exact (settled (made hm) ih).2.entered _ brings
  exact
    { entries := fun k => by
        constructor
        · intro hk
          rcases h.reached k hk with old | ⟨n, hn, closure, -⟩
          · exact (nothing k old).elim
          · exact ⟨n, closure, hn⟩
        · rintro ⟨n, hn, rfl⟩
          exact held hn
      distinct := fun m n hm hn => h.coherent.roster.unique m (made hm) n (made hn)
      exprs_nodup := grows.exprs_nodup (by simp [fresh, Table.ids])
      constraints_nodup := grows.constraints_nodup (by simp [fresh, Table.ids])
      records := by
        obtain ⟨t, ht, hr⟩ := grows.constraints
        rw [ht, hr, fresh]
        rfl
      signs := fun x c hc => by
        have m := h.made x c hc
        have var : Node.expr (.var x) ∈ joined N S := by
          refine .inr ⟨(x, c), hc, .inr ?_⟩
          rw [← m.isSignOf.lhs]
          exact List.mem_cons_self
        exact ⟨(settled var m.var).1, m.signed, m.isSignOf, m.fresh⟩
      signed := fun x hx signed => by
        obtain ⟨c, hc⟩ := (settled (made hx) (held hx)).2.signed x rfl signed
        exact ⟨c, hc, fun d hd => h.single x d c hd hc⟩
      old := fun c hc => by
        rcases made hc with old | ⟨s, hs, hc | hc⟩
        · exact .inl old
        · cases hc
          exact .inr ⟨s.1, hs⟩
        · rcases List.mem_cons.mp hc with hc | hc
          · cases hc
          · cases List.mem_singleton.mp hc }

/-- Whatever is compiled into an empty cache in a reachable state, one call after another:
at the end there are entries for exactly the nodes that the calls bring in, every
constraint among them is recorded exactly once, every signed variable among them has
exactly one constraint for its sign, made on the way, and each call has returned what the
cache holds.  It does not matter what is attached to the variables. -/
theorem compilation_holds_closure [Compiled α κ ρ] {w : World α} (reachable : Reachable w)
    {roots : List (Node α)} (made : ∀ n ∈ roots, n ∈ w.nodes) {xs : List (Returned κ ρ)}
    {q : Pass κ ρ} (h : compileNodes w.vars roots ⟨w.ledger, {}⟩ = .ok xs q) :
    (∃ S, HoldsClosure w.vars w.nodes w.ledger.nextId S {n | n ∈ roots} q) ∧
      List.Forall₂ (fun n x => Returned.HeldFor q n x) roots xs := by
  obtain ⟨run, returned⟩ := run_of_compileNodes h
  have listed {n : Node α} : .node n ∈ roots.map Attached.node ↔ n ∈ roots := by
    simp
  obtain ⟨S, brought⟩ := run.delivers w.nodes reachable.sound.coherent
    fun n hn => made n (listed.mp hn)
  have reached : Brought w.vars w.nodes {n | n ∈ roots} ∅ ⟨w.ledger, {}⟩ q S :=
    brought.reroot fun r hr => .root (listed.mp hr)
  exact ⟨⟨S, reached.holdsClosure run.grows rfl made fun n hn => run.done n (listed.mpr hn)⟩,
    returned⟩

end Fresh

/-- In the cyclic world the bound is reached from itself, through its variable. -/
theorem looped_compilation_holds_closure : ∃ xs q,
    compileNodes Looped.world.vars [.constraint Looped.bound, .expr Looped.triple]
        (⟨Looped.world.ledger, {}⟩ : Pass (Objective ℚ) (Record ℚ)) = .ok xs q ∧
      q.cache.constraints.ids.length = 2 ∧
      (∃ S, HoldsClosure Looped.world.vars Looped.world.nodes Looped.world.ledger.nextId S
        {n | n ∈ [.constraint Looped.bound, .expr Looped.triple]} q) ∧
      List.Forall₂ (fun n x => Returned.HeldFor q n x)
        [.constraint Looped.bound, .expr Looped.triple] xs := by
  obtain ⟨xs, q, compiled, both⟩ : ∃ xs q,
      compileNodes Looped.world.vars [.constraint Looped.bound, .expr Looped.triple]
        (⟨Looped.world.ledger, {}⟩ : Pass (Objective ℚ) (Record ℚ)) = .ok xs q ∧
      q.cache.constraints.ids.length = 2 := by
    decide +kernel
  refine ⟨xs, q, compiled, both,
    compilation_holds_closure Looped.world_reachable (fun n hn => ?_) compiled⟩
  rcases List.mem_cons.mp hn with rfl | hn
  · exact Looped.bound_made
  · cases List.mem_singleton.mp hn
    exact Looped.triple_made

end ConicModel
