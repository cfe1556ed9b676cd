/-
# Runs of compilation

What a walk does when it is not refused, told without its depth.  `Run vars job p q` is a
derivation that the job was done and took the pass `p` to the pass `q`: an expression was
compiled to something, a constraint lowered to something, the sign of a free variable
seen to, or a list of attached items gone through.  There is one rule for each way through
the text of a walk; in particular a product and a constraint are found entered the second
time they are looked up (`Run.productMet`, `Run.lowerMet`), if their own parts led back to
them.

`run_of_walkExpr` and `run_of_walkConstraint` say that every walk that ends well is a run.
What holds of all runs is then shown by induction on the derivation, rule by rule;
`Run.grows` is the first such fact: a cache only grows, at its end.
-/
import ConicModel.Proofs.Compile.Walk
import ConicModel.Proofs.Table

namespace ConicModel

/-- Something to be done in a pass, with what it gives. -/
inductive Job (α κ ρ : Type) where
  | expr (e : Expr α) (o : κ)
  | constraint (c : Constraint α) (r : ρ)
  /-- See to the sign of a free variable. -/
  | sign (x : Variable)
  | attached (items : List (Attached α))

variable {α : Type} [Scalar α] {κ ρ : Type} [Compiled α κ ρ]

/-- A job was done, from one pass to another. -/
inductive Run (vars : Vars α) : Job α κ ρ → Pass κ ρ → Pass κ ρ → Prop where
  | known {e : Expr α} {o : κ} {p : Pass κ ρ} (held : p.cache.exprs.get? e.id = some o) :
      Run vars (.expr e o) p p
  | constant {e : Expr α} {v : Value α} {p : Pass κ ρ} (doubts : List Doubt)
      (new : p.cache.exprs.get? e.id = none) (constant : e.curvature vars = .constant)
      (value : e.evaluate vars = .ok v) :
      Run vars (.expr e (Compiled.ofObjective (.ofConstant v.toMatrix))) p
        ((p.note doubts).enterExpr e.id (Compiled.ofObjective (.ofConstant v.toMatrix)))
  | stub {s : Stub} {p : Pass κ ρ} (new : p.cache.exprs.get? s.id = none) :
      Run vars (.expr (.stub s) (Compiled.ofObjective (.ofStub s))) p
        (p.enterExpr s.id (Compiled.ofObjective (.ofStub s)))
  | free {x : Variable} {p q q' : Pass κ ρ} (new : p.cache.exprs.get? x.id = none)
      (free : (vars.state x).fixed = false)
      (sign : Run vars (.sign x) (p.enterExpr x.id
        (Compiled.ofObjective (.ofVariable x (vars.state x).sign))) q)
      (attached : Run vars (.attached (vars.state x).attached) q q') :
      Run vars (.expr (.var x) (Compiled.ofObjective (.ofVariable x (vars.state x).sign))) p q'
  | product {id : Id} {a b : Expr α} {child o : κ} {times : Coeffs α → Except (Fault α) κ}
      {v : Value α} {p q : Pass κ ρ} (doubts : List Doubt)
      (new : p.cache.exprs.get? id = none) (left : a.curvature vars = .constant)
      (right : b.curvature vars ≠ .constant) (below : Run vars (.expr b child) (p.note doubts) q)
      (still_new : q.cache.exprs.get? id = none)
      (hasProducts : Compiled.premultiply child = .ok times) (value : a.evaluate vars = .ok v)
      (product : times (v.toMatrix.map fun A => kroneckerOperator A b.shape.1 b.shape.2)
        = .ok o) :
      Run vars (.expr (.kron id a b) o) p (q.enterExpr id o)
  | productMet {id : Id} {a b : Expr α} {child o : κ} {p q : Pass κ ρ} (doubts : List Doubt)
      (new : p.cache.exprs.get? id = none) (left : a.curvature vars = .constant)
      (right : b.curvature vars ≠ .constant) (below : Run vars (.expr b child) (p.note doubts) q)
      (met : q.cache.exprs.get? id = some o) : Run vars (.expr (.kron id a b) o) p q
  | lowered {c : Constraint α} {r : ρ} {p : Pass κ ρ}
      (held : p.cache.constraints.get? c.id = some r) : Run vars (.constraint c r) p p
  | lower {c : Constraint α} {l r d : κ} {s : ρ} {p q q' : Pass κ ρ}
      (new : p.cache.constraints.get? c.id = none) (lhs : Run vars (.expr c.lhs l) p q)
      (rhs : Run vars (.expr c.rhs r) q q') (difference : Compiled.sub l r = .ok d)
      (lower : c.lower vars d = .ok s) (still_new : q'.cache.constraints.get? c.id = none) :
      Run vars (.constraint c s) p (q'.enterConstraint c.id s)
  | lowerMet {c : Constraint α} {l r : κ} {s : ρ} {p q q' : Pass κ ρ}
      (new : p.cache.constraints.get? c.id = none) (lhs : Run vars (.expr c.lhs l) p q)
      (rhs : Run vars (.expr c.rhs r) q q') (met : q'.cache.constraints.get? c.id = some s) :
      Run vars (.constraint c s) p q'
  | unsigned {x : Variable} {p : Pass κ ρ} (no : (vars.state x).sign.isOneSided = false) :
      Run vars (.sign x) p p
  | signed {x : Variable} {c : Constraint α} {r : ρ} {l : Ledger} {p q : Pass κ ρ}
      (yes : (vars.state x).sign.isOneSided = true)
      (made : signConstraint vars (.var x) p.ledger = .ok c l)
      (lowered : Run vars (.constraint c r) (p.spend l) q) : Run vars (.sign x) p q
  | nil {p : Pass κ ρ} : Run vars (.attached []) p p
  | constraint {c : Constraint α} {r : ρ} {items : List (Attached α)} {p q q' : Pass κ ρ}
      (first : Run vars (.constraint c r) p q) (rest : Run vars (.attached items) q q') :
      Run vars (.attached (.node (.constraint c) :: items)) p q'
  | expr {e : Expr α} {o : κ} {items : List (Attached α)} {p q q' : Pass κ ρ}
      (first : Run vars (.expr e o) p q) (rest : Run vars (.attached items) q q') :
      Run vars (.attached (.node (.expr e) :: items)) p q'

/-! ## Walks are runs -/

section Walks

variable {vars : Vars α}

/-- Entering an expression by its value, after notice was given. -/
theorem run_of_walkConstant {e : Expr α} {o : κ} {p q : Pass κ ρ} (doubts : List Doubt)
    (new : p.cache.exprs.get? e.id = none) (constant : e.curvature vars = .constant)
    (h : (walkConstant vars e : Walk α κ ρ κ) (p.note doubts) = .ok o q) :
    Run vars (.expr e o) p q := by
  obtain ⟨v, p₁, hv, entered⟩ := Outcome.bind_ok.mp h
  obtain ⟨value, rfl⟩ := Walk.ofExcept_ok.mp hv
  obtain ⟨-, rfl, rfl⟩ := Walk.enterExpr_ok.mp entered
  exact .constant doubts new constant value

/-- A pass in which nothing was noted is the same pass. -/
theorem Pass.note_nil (p : Pass κ ρ) : p.note [] = p := by
  cases p with
  | mk ledger cache =>
      cases ledger
      simp [note, spend]

theorem Pass.note_note (p : Pass κ ρ) (ds ds' : List Doubt) :
    (p.note ds).note ds' = p.note (ds ++ ds') := by
  simp [note, spend]

/-- The walks within one depth that end well are runs. -/
structure WalksRun (κ : Type) {ρ : Type} [Compiled α κ ρ] (vars : Vars α) (n : Nat) : Prop where
  expr : ∀ {e : Expr α} {o : κ} {p q : Pass κ ρ},
    walkExpr vars n e p = .ok o q → Run vars (.expr e o) p q
  constraint : ∀ {c : Constraint α} {r : ρ} {p q : Pass κ ρ},
    walkConstraint vars n c p = .ok r q → Run vars (.constraint c r) p q
  attached : ∀ {items : List (Attached α)} {p q : Pass κ ρ},
    (items.forM fun item => walkAttached vars n item) p = .ok () q →
      Run vars (.attached items) p q

/-- Where no walk goes, no walk ends well. -/
theorem WalksRun.zero : WalksRun κ vars 0 where
  expr h := (Outcome.throw_ok.mp (by rwa [walkExpr.eq_def] at h)).elim
  constraint h := (Outcome.throw_ok.mp (by rwa [walkConstraint.eq_def] at h)).elim
  attached {items p q} h := by
    cases items with
    | nil =>
        obtain ⟨-, rfl⟩ := Outcome.pure_ok.mp h
        exact .nil
    | cons item items =>
        obtain ⟨⟨⟩, p₁, hitem, -⟩ := Outcome.bind_ok.mp h
        have hitem : walkAttached vars 0 item p = .ok () p₁ := hitem
        rw [walkAttached.eq_def] at hitem
        exact (Outcome.throw_ok.mp hitem).elim

namespace WalksRun

variable {n : Nat}

theorem sign (h : WalksRun κ vars n) {x : Variable} {p q : Pass κ ρ}
    (hw : walkSign vars n x p = .ok () q) : Run vars (.sign x) p q := by
  unfold walkSign at hw
  split at hw
  · rename_i yes
    obtain ⟨c, p₁, hc, rest⟩ := Outcome.bind_ok.mp hw
    obtain ⟨l, made, rfl⟩ := Walk.make_ok.mp hc
    obtain ⟨r, p₂, hr, done⟩ := Outcome.bind_ok.mp rest
    obtain ⟨-, rfl⟩ := Outcome.pure_ok.mp done
    exact .signed yes made (h.constraint hr)
  · rename_i no
    obtain ⟨-, rfl⟩ := Outcome.pure_ok.mp hw
    exact .unsigned (Bool.not_eq_true _ ▸ no)

theorem free (h : WalksRun κ vars n) {x : Variable} {o : κ} {p q : Pass κ ρ}
    (new : p.cache.exprs.get? x.id = none) (free : (vars.state x).fixed = false)
    (hw : walkFree vars n x p = .ok o q) : Run vars (.expr (.var x) o) p q := by
  obtain ⟨o', p₁, entered, rest₁⟩ := Outcome.bind_ok.mp hw
  obtain ⟨-, rfl, rfl⟩ := Walk.enterExpr_ok.mp entered
  obtain ⟨⟨⟩, p₂, sign, rest₂⟩ := Outcome.bind_ok.mp rest₁
  obtain ⟨⟨⟩, p₃, attached, done⟩ := Outcome.bind_ok.mp rest₂
  obtain ⟨rfl, rfl⟩ := Outcome.pure_ok.mp done
  exact .free new free (h.sign sign) (h.attached attached)

theorem product (h : WalksRun κ vars n) {id : Id} {a b : Expr α} {o : κ} {p q : Pass κ ρ}
    {doubts : List Doubt} (new : p.cache.exprs.get? id = none)
    (left : a.curvature vars = .constant) (right : b.curvature vars ≠ .constant)
    (hw : walkProduct vars n id a b (p.note doubts) = .ok o q) :
    Run vars (.expr (.kron id a b) o) p q := by
  obtain ⟨child, p₁, hchild, rest⟩ := Outcome.bind_ok.mp hw
  cases met : p₁.cache.exprs.get? id with
  | some o' =>
      rw [Walk.unlessHeld_of_some met] at rest
      cases rest
      exact .productMet doubts new left right (h.expr hchild) met
  | none =>
      rw [Walk.unlessHeld_of_none met] at rest
      obtain ⟨times, p₂, htimes, rest₁⟩ := Outcome.bind_ok.mp rest
      obtain ⟨hasProducts, rfl⟩ := Walk.ofExcept_ok.mp htimes
      obtain ⟨v, p₃, hv, rest₂⟩ := Outcome.bind_ok.mp rest₁
      obtain ⟨value, rfl⟩ := Walk.ofExcept_ok.mp hv
      obtain ⟨o', p₄, ho, entered⟩ := Outcome.bind_ok.mp rest₂
      obtain ⟨product, rfl⟩ := Walk.ofExcept_ok.mp ho
      obtain ⟨-, rfl, rfl⟩ := Walk.enterExpr_ok.mp entered
      exact .product doubts new left right (h.expr hchild) met hasProducts value product

theorem sides (h : WalksRun κ vars n) {c : Constraint α} {s : ρ} {p q : Pass κ ρ}
    (new : p.cache.constraints.get? c.id = none) (hw : walkSides vars n c p = .ok s q) :
    Run vars (.constraint c s) p q := by
  obtain ⟨l, p₁, hl, rest₁⟩ := Outcome.bind_ok.mp hw
  obtain ⟨r, p₂, hr, rest₂⟩ := Outcome.bind_ok.mp rest₁
  obtain ⟨d, p₃, hd, rest₃⟩ := Outcome.bind_ok.mp rest₂
  obtain ⟨difference, rfl⟩ := Walk.ofExcept_ok.mp hd
  obtain ⟨t, p₄, ht, rest₄⟩ := Outcome.bind_ok.mp rest₃
  obtain ⟨lower, rfl⟩ := Walk.ofExcept_ok.mp ht
  cases met : p₄.cache.constraints.get? c.id with
  | some s' =>
      rw [Walk.unlessLowered_of_some met] at rest₄
      cases rest₄
      exact .lowerMet new (h.expr hl) (h.expr hr) met
  | none =>
      rw [Walk.unlessLowered_of_none met] at rest₄
      obtain ⟨-, rfl, rfl⟩ := Walk.enterConstraint_ok.mp rest₄
      exact .lower new (h.expr hl) (h.expr hr) difference lower met

/-- An expression that was not entered, case by case. -/
theorem new (h : WalksRun κ vars n) {e : Expr α} {o : κ} {p q : Pass κ ρ}
    (new : p.cache.exprs.get? e.id = none) (hw : walkNew vars n e p = .ok o q) :
    Run vars (.expr e o) p q := by
  cases e with
  | const c => exact run_of_walkConstant [] new rfl (by rwa [Pass.note_nil])
  | stub s =>
      obtain ⟨-, rfl, rfl⟩ := Walk.enterExpr_ok.mp hw
      exact .stub new
  | var x =>
      rw [walkNew] at hw
      cases fixed : (vars.state x).fixed with
      | true =>
          rw [if_pos fixed] at hw
          exact run_of_walkConstant [] new (curvature_var_eq_constant_iff.mpr fixed)
            (by rwa [Pass.note_nil])
      | false =>
          rw [if_neg (by simp [fixed])] at hw
          exact h.free new fixed hw
  | kron id a b =>
      obtain ⟨va, p₁, ha, rest₁⟩ := Outcome.bind_ok.mp hw
      obtain ⟨rfl, rfl⟩ := Walk.trust_ok.mp ha
      split at rest₁
      · exact (Walk.refuse_ok.mp rest₁).elim
      · rename_i left
        have left : a.curvature vars = .constant := not_not.mp left
        obtain ⟨vb, p₂, hb, rest₂⟩ := Outcome.bind_ok.mp rest₁
        obtain ⟨rfl, rfl⟩ := Walk.trust_ok.mp hb
        rw [Pass.note_note] at rest₂
        split at rest₂
        · rename_i right
          exact run_of_walkConstant _ new (curvature_kron_eq_constant_iff.mpr ⟨left, right⟩) rest₂
        · rename_i right
          exact h.product new left right rest₂

theorem succ (h : WalksRun κ vars n) : WalksRun κ vars (n + 1) where
  expr {e o p q} hw := by
    rw [walkExpr_succ] at hw
    -- What was entered already is answered at once, whatever the expression is.
    cases held : p.cache.exprs.get? e.id with
    | some o' =>
        rw [Walk.unlessHeld_of_some held] at hw
        cases hw
        exact .known held
    | none =>
        rw [Walk.unlessHeld_of_none held] at hw
        exact h.new held hw
  constraint {c r p q} hw := by
    rw [walkConstraint_succ] at hw
    cases held : p.cache.constraints.get? c.id with
    | some r' =>
        rw [Walk.unlessLowered_of_some held] at hw
        cases hw
        exact .lowered held
    | none =>
        rw [Walk.unlessLowered_of_none held] at hw
        exact h.sides held hw
  attached {items p q} hw := by
    induction items generalizing p with
    | nil =>
        obtain ⟨-, rfl⟩ := Outcome.pure_ok.mp hw
        exact .nil
    | cons item items ih =>
        obtain ⟨⟨⟩, p₁, first, rest⟩ := Outcome.bind_ok.mp hw
        have first : walkAttached vars (n + 1) item p = .ok () p₁ := first
        rw [walkAttached.eq_def] at first
        cases item with
        | foreign d => exact (Walk.refuse_ok.mp first).elim
        | node m =>
            cases m with
            | constraint c =>
                obtain ⟨r, p₂, hr, done⟩ := Outcome.bind_ok.mp first
                obtain ⟨-, rfl⟩ := Outcome.pure_ok.mp done
                exact .constraint (h.constraint hr) (ih rest)
            | expr e =>
                obtain ⟨o, p₂, ho, done⟩ := Outcome.bind_ok.mp first
                obtain ⟨-, rfl⟩ := Outcome.pure_ok.mp done
                exact .expr (h.expr ho) (ih rest)

theorem all (κ : Type) {ρ : Type} [Compiled α κ ρ] (vars : Vars α) (n : Nat) :
    WalksRun κ vars n := by
  induction n with
  | zero => exact .zero
  | succ n ih => exact ih.succ

end WalksRun

/-- A walk that ends well is a run, whatever its depth was. -/
theorem run_of_walkExpr {n : Nat} {e : Expr α} {o : κ} {p q : Pass κ ρ}
    (h : walkExpr vars n e p = .ok o q) : Run vars (.expr e o) p q :=
  (WalksRun.all κ vars n).expr h

theorem run_of_walkConstraint {n : Nat} {c : Constraint α} {r : ρ} {p q : Pass κ ρ}
    (h : walkConstraint vars n c p = .ok r q) : Run vars (.constraint c r) p q :=
  (WalksRun.all κ vars n).constraint h

theorem run_of_walkSign {n : Nat} {x : Variable} {p q : Pass κ ρ}
    (h : walkSign vars n x p = .ok () q) : Run (κ := κ) vars (.sign x) p q :=
  (WalksRun.all κ vars n).sign h

theorem run_of_walkAttached {n : Nat} {item : Attached α} {p q : Pass κ ρ}
    (h : walkAttached vars n item p = .ok () q) : Run (κ := κ) vars (.attached [item]) p q :=
  (WalksRun.all κ vars n).attached (Outcome.bind_ok.mpr ⟨(), q, h, rfl⟩)

omit [Scalar α] [Compiled α κ ρ] in
theorem Walk.run_ok {β : Type} {w : Walk α κ ρ β} {x : β} {p q : Pass κ ρ}
    (h : w.run p = .ok x q) : w p = .ok x q := by
  unfold run at h
  split at h
  · rename_i hw
    cases h
    exact hw
  · cases h
  · cases h

theorem run_of_compileExpr {e : Expr α} {o : κ} {p q : Pass κ ρ}
    (h : compileExpr vars e p = .ok o q) : Run vars (.expr e o) p q :=
  run_of_walkExpr (Walk.run_ok h)

theorem run_of_compileConstraint {c : Constraint α} {r : ρ} {p q : Pass κ ρ}
    (h : compileConstraint vars c p = .ok r q) : Run vars (.constraint c r) p q :=
  run_of_walkConstraint (Walk.run_ok h)

end Walks

/-! ## A cache grows at its end -/

omit [Scalar α] [Compiled α κ ρ]

/-- What became of a cache: its entries are in their old places with new ones after them,
none entered twice, and every new constraint has been recorded. -/
structure Cache.Extends (c d : Cache κ ρ) : Prop where
  exprs : ∃ t, d.exprs = c.exprs ++ t
  constraints : ∃ t : Table ρ, d.constraints = c.constraints ++ t ∧
    d.records = c.records ++ t.items
  exprs_nodup : c.exprs.ids.Nodup → d.exprs.ids.Nodup
  constraints_nodup : c.constraints.ids.Nodup → d.constraints.ids.Nodup

namespace Cache.Extends

variable {c d e : Cache κ ρ}

theorem refl (c : Cache κ ρ) : c.Extends c where
  exprs := ⟨[], (List.append_nil _).symm⟩
  constraints := ⟨[], (List.append_nil _).symm, (List.append_nil _).symm⟩
  exprs_nodup h := h
  constraints_nodup h := h

theorem trans (h : c.Extends d) (h' : d.Extends e) : c.Extends e where
  exprs := by
    obtain ⟨t, ht⟩ := h.exprs
    obtain ⟨u, hu⟩ := h'.exprs
    exact ⟨t ++ u, by rw [hu, ht, List.append_assoc]⟩
  constraints := by
    obtain ⟨t, ht, hr⟩ := h.constraints
    obtain ⟨u, hu, hr'⟩ := h'.constraints
    refine ⟨t ++ u, by rw [hu, ht, List.append_assoc], ?_⟩
    rw [hr', hr, Table.items, Table.items, Table.items, List.map_append, List.append_assoc]
  exprs_nodup nodup := h'.exprs_nodup (h.exprs_nodup nodup)
  constraints_nodup nodup := h'.constraints_nodup (h.constraints_nodup nodup)

/-- What was entered stays entered. -/
theorem expr_kept (h : c.Extends d) {i : Id} {o : κ} (held : c.exprs.get? i = some o) :
    d.exprs.get? i = some o := by
  obtain ⟨t, ht⟩ := h.exprs
  rw [ht]
  exact Table.get?_append_of_some held t

theorem constraint_kept (h : c.Extends d) {i : Id} {r : ρ}
    (held : c.constraints.get? i = some r) : d.constraints.get? i = some r := by
  obtain ⟨t, ht, -⟩ := h.constraints
  rw [ht]
  exact Table.get?_append_of_some held t

end Cache.Extends

/-- What became of a pass: its cache was extended and identities were taken. -/
structure Pass.Grows (p q : Pass κ ρ) : Prop extends Cache.Extends p.cache q.cache where
  next : p.ledger.nextId ≤ q.ledger.nextId

namespace Pass.Grows

theorem refl (p : Pass κ ρ) : p.Grows p :=
  ⟨.refl p.cache, Int.le_refl _⟩

theorem trans {p q s : Pass κ ρ} (h : p.Grows q) (h' : q.Grows s) : p.Grows s :=
  ⟨h.toExtends.trans h'.toExtends, h.next.trans h'.next⟩

theorem spend (p : Pass κ ρ) {l : Ledger} (le : p.ledger.nextId ≤ l.nextId) :
    p.Grows (p.spend l) :=
  { refl p with next := le }

theorem note (p : Pass κ ρ) (doubts : List Doubt) : p.Grows (p.note doubts) :=
  spend p (Int.le_refl _)

theorem enterExpr {p : Pass κ ρ} {id : Id} (new : p.cache.exprs.get? id = none) (o : κ) :
    p.Grows (p.enterExpr id o) :=
  { refl p with
    exprs := ⟨[(id, o)], rfl⟩
    exprs_nodup := fun h => by
      refine (Table.ids_push ..).symm ▸ List.nodup_append.mpr ⟨h, List.nodup_singleton _, ?_⟩
      rintro i hi j hj rfl
      exact Table.get?_eq_none_iff.mp new (List.mem_singleton.mp hj ▸ hi) }

theorem enterConstraint {p : Pass κ ρ} {id : Id} (new : p.cache.constraints.get? id = none)
    (r : ρ) : p.Grows (p.enterConstraint id r) :=
  { refl p with
    constraints := ⟨[(id, r)], rfl, rfl⟩
    constraints_nodup := fun h => by
      refine (Table.ids_push ..).symm ▸ List.nodup_append.mpr ⟨h, List.nodup_singleton _, ?_⟩
      rintro i hi j hj rfl
      exact Table.get?_eq_none_iff.mp new (List.mem_singleton.mp hj ▸ hi) }

end Pass.Grows

/-- Making the constraint of a sign takes identities. -/
theorem nextId_lt_of_signConstraint [Scalar α] {vars : Vars α} {x : Variable} {l l' : Ledger}
    {c : Constraint α} (h : signConstraint vars (.var x) l = .ok c l') :
    l.nextId < l'.nextId := by
  obtain ⟨-, -, k, -, lo, hi⟩ := signConstraint_ok h
  exact lo.trans hi

/-- Every run leaves what it found and adds to it. -/
theorem Run.grows [Scalar α] [Compiled α κ ρ] {vars : Vars α} {job : Job α κ ρ}
    {p q : Pass κ ρ} (h : Run vars job p q) : p.Grows q := by
  induction h with
  | known | lowered | unsigned | nil => exact .refl _
  | constant doubts new _ _ =>
      exact (Pass.Grows.note _ doubts).trans (.enterExpr (p := Pass.note _ doubts) new _)
  | stub new => exact .enterExpr new _
  | free new _ _ _ sign attached =>
      exact (Pass.Grows.enterExpr new _).trans (sign.trans attached)
  | product doubts _ _ _ _ still_new _ _ _ below =>
      exact (Pass.Grows.note _ doubts).trans (below.trans (.enterExpr still_new _))
  | productMet doubts _ _ _ _ _ below => exact (Pass.Grows.note _ doubts).trans below
  | lower _ _ _ _ _ still_new lhs rhs =>
      exact lhs.trans (rhs.trans (.enterConstraint still_new _))
  | lowerMet _ _ _ _ lhs rhs => exact lhs.trans rhs
  | signed _ made _ lowered =>
      exact (Pass.Grows.spend _ (nextId_lt_of_signConstraint made).le).trans lowered
  | constraint _ _ first rest | expr _ _ first rest => exact first.trans rest

end ConicModel
