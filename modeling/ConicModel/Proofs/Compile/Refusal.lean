/-
# Refused walks

What a walk does when it is refused, told without its depth.  `Refused vars task p f q` is a
derivation that the task was begun in the pass `p` and given up in the pass `q` for the
fault `f`.  It is a path: there is one rule for each place in the text of a walk where it
can be refused, and one for each call from which a refusal comes back.  What was done
before on the same level is a run.

Two cases drop out when `WalksRefused.all` goes through the text.  There is no rule for an
entry that is there already: a walk looks up whatever it is about to enter, and looks again
when it has been elsewhere, so `Cache.putExpr` and `Cache.putConstraint` are only asked for
new entries.  And there is none for a sign whose constraint cannot be made, as it always can
be (`signConstraint_total`).
-/
import ConicModel.Proofs.Compile.Calls
import ConicModel.Proofs.Compile.Depth
import ConicModel.Proofs.Compile.Maintained

namespace ConicModel

/-- Something to be done in a pass. -/
inductive Task (α : Type) where
  | expr (e : Expr α)
  | constraint (c : Constraint α)
  | sign (x : Variable)
  | attached (items : List (Attached α))

/-- To compile a node. -/
def Node.task {α : Type} : Node α → Task α
  | expr e => .expr e
  | constraint c => .constraint c

variable {α : Type} [Scalar α] {κ ρ : Type} [Compiled α κ ρ]

/-- A task was given up for a fault. -/
inductive Refused (vars : Vars α) : Task α → Pass κ ρ → Fault α → Pass κ ρ → Prop where
  | unvalued {e : Expr α} {u : Unvalued} {p : Pass κ ρ} (doubts : List Doubt)
      (new : p.cache.exprs.get? e.id = none) (constant : e.curvature vars = .constant)
      (value : e.evaluate vars = .error u) :
      Refused vars (.expr e) p (.unvalued u) (p.note doubts)
  | sign {x : Variable} {f : Fault α} {p q : Pass κ ρ} (new : p.cache.exprs.get? x.id = none)
      (free : (vars.state x).fixed = false)
      (sign : Refused vars (.sign x) (p.enterExpr x.id
        (Compiled.ofObjective (.ofVariable x (vars.state x).sign))) f q) :
      Refused vars (.expr (.var x)) p f q
  | brought {x : Variable} {f : Fault α} {p q q' : Pass κ ρ}
      (new : p.cache.exprs.get? x.id = none) (free : (vars.state x).fixed = false)
      (sign : Run vars (.sign x) (p.enterExpr x.id
        (Compiled.ofObjective (.ofVariable x (vars.state x).sign))) q)
      (attached : Refused vars (.attached (vars.state x).attached) q f q') :
      Refused vars (.expr (.var x)) p f q'
  | left {id : Id} {a b : Expr α} {p : Pass κ ρ} (doubts : List Doubt)
      (new : p.cache.exprs.get? id = none) (left : a.curvature vars ≠ .constant) :
      Refused vars (.expr (.kron id a b)) p .kronLeft (p.note doubts)
  | operand {id : Id} {a b : Expr α} {f : Fault α} {p q : Pass κ ρ} (doubts : List Doubt)
      (new : p.cache.exprs.get? id = none) (left : a.curvature vars = .constant)
      (right : b.curvature vars ≠ .constant)
      (operand : Refused vars (.expr b) (p.note doubts) f q) :
      Refused vars (.expr (.kron id a b)) p f q
  | product {id : Id} {a b : Expr α} {child : κ} {f : Fault α} {p q : Pass κ ρ}
      (doubts : List Doubt) (new : p.cache.exprs.get? id = none)
      (left : a.curvature vars = .constant) (right : b.curvature vars ≠ .constant)
      (below : Run vars (.expr b child) (p.note doubts) q)
      (still_new : q.cache.exprs.get? id = none)
      (product : Expr.product vars a b child = .error f) :
      Refused vars (.expr (.kron id a b)) p f q
  | lhs {c : Constraint α} {f : Fault α} {p q : Pass κ ρ}
      (new : p.cache.constraints.get? c.id = none) (lhs : Refused vars (.expr c.lhs) p f q) :
      Refused vars (.constraint c) p f q
  | rhs {c : Constraint α} {l : κ} {f : Fault α} {p q q' : Pass κ ρ}
      (new : p.cache.constraints.get? c.id = none) (lhs : Run vars (.expr c.lhs l) p q)
      (rhs : Refused vars (.expr c.rhs) q f q') : Refused vars (.constraint c) p f q'
  | between {c : Constraint α} {l r : κ} {f : Fault α} {p q q' : Pass κ ρ}
      (new : p.cache.constraints.get? c.id = none) (lhs : Run vars (.expr c.lhs l) p q)
      (rhs : Run vars (.expr c.rhs r) q q') (between : c.between vars l r = .error f) :
      Refused vars (.constraint c) p f q'
  | signed {x : Variable} {c : Constraint α} {f : Fault α} {l : Ledger} {p q : Pass κ ρ}
      (yes : (vars.state x).sign.isOneSided = true)
      (made : signConstraint vars (.var x) p.ledger = .ok c l)
      (lowered : Refused vars (.constraint c) (p.spend l) f q) : Refused vars (.sign x) p f q
  | foreign {d : Input α} {items : List (Attached α)} {p : Pass κ ρ} :
      Refused vars (.attached (.foreign d :: items)) p (.mishap .feature) p
  | item {n : Node α} {items : List (Attached α)} {f : Fault α} {p q : Pass κ ρ}
      (item : Refused vars n.task p f q) : Refused vars (.attached (.node n :: items)) p f q
  | later {n : Node α} {items : List (Attached α)} {f : Fault α} {p q q' : Pass κ ρ}
      (first : Run (κ := κ) vars (.attached [.node n]) p q)
      (rest : Refused vars (.attached items) q f q') :
      Refused vars (.attached (.node n :: items)) p f q'

/-! ## The small parts of a walk -/

theorem Sign.eq_of_isOneSided {s : Sign} (h : s.isOneSided = true) :
    s = .positive ∨ s = .negative := by
  cases s with
  | positive => exact .inl rfl
  | negative => exact .inr rfl
  | noSign | complex => cases h

namespace Walk

variable {β : Type} {h : Halt α} {p q : Pass κ ρ}

omit [Scalar α] [Compiled α κ ρ]

theorem refuse_error {f : Fault α} :
    (refuse f : Walk α κ ρ β) p = .error h q ↔ .fault f = h ∧ p = q :=
  Outcome.throw_error

/-- The constraint of a sign is never refused. -/
theorem make_sign_error [Scalar α] {vars : Vars α} {x : Variable}
    (yes : (vars.state x).sign.isOneSided = true) :
    (make (signConstraint vars (.var x)) : Walk α κ ρ (Constraint α)) p = .error h q ↔ False := by
  obtain ⟨c, l, made⟩ := signConstraint_total (Sign.eq_of_isOneSided yes) p.ledger
  have done : (make (signConstraint vars (.var x)) : Walk α κ ρ (Constraint α)) p
      = .ok c (p.spend l) := make_ok.mpr ⟨l, made, rfl⟩
  exact ⟨fun h => (by cases done.symm.trans h), False.elim⟩

/-- Verdicts are never refused. -/
theorem trust_error {v : Verdict} :
    (make (Make.trust v) : Walk α κ ρ Curvature) p = .error h q ↔ False :=
  ⟨fun h => (by cases h), False.elim⟩

theorem ofExcept_error {ε : Type} {why : ε → Fault α} {r : Except ε β}
    (hr : (ofExcept why r : Walk α κ ρ β) p = .error h q) :
    ∃ e, r = .error e ∧ h = .fault (why e) ∧ q = p := by
  cases r with
  | ok x => cases hr
  | error e =>
      cases hr
      exact ⟨e, rfl, rfl, rfl⟩

/-- What is new can be entered. -/
theorem enterExpr_error {id : Id} {o : κ} (new : p.cache.exprs.get? id = none) :
    (enterExpr id o : Walk α κ ρ κ) p = .error h q ↔ False := by
  have unheld : p.cache.exprs.has id = false :=
    Table.has_eq_false_iff.mpr (Table.get?_eq_none_iff.mp new)
  have entered := (enterExpr_ok (α := α) (o := o)).mpr ⟨unheld, rfl, rfl⟩
  exact ⟨fun h => (by cases entered.symm.trans h), False.elim⟩

theorem enterConstraint_error {id : Id} {r : ρ} (new : p.cache.constraints.get? id = none) :
    (enterConstraint id r : Walk α κ ρ ρ) p = .error h q ↔ False := by
  have unheld : p.cache.constraints.has id = false :=
    Table.has_eq_false_iff.mpr (Table.get?_eq_none_iff.mp new)
  have entered := (enterConstraint_ok (α := α) (r := r)).mpr ⟨unheld, rfl, rfl⟩
  exact ⟨fun h => (by cases entered.symm.trans h), False.elim⟩

end Walk

/-! ## Walks that are refused -/

section Walks

variable {vars : Vars α}

theorem refused_of_walkConstant {e : Expr α} {f : Fault α} {p q : Pass κ ρ}
    (doubts : List Doubt) (new : p.cache.exprs.get? e.id = none)
    (constant : e.curvature vars = .constant)
    (h : (walkConstant vars e : Walk α κ ρ κ) (p.note doubts) = .error (.fault f) q) :
    Refused vars (.expr e) p f q := by
  rcases Outcome.bind_error.mp h with here | ⟨v, p₁, hv, rest⟩
  · obtain ⟨u, value, hf, rfl⟩ := Walk.ofExcept_error here
    cases hf
    exact .unvalued doubts new constant value
  · obtain ⟨-, rfl⟩ := Walk.ofExcept_ok.mp hv
    exact ((Walk.enterExpr_error (p := p.note doubts) new).mp rest).elim

/-- Entering a product is refused for what `Expr.product` is refused for. -/
theorem enterProduct_error {id : Id} {a b : Expr α} {child : κ} {f : Fault α} {p q : Pass κ ρ}
    (new : p.cache.exprs.get? id = none)
    (h : enterProduct vars id a b child p = .error (.fault f) q) :
    Expr.product vars a b child = .error f ∧ q = p := by
  rcases Outcome.bind_error.mp h with here | ⟨times, p₁, htimes, rest₁⟩
  · obtain ⟨g, hg, hf, rfl⟩ := Walk.ofExcept_error here
    cases hf
    exact ⟨Outcome.except_bind_error.mpr (.inl hg), rfl⟩
  obtain ⟨hasProducts, rfl⟩ := Walk.ofExcept_ok.mp htimes
  refine (?_ : _ ∧ _).imp_left fun h => Outcome.except_bind_error.mpr (.inr ⟨times, hasProducts, h⟩)
  rcases Outcome.bind_error.mp rest₁ with here | ⟨v, p₂, hv, rest₂⟩
  · obtain ⟨u, value, hf, rfl⟩ := Walk.ofExcept_error here
    cases hf
    have unvalued : (a.evaluate vars).mapError (Fault.unvalued (α := α)) = .error (.unvalued u) :=
      Outcome.mapError_error.mpr ⟨u, value, rfl⟩
    exact ⟨Outcome.except_bind_error.mpr (.inl unvalued), rfl⟩
  obtain ⟨value, rfl⟩ := Walk.ofExcept_ok.mp hv
  rcases Outcome.bind_error.mp rest₂ with here | ⟨o, p₃, ho, rest₃⟩
  · obtain ⟨g, hg, hf, rfl⟩ := Walk.ofExcept_error here
    cases hf
    have valued : (a.evaluate vars).mapError (Fault.unvalued (α := α)) = .ok v :=
      Outcome.mapError_ok.mpr value
    exact ⟨Outcome.except_bind_error.mpr (.inr ⟨v, valued, hg⟩), rfl⟩
  obtain ⟨-, rfl⟩ := Walk.ofExcept_ok.mp ho
  exact ((Walk.enterExpr_error new).mp rest₃).elim

/-- The walks within one depth that are refused. -/
structure WalksRefused (κ : Type) {ρ : Type} [Compiled α κ ρ] (vars : Vars α) (n : Nat) :
    Prop where
  expr : ∀ {e : Expr α} {f : Fault α} {p q : Pass κ ρ},
    walkExpr vars n e p = .error (.fault f) q → Refused vars (.expr e) p f q
  constraint : ∀ {c : Constraint α} {f : Fault α} {p q : Pass κ ρ},
    walkConstraint vars n c p = .error (.fault f) q → Refused vars (.constraint c) p f q
  attached : ∀ {items : List (Attached α)} {f : Fault α} {p q : Pass κ ρ},
    (items.forM fun item => walkAttached vars n item) p = .error (.fault f) q →
      Refused vars (.attached items) p f q

/-- Where no walk goes, no walk finds a fault. -/
theorem WalksRefused.zero : WalksRefused κ vars 0 where
  expr h := by
    rw [walkExpr.eq_def] at h
    cases (Outcome.throw_error.mp h).1
  constraint h := by
    rw [walkConstraint.eq_def] at h
    cases (Outcome.throw_error.mp h).1
  attached {items f p q} h := by
    cases items with
    | nil => exact (Outcome.pure_error.mp h).elim
    | cons item items =>
        rcases Outcome.bind_error.mp h with h | ⟨⟨⟩, p₁, hitem, -⟩
        · have h : walkAttached vars 0 item p = .error (.fault f) q := h
          rw [walkAttached.eq_def] at h
          cases (Outcome.throw_error.mp h).1
        · have hitem : walkAttached vars 0 item p = .ok () p₁ := hitem
          rw [walkAttached.eq_def] at hitem
          exact (Outcome.throw_ok.mp hitem).elim

namespace WalksRefused

variable {n : Nat} {f : Fault α} {p q : Pass κ ρ}

theorem sign (h : WalksRefused κ vars n) {x : Variable}
    (hw : walkSign vars n x p = .error (.fault f) q) : Refused vars (.sign x) p f q := by
  unfold walkSign at hw
  split at hw
  · rename_i yes
    rcases Outcome.bind_error.mp hw with here | ⟨c, p₁, hc, rest₁⟩
    · exact ((Walk.make_sign_error yes).mp here).elim
    obtain ⟨l, made, rfl⟩ := Walk.make_ok.mp hc
    rcases Outcome.bind_error.mp rest₁ with here | ⟨r, p₂, hr, rest₂⟩
    · exact .signed yes made (h.constraint here)
    · exact (Outcome.pure_error.mp rest₂).elim
  · exact (Outcome.pure_error.mp hw).elim

theorem free (h : WalksRefused κ vars n) {x : Variable}
    (new : p.cache.exprs.get? x.id = none) (free : (vars.state x).fixed = false)
    (hw : walkFree vars n x p = .error (.fault f) q) : Refused vars (.expr (.var x)) p f q := by
  rcases Outcome.bind_error.mp hw with here | ⟨o, p₁, entered, rest₁⟩
  · exact ((Walk.enterExpr_error new).mp here).elim
  obtain ⟨-, rfl, rfl⟩ := Walk.enterExpr_ok.mp entered
  rcases Outcome.bind_error.mp rest₁ with here | ⟨⟨⟩, p₂, sign, rest₂⟩
  · exact .sign new free (h.sign here)
  rcases Outcome.bind_error.mp rest₂ with here | ⟨⟨⟩, p₃, attached, rest₃⟩
  · exact .brought new free (run_of_walkSign sign) (h.attached here)
  · exact (Outcome.pure_error.mp rest₃).elim

theorem product (h : WalksRefused κ vars n) {id : Id} {a b : Expr α} {doubts : List Doubt}
    (new : p.cache.exprs.get? id = none) (left : a.curvature vars = .constant)
    (right : b.curvature vars ≠ .constant)
    (hw : walkProduct vars n id a b (p.note doubts) = .error (.fault f) q) :
    Refused vars (.expr (.kron id a b)) p f q := by
  rcases Outcome.bind_error.mp hw with here | ⟨child, p₁, hchild, rest⟩
  · exact .operand doubts new left right (h.expr here)
  cases met : p₁.cache.exprs.get? id with
  | some o =>
      rw [Walk.unlessHeld_of_some met] at rest
      cases rest
  | none =>
      rw [Walk.unlessHeld_of_none met] at rest
      obtain ⟨product, rfl⟩ := enterProduct_error met rest
      exact .product doubts new left right (run_of_walkExpr hchild) met product

theorem sides (h : WalksRefused κ vars n) {c : Constraint α}
    (new : p.cache.constraints.get? c.id = none)
    (hw : walkSides vars n c p = .error (.fault f) q) : Refused vars (.constraint c) p f q := by
  rcases Outcome.bind_error.mp hw with here | ⟨l, p₁, hl, rest₁⟩
  · exact .lhs new (h.expr here)
  rcases Outcome.bind_error.mp rest₁ with here | ⟨r, p₂, hr, rest₂⟩
  · exact .rhs new (run_of_walkExpr hl) (h.expr here)
  have refused {g : Fault α} (hg : c.between vars l r = .error g) :
      Refused vars (.constraint c) p g p₂ :=
    .between new (run_of_walkExpr hl) (run_of_walkExpr hr) hg
  rcases Outcome.bind_error.mp rest₂ with here | ⟨d, p₃, hd, rest₃⟩
  · obtain ⟨g, hg, hf, rfl⟩ := Walk.ofExcept_error here
    cases hf
    exact refused (Outcome.except_bind_error.mpr (.inl hg))
  obtain ⟨difference, rfl⟩ := Walk.ofExcept_ok.mp hd
  rcases Outcome.bind_error.mp rest₃ with here | ⟨s, p₄, hs, rest₄⟩
  · obtain ⟨g, hg, hf, rfl⟩ := Walk.ofExcept_error here
    cases hf
    exact refused (Outcome.except_bind_error.mpr (.inr ⟨d, difference, hg⟩))
  obtain ⟨-, rfl⟩ := Walk.ofExcept_ok.mp hs
  -- What was lowered is new, or is not entered at all.
  cases met : p₄.cache.constraints.get? c.id with
  | some s' =>
      rw [Walk.unlessLowered_of_some met] at rest₄
      cases rest₄
  | none =>
      rw [Walk.unlessLowered_of_none met] at rest₄
      exact ((Walk.enterConstraint_error met).mp rest₄).elim

/-- An expression that was not entered, case by case. -/
theorem new (h : WalksRefused κ vars n) {e : Expr α} (new : p.cache.exprs.get? e.id = none)
    (hw : walkNew vars n e p = .error (.fault f) q) : Refused vars (.expr e) p f q := by
  cases e with
  | const c => exact refused_of_walkConstant [] new rfl (by rwa [Pass.note_nil])
  | stub s => exact ((Walk.enterExpr_error new).mp hw).elim
  | var x =>
      rw [walkNew] at hw
      cases fixed : (vars.state x).fixed with
      | true =>
          rw [if_pos fixed] at hw
          exact refused_of_walkConstant [] new (curvature_var_eq_constant_iff.mpr fixed)
            (by rwa [Pass.note_nil])
      | false =>
          rw [if_neg (by simp [fixed])] at hw
          exact h.free new fixed hw
  | kron id a b =>
      rcases Outcome.bind_error.mp hw with here | ⟨va, p₁, ha, rest₁⟩
      · exact (Walk.trust_error.mp here).elim
      obtain ⟨rfl, rfl⟩ := Walk.trust_ok.mp ha
      split at rest₁
      · rename_i left
        obtain ⟨hf, rfl⟩ := Walk.refuse_error.mp rest₁
        cases hf
        exact .left _ new left
      rename_i left
      have left : a.curvature vars = .constant := not_not.mp left
      rcases Outcome.bind_error.mp rest₁ with here | ⟨vb, p₂, hb, rest₂⟩
      · exact (Walk.trust_error.mp here).elim
      obtain ⟨rfl, rfl⟩ := Walk.trust_ok.mp hb
      rw [Pass.note_note] at rest₂
      split at rest₂
      · rename_i right
        exact refused_of_walkConstant _ new (curvature_kron_eq_constant_iff.mpr ⟨left, right⟩)
          rest₂
      · rename_i right
        exact h.product new left right rest₂

/-- An attached item, from one level up. -/
theorem item (h : WalksRefused κ vars n) {item : Attached α}
    (hw : walkAttached vars (n + 1) item p = .error (.fault f) q) (items : List (Attached α)) :
    Refused vars (.attached (item :: items)) p f q := by
  rw [walkAttached.eq_def] at hw
  cases item with
  | foreign d =>
      obtain ⟨hf, rfl⟩ := Walk.refuse_error.mp hw
      cases hf
      exact .foreign
  | node m =>
      refine .item ?_
      cases m with
      | constraint c =>
          rcases Outcome.bind_error.mp hw with here | ⟨r, p₁, hr, rest⟩
          · exact h.constraint here
          · exact (Outcome.pure_error.mp rest).elim
      | expr e =>
          rcases Outcome.bind_error.mp hw with here | ⟨o, p₁, ho, rest⟩
          · exact h.expr here
          · exact (Outcome.pure_error.mp rest).elim

/-- One item after the other. -/
theorem items (h : WalksRefused κ vars n) {items : List (Attached α)}
    (hw : (items.forM fun item => walkAttached vars (n + 1) item) p = .error (.fault f) q) :
    Refused vars (.attached items) p f q := by
  induction items generalizing p with
  | nil => exact (Outcome.pure_error.mp hw).elim
  | cons item items ih =>
      rcases Outcome.bind_error.mp hw with here | ⟨⟨⟩, p₁, first, rest⟩
      · exact h.item here items
      have first : walkAttached vars (n + 1) item p = .ok () p₁ := first
      cases item with
      | foreign d =>
          rw [walkAttached.eq_def] at first
          exact (Walk.refuse_ok.mp first).elim
      | node m => exact .later (run_of_walkAttached first) (ih rest)

theorem succ (h : WalksRefused κ vars n) : WalksRefused κ vars (n + 1) where
  expr {e f p q} hw := by
    rw [walkExpr_succ] at hw
    cases held : p.cache.exprs.get? e.id with
    | some o =>
        rw [Walk.unlessHeld_of_some held] at hw
        cases hw
    | none =>
        rw [Walk.unlessHeld_of_none held] at hw
        exact h.new held hw
  constraint {c f p q} hw := by
    rw [walkConstraint_succ] at hw
    cases held : p.cache.constraints.get? c.id with
    | some r =>
        rw [Walk.unlessLowered_of_some held] at hw
        cases hw
    | none =>
        rw [Walk.unlessLowered_of_none held] at hw
        exact h.sides held hw
  attached hw := h.items hw

theorem all (κ : Type) {ρ : Type} [Compiled α κ ρ] (vars : Vars α) (n : Nat) :
    WalksRefused κ vars n := by
  induction n with
  | zero => exact .zero
  | succ n ih => exact ih.succ

end WalksRefused

/-! ## Compilations that are refused -/

omit [Scalar α] [Compiled α κ ρ] in
/-- A walk that has depth enough is refused for a fault. -/
theorem Walk.run_error {β : Type} {w : Walk α κ ρ β} {f : Fault α} {p q : Pass κ ρ}
    (ends : w.Ends p) (h : w.run p = .error f q) : w p = .error (.fault f) q := by
  unfold run at h
  split at h
  · cases h
  · rename_i hw
    cases h
    exact hw
  · rename_i hw
    exact (ends _ hw).elim

theorem refused_of_compileExpr {e : Expr α} {f : Fault α} {p q : Pass κ ρ}
    (h : compileExpr vars e p = .error f q) : Refused vars (.expr e) p f q :=
  (WalksRefused.all κ vars _).expr
    (Walk.run_error ((EndsWithin.all κ vars _).expr e p (p.need_le_depthBound vars _)) h)

theorem refused_of_compileConstraint {c : Constraint α} {f : Fault α} {p q : Pass κ ρ}
    (h : compileConstraint vars c p = .error f q) : Refused vars (.constraint c) p f q :=
  (WalksRefused.all κ vars _).constraint
    (Walk.run_error ((EndsWithin.all κ vars _).constraint c p (p.need_le_depthBound vars _)) h)

theorem refused_of_compileNode {n : Node α} {f : Fault α} {p q : Pass κ ρ}
    (h : compileNode vars n p = .error f q) : Refused vars n.task p f q := by
  cases n with
  | expr e => exact refused_of_compileExpr (Outcome.map_error.mp h)
  | constraint c => exact refused_of_compileConstraint (Outcome.map_error.mp h)

/-- Of several calls the first that is refused ends them. -/
theorem refused_of_compileNodes {roots : List (Node α)} {f : Fault α} {p q : Pass κ ρ}
    (h : compileNodes vars roots p = .error f q) :
    Refused vars (.attached (roots.map .node)) p f q := by
  induction roots generalizing p with
  | nil => exact (Outcome.pure_error.mp h).elim
  | cons n roots ih =>
      rw [compileNodes, List.mapM_cons] at h
      rcases Outcome.bind_error.mp h with here | ⟨x, p₁, hx, rest₁⟩
      · exact .item (refused_of_compileNode here)
      rcases Outcome.bind_error.mp rest₁ with here | ⟨xs, p₂, hxs, rest₂⟩
      · exact .later (Run.cons_of_compileNode hx .nil).1 (ih here)
      · exact (Outcome.pure_error.mp rest₂).elim

end Walks

/-! ## What a refusal leaves -/

/-- A walk that is refused leaves what it found and has only added to it. -/
theorem Refused.grows {vars : Vars α} {task : Task α} {f : Fault α} {p q : Pass κ ρ}
    (h : Refused vars task p f q) : p.Grows q := by
  induction h with
  | unvalued doubts | left doubts => exact .note _ doubts
  | foreign => exact .refl _
  | sign new _ _ ih => exact (Pass.Grows.enterExpr new _).trans ih
  | brought new _ sign _ ih => exact (Pass.Grows.enterExpr new _).trans (sign.grows.trans ih)
  | operand doubts _ _ _ _ ih => exact (Pass.Grows.note _ doubts).trans ih
  | product doubts _ _ _ below => exact (Pass.Grows.note _ doubts).trans below.grows
  | lhs _ _ ih => exact ih
  | rhs _ lhs _ ih => exact lhs.grows.trans ih
  | between _ lhs rhs => exact lhs.grows.trans rhs.grows
  | signed _ made _ ih =>
      exact (Pass.Grows.spend _ (nextId_lt_of_signConstraint made).le).trans ih
  | item _ ih => exact ih
  | later first _ ih => exact first.grows.trans ih

end ConicModel
