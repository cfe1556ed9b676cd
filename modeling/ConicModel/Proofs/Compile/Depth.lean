/-
# Compilation ends

A model may be cyclic: from a constraint a walk comes to a variable, and from the variable
back to the constraint.  What makes an end of it is that a free variable is entered before
anything attached to it is walked.  Along a nested call either an expression gets smaller
or a variable has been met for the first time, and both together are counted by

    `depth + p.unmet vars * (vars.depth + 1)`,

where `p.unmet vars` is how many variables have not been entered in the pass `p`.

  * `EndsWithin`: a walk within that depth does not run out of it.  In the middle of a walk
    the number is taken of the pass that earlier calls left behind, which have only entered
    more (`Run.grows`).
  * `Walk.Extends`: a walk that did not run out of its depth is the same walk within any
    larger one.

The two are put together at the end, for whatever is compiled and whatever the cache holds
already.
-/
import ConicModel.Proofs.Compile.Run

namespace ConicModel

variable {α κ ρ β γ : Type}

/-! ## Walks that do not run out of depth -/

/-- From the pass `p` the walk does not run out of its depth. -/
def Walk.Ends (w : Walk α κ ρ β) (p : Pass κ ρ) : Prop := ∀ q, w p ≠ .error .depth q

namespace Walk.Ends

variable {p : Pass κ ρ}

theorem pure (x : β) : Walk.Ends (Pure.pure x : Walk α κ ρ β) p :=
  fun q h => by cases h

theorem refuse (f : Fault α) : Walk.Ends (Walk.refuse f : Walk α κ ρ β) p :=
  fun q h => by cases h

theorem make (m : Make α β) : Walk.Ends (Walk.make m : Walk α κ ρ β) p := by
  intro q h
  unfold Walk.make at h
  split at h <;> cases h

theorem ofExcept {ε : Type} (why : ε → Fault α) (r : Except ε β) :
    Walk.Ends (Walk.ofExcept why r : Walk α κ ρ β) p := by
  cases r with
  | ok x => exact pure x
  | error e => exact refuse (why e)

theorem enterExpr (id : Id) (o : κ) :
    Walk.Ends (Walk.enterExpr id o : Walk α κ ρ κ) p := by
  intro q h
  unfold Walk.enterExpr at h
  split at h <;> cases h

theorem enterConstraint (id : Id) (r : ρ) :
    Walk.Ends (Walk.enterConstraint id r : Walk α κ ρ ρ) p := by
  intro q h
  unfold Walk.enterConstraint at h
  split at h <;> cases h

/-- The second part of a walk starts from what the first has left. -/
theorem bind {w : Walk α κ ρ β} {f : β → Walk α κ ρ γ} (hw : w.Ends p)
    (hf : ∀ x q, w p = .ok x q → (f x).Ends q) : (w >>= f).Ends p := by
  intro q h
  cases hp : w p with
  | ok x p' =>
      have rest : (w >>= f) p = f x p' := by simp [Bind.bind, EStateM.bind, hp]
      exact hf x p' hp q (rest ▸ h)
  | error e p' =>
      have stopped : (w >>= f) p = .error e p' := by simp [Bind.bind, EStateM.bind, hp]
      rw [stopped] at h
      cases h
      exact hw q hp

theorem unlessHeld {id : Id} {w : Walk α κ ρ κ}
    (hw : p.cache.exprs.get? id = none → w.Ends p) : (Walk.unlessHeld id w).Ends p := by
  intro q h
  cases held : p.cache.exprs.get? id with
  | some o =>
      rw [Walk.unlessHeld_of_some held] at h
      cases h
  | none =>
      rw [Walk.unlessHeld_of_none held] at h
      exact hw held q h

theorem unlessLowered {id : Id} {w : Walk α κ ρ ρ}
    (hw : p.cache.constraints.get? id = none → w.Ends p) :
    (Walk.unlessLowered id w).Ends p := by
  intro q h
  cases held : p.cache.constraints.get? id with
  | some r =>
      rw [Walk.unlessLowered_of_some held] at h
      cases h
  | none =>
      rw [Walk.unlessLowered_of_none held] at h
      exact hw held q h

/-- A list is gone through to its end if from every larger pass each item is. -/
theorem forM {items : List β} {f : β → Walk α κ ρ PUnit}
    (grows : ∀ x ∈ items, ∀ p q, f x p = .ok () q → p.Grows q)
    (ends : ∀ x ∈ items, ∀ q, p.Grows q → (f x).Ends q) : (items.forM f).Ends p := by
  induction items generalizing p with
  | nil => exact pure ()
  | cons x items ih =>
      refine bind (ends x List.mem_cons_self p (.refl p)) fun _ q hx => ?_
      have first : p.Grows q := grows x List.mem_cons_self p q hx
      exact ih (fun y hy => grows y (List.mem_cons_of_mem x hy))
        fun y hy s hs => ends y (List.mem_cons_of_mem x hy) s (first.trans hs)

end Walk.Ends

/-! ## The measure -/

/-- How many variables have not been entered. -/
def Pass.unmet (vars : Vars α) (p : Pass κ ρ) : Nat :=
  vars.ids.countP fun i => !p.cache.exprs.has i

theorem Pass.Grows.has {p q : Pass κ ρ} (h : p.Grows q) {i : Id}
    (held : p.cache.exprs.has i = true) : q.cache.exprs.has i = true := by
  obtain ⟨o, ho⟩ := Table.exists_get? (Table.has_iff.mp held)
  exact Table.has_iff.mpr (Table.mem_ids_of_get? (h.expr_kept ho))

theorem Pass.Grows.countP_le {p q : Pass κ ρ} (h : p.Grows q) (ids : List Id) :
    (ids.countP fun i => !q.cache.exprs.has i) ≤ ids.countP fun i => !p.cache.exprs.has i := by
  refine List.countP_mono_left fun i _ hq => ?_
  rw [Bool.not_eq_true'] at hq ⊢
  by_contra held
  rw [h.has (Bool.eq_true_of_not_eq_false held)] at hq
  cases hq

theorem Pass.Grows.unmet_le {p q : Pass κ ρ} (h : p.Grows q) (vars : Vars α) :
    q.unmet vars ≤ p.unmet vars :=
  h.countP_le vars.ids

theorem Pass.unmet_le_length (vars : Vars α) (p : Pass κ ρ) : p.unmet vars ≤ vars.length :=
  List.countP_le_length.trans_eq (List.length_map _)

/-- A variable that was not entered before is met by entering it. -/
theorem Pass.unmet_enterExpr_lt {vars : Vars α} {p : Pass κ ρ} {i : Id} (known : i ∈ vars.ids)
    (new : p.cache.exprs.get? i = none) (o : κ) :
    (p.enterExpr i o).unmet vars < p.unmet vars := by
  have unheld : p.cache.exprs.has i = false :=
    Table.has_eq_false_iff.mpr (Table.get?_eq_none_iff.mp new)
  have held : (p.enterExpr i o).cache.exprs.has i = true :=
    Table.has_iff.mpr (Table.mem_ids_of_get? (Table.get?_push_self new o))
  obtain ⟨before, after, split⟩ := List.append_of_mem known
  -- The count loses the identity itself and gains none on either side of it.
  have le_before := (Pass.Grows.enterExpr new o).countP_le before
  have le_after := (Pass.Grows.enterExpr new o).countP_le after
  simp only [unmet, split, List.countP_append, List.countP_cons, held, unheld, Bool.not_true,
    Bool.not_false, Bool.false_eq_true, if_true, if_false]
  omega

theorem Attached.le_foldl_depth (items : List (Attached α)) (n : Nat) :
    n ≤ items.foldl (fun n item => max n item.depth) n := by
  induction items generalizing n with
  | nil => exact Nat.le_refl n
  | cons item items ih => exact (Nat.le_max_left _ _).trans (ih _)

theorem Attached.depth_le_foldl {items : List (Attached α)} {item : Attached α}
    (h : item ∈ items) (n : Nat) : item.depth ≤ items.foldl (fun n item => max n item.depth) n := by
  induction items generalizing n with
  | nil => cases h
  | cons first items ih =>
      rcases List.mem_cons.mp h with rfl | h
      · exact (Nat.le_max_right n _).trans (le_foldl_depth items _)
      · exact ih h _

theorem Vars.two_le_depth (vars : Vars α) : 2 ≤ vars.depth := Attached.le_foldl_depth _ 2

/-- What is attached to a variable is not deeper than the table says. -/
theorem Vars.depth_le {vars : Vars α} {x : Variable} {item : Attached α}
    (h : item ∈ (vars.state x).attached) : item.depth ≤ vars.depth := by
  refine Attached.depth_le_foldl ?_ 2
  cases hs : vars.get? x.id with
  | none =>
      rw [state, hs] at h
      cases h
  | some s =>
      rw [state, hs] at h
      exact List.mem_flatMap.mpr ⟨(x.id, s), Table.mem_of_get? hs, h⟩

/-- A variable that is not in the table brings nothing. -/
theorem Vars.state_of_unknown {vars : Vars α} {x : Variable} (h : x.id ∉ vars.ids) :
    vars.state x = {} := by
  rw [state, Table.get?_eq_none_iff.mpr h, Option.getD_none]

/-! ## Depth enough -/

section Enough

variable [Scalar α] [Compiled α κ ρ]

/-- What is needed for something of the given depth, from the pass `p` on. -/
def Pass.need (vars : Vars α) (p : Pass κ ρ) (depth : Nat) : Nat :=
  depth + p.unmet vars * (vars.depth + 1)

/-- Walks within a depth `n` that is enough do not run out of it. -/
structure EndsWithin (κ : Type) {ρ : Type} [Compiled α κ ρ] (vars : Vars α) (n : Nat) : Prop where
  expr : ∀ (e : Expr α) (p : Pass κ ρ), p.need vars e.depth ≤ n → (walkExpr vars n e).Ends p
  constraint : ∀ (c : Constraint α) (p : Pass κ ρ), p.need vars c.depth ≤ n →
    (walkConstraint vars n c).Ends p
  attached : ∀ (item : Attached α) (p : Pass κ ρ), p.need vars item.depth ≤ n →
    (walkAttached vars n item).Ends p

omit [Scalar α] [Compiled α κ ρ] in
theorem Pass.Grows.need_le {p q : Pass κ ρ} (h : p.Grows q) (vars : Vars α) {d d' : Nat}
    (le : d ≤ d') : q.need vars d ≤ p.need vars d' :=
  Nat.add_le_add le (Nat.mul_le_mul_right _ (h.unmet_le vars))

omit [Scalar α] [Compiled α κ ρ] in
/-- Entering a variable makes room for what is attached to it. -/
theorem Pass.need_enterExpr_lt {vars : Vars α} {p : Pass κ ρ} {i : Id} (known : i ∈ vars.ids)
    (new : p.cache.exprs.get? i = none) (o : κ) {d : Nat} (le : d ≤ vars.depth) (start : Nat) :
    (p.enterExpr i o).need vars d < p.need vars start := by
  have lt : (p.enterExpr i o).unmet vars + 1 ≤ p.unmet vars := unmet_enterExpr_lt known new o
  calc (p.enterExpr i o).need vars d
      < vars.depth + 1 + (p.enterExpr i o).unmet vars * (vars.depth + 1) :=
        Nat.add_lt_add_right (Nat.lt_succ_of_le le) _
    _ = ((p.enterExpr i o).unmet vars + 1) * (vars.depth + 1) := by
        rw [Nat.add_mul, Nat.one_mul, Nat.add_comm]
    _ ≤ p.unmet vars * (vars.depth + 1) := Nat.mul_le_mul_right _ lt
    _ ≤ p.need vars start := Nat.le_add_left _ _

theorem Walk.Ends.constant (vars : Vars α) (e : Expr α) (p : Pass κ ρ) :
    (walkConstant vars e : Walk α κ ρ κ).Ends p :=
  .bind (.ofExcept _ _) fun _ _ _ => .enterExpr _ _

/-- No depth is never enough. -/
theorem EndsWithin.zero (vars : Vars α) : EndsWithin κ vars 0 where
  expr e p h := by
    have pos : 1 ≤ e.depth := by cases e <;> simp [Expr.depth]
    exact absurd (pos.trans ((Nat.le_add_right _ _).trans h)) (by decide)
  constraint c p h := by
    have pos : 1 ≤ c.depth := Nat.le_add_left 1 _
    exact absurd (pos.trans ((Nat.le_add_right _ _).trans h)) (by decide)
  attached item p h := by
    have pos : 1 ≤ item.depth := by
      cases item with
      | node n => cases n <;> exact Nat.le_add_left 1 _
      | foreign d => exact Nat.le_refl 1
    exact absurd (pos.trans ((Nat.le_add_right _ _).trans h)) (by decide)

namespace EndsWithin

variable {vars : Vars α} {n : Nat}

/-- The constraint of a sign has two levels, an expression on each side. -/
theorem sign (h : EndsWithin κ vars n) {x : Variable} {p : Pass κ ρ}
    (enough : (vars.state x).sign.isOneSided = true → p.need vars 2 ≤ n) :
    (walkSign vars n x : Walk α κ ρ Unit).Ends p := by
  unfold walkSign
  split
  · rename_i yes
    refine .bind (.make _) fun c q hc => .bind (h.constraint c q ?_) fun _ _ _ => .pure ()
    obtain ⟨l, made, rfl⟩ := Walk.make_ok.mp hc
    have grows : p.Grows (p.spend l) := .spend p (nextId_lt_of_signConstraint made).le
    obtain ⟨is_sign, -, -⟩ := signConstraint_ok made
    obtain ⟨k, hk, -⟩ := is_sign.rhs
    have two : c.depth = 2 := by rw [Constraint.depth, is_sign.lhs, hk]; rfl
    exact (grows.need_le vars two.le).trans (enough yes)
  · exact .pure ()

/-- A free variable is entered first, which leaves room for all that it brings. -/
theorem free (h : EndsWithin κ vars n) {x : Variable} {p : Pass κ ρ}
    (new : p.cache.exprs.get? x.id = none) (enough : p.need vars 1 ≤ n + 1) :
    (walkFree vars n x : Walk α κ ρ κ).Ends p := by
  refine .bind (.enterExpr _ _) fun o p₁ entered => ?_
  obtain ⟨-, -, rfl⟩ := Walk.enterExpr_ok.mp entered
  by_cases known : x.id ∈ vars.ids
  · have room (o : κ) {d : Nat} (le : d ≤ vars.depth) :
        (Pass.enterExpr _ x.id o).need vars d ≤ n :=
      Nat.le_of_lt_succ ((Pass.need_enterExpr_lt known new o le 1).trans_le enough)
    refine .bind (h.sign fun _ => room _ vars.two_le_depth) fun _ q signed =>
      .bind (.forM ?_ ?_) fun _ _ _ => .pure _
    · exact fun item _ p q walked => (run_of_walkAttached walked).grows
    · intro item mem s grows
      have grows := (run_of_walkSign signed).grows.trans grows
      exact h.attached item s ((grows.need_le vars (Vars.depth_le mem)).trans
        (room _ (Nat.le_refl _)))
  · rw [Vars.state_of_unknown known]
    refine .bind (h.sign fun yes => ?_) fun _ _ _ => .bind (.pure ()) fun _ _ _ => .pure _
    rw [Vars.state_of_unknown known] at yes
    cases yes

/-- An expression that was not entered. -/
theorem new (h : EndsWithin κ vars n) {e : Expr α} {p : Pass κ ρ}
    (new : p.cache.exprs.get? e.id = none) (enough : p.need vars e.depth ≤ n + 1) :
    (walkNew vars n e : Walk α κ ρ κ).Ends p := by
  cases e with
  | const c => exact .constant vars _ p
  | stub s => exact .enterExpr _ _
  | var x =>
      rw [walkNew]
      split
      · exact .constant vars _ p
      · exact h.free new enough
  | kron id a b =>
      refine .bind (.make _) fun va p₁ ha => ?_
      obtain ⟨-, rfl⟩ := Walk.trust_ok.mp ha
      split
      · exact .refuse _
      · refine .bind (.make _) fun vb p₂ hb => ?_
        obtain ⟨-, rfl⟩ := Walk.trust_ok.mp hb
        split
        · exact .constant vars _ _
        · refine .bind (h.expr b _ ?_) fun child q _ => .unlessHeld fun _ => ?_
          · have grows := (Pass.Grows.note p (a.verdict vars).doubts).trans
              (.note _ (b.verdict vars).doubts)
            have lt : p.need vars b.depth < p.need vars (b.depth + 1) :=
              Nat.add_lt_add_right (Nat.lt_succ_self _) _
            exact (grows.need_le vars (Nat.le_refl _)).trans
              (Nat.le_of_lt_succ (lt.trans_le enough))
          · exact .bind (.ofExcept _ _) fun _ _ _ => .bind (.ofExcept _ _) fun _ _ _ =>
              .bind (.ofExcept _ _) fun _ _ _ => .enterExpr _ _

/-- A constraint one level up.  The right side starts from what the left has left. -/
theorem sides (h : EndsWithin κ vars n) {c : Constraint α} {p : Pass κ ρ}
    (enough : p.need vars c.depth ≤ n + 1) : (walkSides vars n c : Walk α κ ρ ρ).Ends p := by
  have room {d : Nat} (le : d ≤ max c.lhs.depth c.rhs.depth) : p.need vars d ≤ n :=
    Nat.le_of_lt_succ ((Nat.add_lt_add_right (Nat.lt_succ_of_le le) _).trans_le enough)
  refine .bind (h.expr c.lhs p (room (Nat.le_max_left _ _))) fun l q left => ?_
  have grows : p.Grows q := (run_of_walkExpr left).grows
  refine .bind (h.expr c.rhs q ?_) fun r _ _ => ?_
  · exact (grows.need_le vars (Nat.le_refl _)).trans (room (Nat.le_max_right _ _))
  · exact .bind (.ofExcept _ _) fun _ _ _ => .bind (.ofExcept _ _) fun _ _ _ =>
      .unlessLowered fun _ => .enterConstraint _ _

theorem succ (h : EndsWithin κ vars n) : EndsWithin κ vars (n + 1) where
  expr e p enough := by
    rw [walkExpr_succ]
    exact .unlessHeld fun held => h.new held enough
  constraint c p enough := by
    rw [walkConstraint_succ]
    exact .unlessLowered fun _ => h.sides enough
  attached item p enough := by
    rw [walkAttached.eq_def]
    cases item with
    | foreign d => exact .refuse _
    | node m =>
        cases m with
        | constraint c =>
            exact .bind (h.constraint c p (Nat.le_of_lt_succ
              ((Nat.add_lt_add_right (Nat.lt_succ_self _) _).trans_le enough)))
              fun _ _ _ => .pure ()
        | expr e =>
            exact .bind (h.expr e p (Nat.le_of_lt_succ
              ((Nat.add_lt_add_right (Nat.lt_succ_self _) _).trans_le enough)))
              fun _ _ _ => .pure ()

theorem all (κ : Type) {ρ : Type} [Compiled α κ ρ] (vars : Vars α) (n : Nat) :
    EndsWithin κ vars n := by
  induction n with
  | zero => exact .zero vars
  | succ n ih => exact ih.succ

end EndsWithin

omit [Scalar α] [Compiled α κ ρ] in
/-- At most all variables are still to be met, so the bound is enough everywhere. -/
theorem Pass.need_le_depthBound (vars : Vars α) (p : Pass κ ρ) (start : Nat) :
    p.need vars start ≤ depthBound vars start :=
  Nat.add_le_add_left (Nat.mul_le_mul_right _ (p.unmet_le_length vars)) start

end Enough

/-! ## More depth changes nothing -/

/-- Wherever the one walk does not run out of its depth, the other is the same. -/
def Walk.Extends (w w' : Walk α κ ρ β) : Prop := ∀ p, w.Ends p → w' p = w p

namespace Walk.Extends

theorem refl (w : Walk α κ ρ β) : w.Extends w := fun _ _ => rfl

theorem trans {w w' w'' : Walk α κ ρ β} (h : w.Extends w') (h' : w'.Extends w'') :
    w.Extends w'' := by
  intro p ends
  have same : w' p = w p := h p ends
  have ends' : w'.Ends p := fun q => same ▸ ends q
  exact (h' p ends').trans same

/-- Nothing was promised of a walk that runs out of its depth. -/
theorem of_depth (w : Walk α κ ρ β) : Walk.Extends (throw .depth) w :=
  fun p ends => absurd rfl (ends p)

theorem bind {w w' : Walk α κ ρ β} {f f' : β → Walk α κ ρ γ} (hw : w.Extends w')
    (hf : ∀ x, (f x).Extends (f' x)) : (w >>= f).Extends (w' >>= f') := by
  intro p ends
  have first : w.Ends p := by
    intro q hq
    exact ends q (by simp [Bind.bind, EStateM.bind, hq])
  have same : w' p = w p := hw p first
  cases hp : w p with
  | ok x q =>
      have rest : (w >>= f) p = f x q := by simp [Bind.bind, EStateM.bind, hp]
      have rest' : (w' >>= f') p = f' x q := by simp [Bind.bind, EStateM.bind, same, hp]
      rw [rest, rest']
      exact hf x q fun s => rest ▸ ends s
  | error e q => simp [Bind.bind, EStateM.bind, same, hp]

theorem forM {items : List β} {f f' : β → Walk α κ ρ PUnit}
    (hf : ∀ x, (f x).Extends (f' x)) : (items.forM f).Extends (items.forM f') := by
  induction items with
  | nil => exact .refl _
  | cons x items ih => exact bind (hf x) fun _ => ih

theorem unlessHeld (id : Id) {w w' : Walk α κ ρ κ} (h : w.Extends w') :
    (Walk.unlessHeld id w).Extends (Walk.unlessHeld id w') := by
  refine bind (.refl _) fun held => ?_
  cases held with
  | some o => exact .refl _
  | none => exact h

theorem unlessLowered (id : Id) {w w' : Walk α κ ρ ρ} (h : w.Extends w') :
    (Walk.unlessLowered id w).Extends (Walk.unlessLowered id w') := by
  refine bind (.refl _) fun held => ?_
  cases held with
  | some r => exact .refl _
  | none => exact h

end Walk.Extends

section Deeper

variable [Scalar α] [Compiled α κ ρ]

/-- Walks within a depth `n` are the same with one level more. -/
structure Deeper (κ : Type) {ρ : Type} [Compiled α κ ρ] (vars : Vars α) (n : Nat) : Prop where
  expr : ∀ e : Expr α,
    Walk.Extends (walkExpr vars n e : Walk α κ ρ κ) (walkExpr vars (n + 1) e)
  constraint : ∀ c : Constraint α,
    Walk.Extends (walkConstraint vars n c : Walk α κ ρ ρ) (walkConstraint vars (n + 1) c)
  attached : ∀ item : Attached α,
    Walk.Extends (walkAttached vars n item : Walk α κ ρ Unit) (walkAttached vars (n + 1) item)

namespace Deeper

variable {vars : Vars α} {n : Nat}

theorem zero (vars : Vars α) : Deeper κ vars 0 where
  expr e := by
    rw [walkExpr.eq_def vars 0]
    exact .of_depth _
  constraint c := by
    rw [walkConstraint.eq_def vars 0]
    exact .of_depth _
  attached item := by
    rw [walkAttached.eq_def vars 0]
    exact .of_depth _

theorem free (h : Deeper κ vars n) (x : Variable) :
    Walk.Extends (walkFree vars n x : Walk α κ ρ κ) (walkFree vars (n + 1) x) := by
  have sign : Walk.Extends (walkSign vars n x : Walk α κ ρ Unit) (walkSign vars (n + 1) x) := by
    unfold walkSign
    split
    · exact .bind (.refl _) fun c => .bind (h.constraint c) fun _ => .refl _
    · exact .refl _
  exact .bind (.refl _) fun _ => .bind sign fun _ => .bind (.forM h.attached) fun _ => .refl _

theorem new (h : Deeper κ vars n) (e : Expr α) :
    Walk.Extends (walkNew vars n e : Walk α κ ρ κ) (walkNew vars (n + 1) e) := by
  cases e with
  | const c | stub s => exact .refl _
  | var x =>
      rw [walkNew, walkNew]
      split
      · exact .refl _
      · exact h.free x
  | kron id a b =>
      refine .bind (.refl _) fun va => ?_
      split
      · exact .refl _
      · refine .bind (.refl _) fun vb => ?_
        split
        · exact .refl _
        · exact .bind (h.expr b) fun _ => .refl _

theorem succ (h : Deeper κ vars n) : Deeper κ vars (n + 1) where
  expr e := by
    rw [walkExpr_succ, walkExpr_succ]
    exact .unlessHeld e.id (h.new e)
  constraint c := by
    rw [walkConstraint_succ, walkConstraint_succ]
    exact .unlessLowered c.id
      (.bind (h.expr c.lhs) fun _ => .bind (h.expr c.rhs) fun _ => .refl _)
  attached item := by
    rw [walkAttached.eq_def vars (n + 1), walkAttached.eq_def vars (n + 1 + 1)]
    cases item with
    | foreign d => exact .refl _
    | node m =>
        cases m with
        | constraint c => exact .bind (h.constraint c) fun _ => .refl _
        | expr e => exact .bind (h.expr e) fun _ => .refl _

theorem all (κ : Type) {ρ : Type} [Compiled α κ ρ] (vars : Vars α) (n : Nat) :
    Deeper κ vars n := by
  induction n with
  | zero => exact .zero vars
  | succ n ih => exact ih.succ

end Deeper

theorem walkExpr_extends (vars : Vars α) (e : Expr α) (n k : Nat) :
    Walk.Extends (walkExpr vars n e : Walk α κ ρ κ) (walkExpr vars (n + k) e) := by
  induction k with
  | zero => exact .refl _
  | succ k ih => exact ih.trans ((Deeper.all κ vars (n + k)).expr e)

theorem walkConstraint_extends (vars : Vars α) (c : Constraint α) (n k : Nat) :
    Walk.Extends (walkConstraint vars n c : Walk α κ ρ ρ) (walkConstraint vars (n + k) c) := by
  induction k with
  | zero => exact .refl _
  | succ k ih => exact ih.trans ((Deeper.all κ vars (n + k)).constraint c)

/-! ## The end of compilation -/

omit [Scalar α] [Compiled α κ ρ] in
/-- A compilation returns what the walk returns, or is refused for the cause for which the
walk is. -/
def Compile.Follows (c : Compile α κ ρ β) (w : Walk α κ ρ β) (p : Pass κ ρ) : Prop :=
  (∃ x q, w p = .ok x q ∧ c p = .ok x q) ∨
    ∃ f q, w p = .error (.fault f) q ∧ c p = .error f q

omit [Scalar α] [Compiled α κ ρ] in
/-- A walk that does not run out of its depth is followed by its compilation. -/
theorem Compile.follows_of_ends {w w' : Walk α κ ρ β} {p : Pass κ ρ} (ends : w.Ends p)
    (deeper : w.Extends w') : Compile.Follows w.run w' p := by
  rw [Follows, deeper p ends]
  cases h : w p with
  | ok x q => exact .inl ⟨x, q, rfl, by rw [Walk.run, h]⟩
  | error e q =>
      cases e with
      | fault f => exact .inr ⟨f, q, rfl, by rw [Walk.run, h]⟩
      | depth => exact absurd h (ends q)

/-- Compilation ends, however the model hangs together: whatever the states of the
variables are and whatever was entered before, an expression and a constraint are
compiled, or refused for a cause, within the depth `depthBound`.  A walk that is allowed
to go deeper makes the same calls and has the same outcome. -/
theorem compilation_ends (vars : Vars α) (p : Pass κ ρ) (k : Nat) :
    (∀ e : Expr α,
      (compileExpr vars e).Follows (walkExpr vars (depthBound vars e.depth + k) e) p) ∧
    ∀ c : Constraint α,
      (compileConstraint vars c).Follows
        (walkConstraint vars (depthBound vars c.depth + k) c) p := by
  constructor
  · intro e
    exact Compile.follows_of_ends
      ((EndsWithin.all κ vars _).expr e p (p.need_le_depthBound vars e.depth))
      (walkExpr_extends vars e _ k)
  · intro c
    exact Compile.follows_of_ends
      ((EndsWithin.all κ vars _).constraint c p (p.need_le_depthBound vars c.depth))
      (walkConstraint_extends vars c _ k)

end Deeper

end ConicModel
