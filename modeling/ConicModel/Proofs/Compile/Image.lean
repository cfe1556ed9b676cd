/-
# Compilation commutes with what it computes with

The walk is one text for everything it can compute with.  If what is compiled can be held
in two ways, and a change from the one to the other goes along with every operation the
walk uses (`Compiled.Hom`), then it goes along with the walk: the compilation of the image
of a pass is the image of the compilation, whether it is refused or not.

`Carried` is that statement for one piece of a walk.  It holds of the small parts and
passes from parts to what is made of them, so the induction on the depth only has to go
along the text.
-/
import ConicModel.Proofs.Compile.Calls

namespace ConicModel

variable {α κ ρ κ' ρ' β β' γ γ' : Type}

/-! ## Images -/

/-- An outcome with its result and its state carried over. -/
def Outcome.image {ε σ τ : Type} (φ : β → β') (s : σ → τ) :
    EStateM.Result ε σ β → EStateM.Result ε τ β'
  | .ok x q => .ok (φ x) (s q)
  | .error e q => .error e (s q)

/-- A cache with everything it holds carried over. -/
def Cache.image (f : κ → κ') (g : ρ → ρ') (c : Cache κ ρ) : Cache κ' ρ' :=
  ⟨c.exprs.image f, c.constraints.image g, c.records.map g⟩

/-- A pass with everything it holds carried over. -/
def Pass.image (f : κ → κ') (g : ρ → ρ') (p : Pass κ ρ) : Pass κ' ρ' :=
  ⟨p.ledger, p.cache.image f g⟩

/-- What was returned, carried over. -/
def Returned.image (f : κ → κ') (g : ρ → ρ') : Returned κ ρ → Returned κ' ρ'
  | .expr o => .expr (f o)
  | .constraint r => .constraint (g r)

/-- A change of what is compiled that goes along with the operations. -/
structure Compiled.Hom [Compiled α κ ρ] [Compiled α κ' ρ'] (f : κ → κ') (g : ρ → ρ') :
    Prop where
  ofObjective : ∀ o : Objective α, Compiled.ofObjective o = f (Compiled.ofObjective o)
  sub : ∀ a b : κ, Compiled.sub (f a) (f b) = (Compiled.sub a b).map f
  neg : ∀ a : κ, Compiled.neg (f a) = (Compiled.neg a).map f
  premultiply : ∀ a : κ, Compiled.premultiply (f a)
    = (Compiled.premultiply a).map fun times M => (times M).map f
  record : ∀ (a : κ) (cone : Cone) (size : Int),
    Compiled.record (f a) cone size = g (Compiled.record a cone size)

/-! ## Walks that are carried over -/

/-- What is done from the image of a pass has the image of the outcome. -/
def Carried {ε : Type} (f : κ → κ') (g : ρ → ρ') (φ : β → β') (w : EStateM ε (Pass κ ρ) β)
    (w' : EStateM ε (Pass κ' ρ') β') : Prop :=
  ∀ p, w' (p.image f g) = Outcome.image φ (Pass.image f g) (w p)

namespace Carried

variable {ε : Type} {f : κ → κ'} {g : ρ → ρ'} {φ : β → β'} {ψ : γ → γ'}

theorem pure (x : β) :
    Carried f g φ (Pure.pure x : EStateM ε (Pass κ ρ) β) (Pure.pure (φ x)) := fun _ => rfl

theorem halt (e : ε) :
    Carried f g φ (throw e : EStateM ε (Pass κ ρ) β) (throw e) := fun _ => rfl

theorem bind {w : EStateM ε (Pass κ ρ) β} {w' : EStateM ε (Pass κ' ρ') β'}
    {k : β → EStateM ε (Pass κ ρ) γ} {k' : β' → EStateM ε (Pass κ' ρ') γ'}
    (hw : Carried f g φ w w') (hk : ∀ x, Carried f g ψ (k x) (k' (φ x))) :
    Carried f g ψ (w >>= k) (w' >>= k') := by
  intro p
  have first := hw p
  cases hp : w p with
  | ok x q =>
      rw [hp] at first
      have rest : (w >>= k) p = k x q := by simp [Bind.bind, EStateM.bind, hp]
      have rest' : (w' >>= k') (p.image f g) = k' (φ x) (q.image f g) := by
        simp [Bind.bind, EStateM.bind, first, Outcome.image]
      rw [rest, rest']
      exact hk x q
  | error e q =>
      rw [hp] at first
      simp [Bind.bind, EStateM.bind, hp, first, Outcome.image]

theorem forM {items : List β} {k : β → EStateM ε (Pass κ ρ) PUnit}
    {k' : β → EStateM ε (Pass κ' ρ') PUnit} (hk : ∀ x, Carried f g id (k x) (k' x)) :
    Carried f g id (items.forM k) (items.forM k') := by
  induction items with
  | nil => exact pure _
  | cons x items ih => exact bind (hk x) fun _ => ih

theorem mapM {items : List γ} {k : γ → EStateM ε (Pass κ ρ) β}
    {k' : γ → EStateM ε (Pass κ' ρ') β'} (hk : ∀ x, Carried f g φ (k x) (k' x)) :
    Carried f g (List.map φ) (items.mapM k) (items.mapM k') := by
  induction items with
  | nil => exact pure []
  | cons x items ih =>
      rw [List.mapM_cons, List.mapM_cons]
      exact bind (hk x) fun y => bind ih fun ys => pure (y :: ys)

theorem make (m : Make α β) :
    Carried f g id (Walk.make m : Walk α κ ρ β) (Walk.make m) := by
  intro p
  show Walk.make m (p.image f g) = _
  unfold Walk.make
  rw [show (p.image f g).ledger = p.ledger from rfl]
  cases m p.ledger with
  | ok x l => rfl
  | error e l => rfl

theorem ofExcept {ε : Type} (why : ε → Fault α) {r : Except ε β} {r' : Except ε β'}
    (h : r' = r.map φ) :
    Carried f g φ (Walk.ofExcept why r : Walk α κ ρ β) (Walk.ofExcept why r') := by
  subst h
  cases r with
  | ok x => exact pure x
  | error e => exact halt _

theorem enterExpr (id : Id) (o : κ) :
    Carried f g f (Walk.enterExpr id o : Walk α κ ρ κ) (Walk.enterExpr id (f o)) := by
  intro p
  have has : (p.image f g).cache.exprs.has id = p.cache.exprs.has id := Table.has_image f _ id
  unfold Walk.enterExpr Cache.putExpr
  rw [has]
  cases p.cache.exprs.has id with
  | true => rfl
  | false =>
      show EStateM.Result.ok _ _ = EStateM.Result.ok _ _
      simp [Pass.image, Cache.image, Table.image_push]

theorem enterConstraint (id : Id) (r : ρ) :
    Carried f g g (Walk.enterConstraint id r : Walk α κ ρ ρ)
      (Walk.enterConstraint id (g r)) := by
  intro p
  have has : (p.image f g).cache.constraints.has id = p.cache.constraints.has id :=
    Table.has_image g _ id
  unfold Walk.enterConstraint Cache.putConstraint
  rw [has]
  cases p.cache.constraints.has id with
  | true => rfl
  | false =>
      show EStateM.Result.ok _ _ = EStateM.Result.ok _ _
      simp [Pass.image, Cache.image, Table.image_push]

theorem unlessHeld (id : Id) {w : Walk α κ ρ κ} {w' : Walk α κ' ρ' κ'}
    (h : Carried f g f w w') :
    Carried f g f (Walk.unlessHeld id w) (Walk.unlessHeld id w') := by
  intro p
  have get : (p.image f g).cache.exprs.get? id = (p.cache.exprs.get? id).map f :=
    Table.get?_image f _ id
  cases held : p.cache.exprs.get? id with
  | some o =>
      have held' : (p.image f g).cache.exprs.get? id = some (f o) := by
        rw [get, held]
        rfl
      rw [Walk.unlessHeld_of_some held, Walk.unlessHeld_of_some held']
      rfl
  | none =>
      have held' : (p.image f g).cache.exprs.get? id = none := by
        rw [get, held]
        rfl
      rw [Walk.unlessHeld_of_none held, Walk.unlessHeld_of_none held']
      exact h p

theorem unlessLowered (id : Id) {w : Walk α κ ρ ρ} {w' : Walk α κ' ρ' ρ'}
    (h : Carried f g g w w') :
    Carried f g g (Walk.unlessLowered id w) (Walk.unlessLowered id w') := by
  intro p
  have get : (p.image f g).cache.constraints.get? id = (p.cache.constraints.get? id).map g :=
    Table.get?_image g _ id
  cases held : p.cache.constraints.get? id with
  | some r =>
      have held' : (p.image f g).cache.constraints.get? id = some (g r) := by
        rw [get, held]
        rfl
      rw [Walk.unlessLowered_of_some held, Walk.unlessLowered_of_some held']
      rfl
  | none =>
      have held' : (p.image f g).cache.constraints.get? id = none := by
        rw [get, held]
        rfl
      rw [Walk.unlessLowered_of_none held, Walk.unlessLowered_of_none held']
      exact h p

end Carried

/-! ## The walk -/

section

variable [Scalar α] [Compiled α κ ρ] [Compiled α κ' ρ'] {f : κ → κ'} {g : ρ → ρ'}

omit [Scalar α] in
theorem Compiled.Hom.lower (hom : Compiled.Hom f g) (vars : Vars α) (c : Constraint α) (d : κ) :
    c.lower vars (f d) = (c.lower vars d).map g := by
  have done : ∀ o : Except (Fault α) κ,
      ((o.map f).bind fun o => Except.ok (Compiled.record o (c.cone vars) c.size))
        = (o.bind fun o => Except.ok (Compiled.record o (c.cone vars) c.size)).map g := by
    intro o
    cases o with
    | error e => rfl
    | ok o => exact congrArg Except.ok (hom.record o _ _)
  unfold Constraint.lower
  split
  · rw [hom.neg]
    exact done _
  · exact done (.ok d)

/-- Walks within a depth `n` are carried over. -/
structure CarriesOver (f : κ → κ') (g : ρ → ρ') (vars : Vars α) (n : Nat) : Prop where
  expr : ∀ e : Expr α, Carried f g f (walkExpr vars n e) (walkExpr vars n e)
  constraint : ∀ c : Constraint α,
    Carried f g g (walkConstraint vars n c) (walkConstraint vars n c)
  attached : ∀ item : Attached α,
    Carried f g id (walkAttached vars n item : Walk α κ ρ Unit)
      (walkAttached vars n item : Walk α κ' ρ' Unit)

namespace CarriesOver

variable {vars : Vars α} {n : Nat}

theorem constant (hom : Compiled.Hom f g) (vars : Vars α) (e : Expr α) :
    Carried f g f (walkConstant vars e) (walkConstant vars e) := by
  refine .bind (.ofExcept (φ := id) _ (by cases e.evaluate vars <;> rfl)) fun v => ?_
  rw [hom.ofObjective]
  exact .enterExpr e.id _

theorem zero (vars : Vars α) : CarriesOver f g vars 0 where
  expr e := by
    rw [walkExpr.eq_def vars 0, walkExpr.eq_def vars 0]
    exact .halt _
  constraint c := by
    rw [walkConstraint.eq_def vars 0, walkConstraint.eq_def vars 0]
    exact .halt _
  attached item := by
    rw [walkAttached.eq_def vars 0, walkAttached.eq_def vars 0]
    exact .halt _

theorem sign (h : CarriesOver f g vars n) (x : Variable) :
    Carried f g id (walkSign vars n x : Walk α κ ρ Unit)
      (walkSign vars n x : Walk α κ' ρ' Unit) := by
  unfold walkSign
  split
  · exact .bind (.make _) fun c => .bind (h.constraint c) fun _ => .pure _
  · exact .pure _

theorem free (hom : Compiled.Hom f g) (h : CarriesOver f g vars n) (x : Variable) :
    Carried f g f (walkFree vars n x) (walkFree vars n x) := by
  unfold walkFree
  rw [hom.ofObjective]
  exact .bind (.enterExpr _ _) fun o => .bind (h.sign x) fun _ =>
    .bind (.forM h.attached) fun _ => .pure o

theorem product (hom : Compiled.Hom f g) (id : Id) (a b : Expr α) (child : κ) :
    Carried f g f (enterProduct vars id a b child)
      (enterProduct vars id a b (f child)) := by
  refine .bind (.ofExcept _ (hom.premultiply child)) fun times => ?_
  refine .bind (.ofExcept (φ := fun v => v) _ (by cases a.evaluate vars <;> rfl)) fun v => ?_
  exact .bind (.ofExcept _ rfl) fun o => .enterExpr id o

theorem new (hom : Compiled.Hom f g) (h : CarriesOver f g vars n) (e : Expr α) :
    Carried f g f (walkNew vars n e) (walkNew vars n e) := by
  cases e with
  | const c => exact constant hom vars _
  | stub s =>
      rw [walkNew, walkNew, hom.ofObjective]
      exact .enterExpr s.id _
  | var x =>
      rw [walkNew, walkNew]
      split
      · exact constant hom vars _
      · exact h.free hom x
  | kron id a b =>
      refine .bind (.make _) fun va => ?_
      rw [id_eq]
      split
      · exact .halt _
      · refine .bind (.make _) fun vb => ?_
        rw [id_eq]
        split
        · exact constant hom vars _
        · exact .bind (h.expr b) fun child => .unlessHeld id (product hom id a b child)

theorem sides (hom : Compiled.Hom f g) (h : CarriesOver f g vars n) (c : Constraint α) :
    Carried f g g (walkSides vars n c) (walkSides vars n c) :=
  .bind (h.expr c.lhs) fun l => .bind (h.expr c.rhs) fun r =>
    .bind (.ofExcept _ (hom.sub l r)) fun d =>
      .bind (.ofExcept _ (hom.lower vars c d)) fun lowered =>
        .unlessLowered c.id (.enterConstraint c.id lowered)

theorem succ (hom : Compiled.Hom f g) (h : CarriesOver f g vars n) :
    CarriesOver f g vars (n + 1) where
  expr e := by
    rw [walkExpr_succ, walkExpr_succ]
    exact .unlessHeld e.id (h.new hom e)
  constraint c := by
    rw [walkConstraint_succ, walkConstraint_succ]
    exact .unlessLowered c.id (h.sides hom c)
  attached item := by
    rw [walkAttached.eq_def vars (n + 1), walkAttached.eq_def vars (n + 1)]
    cases item with
    | foreign d => exact .halt _
    | node m =>
        cases m with
        | constraint c => exact .bind (h.constraint c) fun _ => .pure _
        | expr e => exact .bind (h.expr e) fun _ => .pure _

theorem all (hom : Compiled.Hom f g) (vars : Vars α) (n : Nat) : CarriesOver f g vars n := by
  induction n with
  | zero => exact .zero vars
  | succ n ih => exact ih.succ hom

end CarriesOver

/-! ## Compilation -/

omit [Scalar α] [Compiled α κ ρ] [Compiled α κ' ρ'] in
theorem Carried.run {φ : β → β'} {w : Walk α κ ρ β} {w' : Walk α κ' ρ' β'}
    (h : Carried f g φ w w') : Carried f g φ w.run w'.run := by
  intro p
  unfold Walk.run
  rw [h p]
  cases w p with
  | ok x q => rfl
  | error e q => cases e <;> rfl

theorem compileExpr_image (hom : Compiled.Hom f g) (vars : Vars α) (e : Expr α) :
    Carried f g f (compileExpr vars e) (compileExpr vars e) :=
  ((CarriesOver.all hom vars _).expr e).run

theorem compileConstraint_image (hom : Compiled.Hom f g) (vars : Vars α) (c : Constraint α) :
    Carried f g g (compileConstraint vars c) (compileConstraint vars c) :=
  ((CarriesOver.all hom vars _).constraint c).run

/-- Whatever is compiled, one call after another, the same calls in the image have the image
of the outcome. -/
theorem compileNodes_image (hom : Compiled.Hom f g) (vars : Vars α) (roots : List (Node α)) :
    Carried f g (List.map (Returned.image f g)) (compileNodes vars roots)
      (compileNodes vars roots) := by
  refine .mapM fun n => ?_
  cases n with
  | expr e => exact .bind (compileExpr_image hom vars e) fun o => .pure (Returned.expr o)
  | constraint c =>
      exact .bind (compileConstraint_image hom vars c) fun r => .pure (Returned.constraint r)

end

end ConicModel
