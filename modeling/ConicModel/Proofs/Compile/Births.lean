/-
# Births in a compilation

Compilation makes one sort of node: the constraint that the sign of a free variable stands for,
with the zero on its other side.  It is made once the variable is entered and before it is
lowered itself, in the middle of a walk that may be refused later.  `WalkBirths` tells what is
born along a walk, piece by piece as the walk is written (`WalkBirths.within`), and
`accounts_compileNode` says that it is told right.

The same account says where entries come from.  Everything in a cache stands under the identity
of a node that is there (`Cache.Keyed`): what is walked is there, because it was asked for, is
part of what is there, is attached to a variable that is there, or was just born.
-/
import ConicModel.Proofs.Making
import ConicModel.Proofs.Compile.Calls

namespace ConicModel

variable {α κ ρ β : Type}

/-! ## Entries and nodes -/

/-- Whatever is entered is entered for a node that is there. -/
structure Cache.Keyed (c : Cache κ ρ) (N : Set (Node α)) : Prop where
  exprs : ∀ i ∈ c.exprs.ids, ∃ e, .expr e ∈ N ∧ e.id = i
  constraints : ∀ i ∈ c.constraints.ids, ∃ k, .constraint k ∈ N ∧ k.id = i

namespace Cache.Keyed

variable {N : Set (Node α)}

theorem empty (N : Set (Node α)) : Keyed ({} : Cache κ ρ) N where
  exprs i hi := by cases hi
  constraints i hi := by cases hi

theorem mono {c : Cache κ ρ} (h : c.Keyed N) {N' : Set (Node α)} (sub : N ⊆ N') :
    c.Keyed N' where
  exprs i hi := (h.exprs i hi).imp fun _ => And.imp_left fun he => sub he
  constraints i hi := (h.constraints i hi).imp fun _ => And.imp_left fun hk => sub hk

theorem putExpr {c c' : Cache κ ρ} (h : c.Keyed N) {e : Expr α} (he : .expr e ∈ N) {o : κ}
    (put : (c.putExpr e.id o : Except (Fault α) _) = .ok c') : c'.Keyed N := by
  unfold Cache.putExpr at put
  split at put
  · cases put
  · cases put
    refine ⟨fun i hi => ?_, h.constraints⟩
    rw [Table.ids_push] at hi
    rcases List.mem_append.mp hi with hi | hi
    · exact h.exprs i hi
    · exact ⟨e, he, (List.mem_singleton.mp hi).symm⟩

theorem putConstraint {c c' : Cache κ ρ} (h : c.Keyed N) {k : Constraint α}
    (hk : .constraint k ∈ N) {r : ρ}
    (put : (c.putConstraint k.id r : Except (Fault α) _) = .ok c') : c'.Keyed N := by
  unfold Cache.putConstraint at put
  split at put
  · cases put
  · cases put
    refine ⟨h.exprs, fun i hi => ?_⟩
    rw [Table.ids_push] at hi
    rcases List.mem_append.mp hi with hi | hi
    · exact h.constraints i hi
    · exact ⟨k, hk, (List.mem_singleton.mp hi).symm⟩

end Cache.Keyed

/-! ## The small parts of a walk -/

/-- A pass of compilation, where nodes and variables go together and entries are those of
nodes. -/
def compiling (vars : Vars α) : Stage α (Pass κ ρ) where
  next p := p.ledger.nextId
  Fits N p := Coherent vars N p.ledger.nextId ∧ p.cache.Keyed N

section Parts

variable {vars : Vars α} {R : Set (Node α)}

theorem accounts_make {f : Make α β} {bs : Ledger → List (Birth α)} {gives : β → Set (Node α)}
    (h : making.Accounts R f bs gives) :
    (compiling vars).Accounts R (Walk.make f : Walk α κ ρ β) (fun p => bs p.ledger) gives := by
  intro N p sub fits
  obtain ⟨told, -, given⟩ := h N p.ledger sub ⟨fits.1.roster, fits.1.pos⟩
  have left : Outcome.left ((Walk.make f : Walk α κ ρ β) p)
      = p.spend (Outcome.left (f p.ledger)) := by
    unfold Walk.make
    cases f p.ledger <;> rfl
  rw [left]
  refine ⟨told, ⟨told.coherent fits.1, fits.2.mono (subset_born _ _)⟩, fun x q made => ?_⟩
  obtain ⟨l, made, -⟩ := Walk.make_ok.mp made
  exact given x l made

theorem accounts_of_same {w : Walk α κ ρ β} (same : ∀ p, Outcome.left (w p) = p) :
    (compiling vars).Accounts R w noBirths fun _ => ∅ :=
  .quiet (fun N p _ fits => by
    rw [same]
    exact ⟨rfl, fits⟩) fun _ => Set.empty_subset R

theorem accounts_refuse (f : Fault α) :
    (compiling vars).Accounts R (Walk.refuse f : Walk α κ ρ β) noBirths fun _ => ∅ :=
  .throw _

theorem accounts_trust (v : Verdict) :
    (compiling vars).Accounts R (Walk.make (Make.trust v) : Walk α κ ρ Curvature) noBirths
      fun _ => ∅ :=
  accounts_make ((Make.still_trust v).accounts fun _ => Set.empty_subset R)

theorem accounts_ofExcept {ε : Type} (why : ε → Fault α) (r : Except ε β) :
    (compiling vars).Accounts R (Walk.ofExcept why r : Walk α κ ρ β) noBirths fun _ => ∅ :=
  accounts_of_same fun p => by cases r <;> rfl

theorem accounts_enterExpr {e : Expr α} (he : .expr e ∈ R) (o : κ) :
    (compiling vars).Accounts R (Walk.enterExpr e.id o : Walk α κ ρ κ) noBirths
      fun _ => ∅ := by
  refine .quiet (fun N p sub fits => ?_) fun _ => Set.empty_subset R
  unfold Walk.enterExpr
  split
  · rename_i c put
    exact ⟨rfl, fits.1, fits.2.putExpr (sub he) put⟩
  · exact ⟨rfl, fits⟩

theorem accounts_enterConstraint {c : Constraint α} (hc : .constraint c ∈ R) (r : ρ) :
    (compiling vars).Accounts R (Walk.enterConstraint c.id r : Walk α κ ρ ρ) noBirths
      fun _ => ∅ := by
  refine .quiet (fun N p sub fits => ?_) fun _ => Set.empty_subset R
  unfold Walk.enterConstraint
  split
  · rename_i c put
    exact ⟨rfl, fits.1, fits.2.putConstraint (sub hc) put⟩
  · exact ⟨rfl, fits⟩

/-- Births if nothing is held for an expression yet. -/
def bornUnlessHeld (id : Id) (bs : Pass κ ρ → List (Birth α)) (p : Pass κ ρ) : List (Birth α) :=
  if (p.cache.exprs.get? id).isSome then [] else bs p

/-- Births if nothing is held for a constraint yet. -/
def bornUnlessLowered (id : Id) (bs : Pass κ ρ → List (Birth α)) (p : Pass κ ρ) :
    List (Birth α) :=
  if (p.cache.constraints.get? id).isSome then [] else bs p

theorem accounts_unlessHeld (id : Id) {w : Walk α κ ρ κ} {bs : Pass κ ρ → List (Birth α)}
    (h : (compiling vars).Accounts R w bs fun _ => ∅) :
    (compiling vars).Accounts R (Walk.unlessHeld id w) (bornUnlessHeld id bs) fun _ => ∅ := by
  intro N p sub fits
  cases held : p.cache.exprs.get? id with
  | some o =>
      rw [Walk.unlessHeld_of_some held, bornUnlessHeld, held, Option.isSome_some, if_pos rfl,
        born_nil]
      exact ⟨.nil N _, fits, fun _ _ _ => ⟨.nil, Set.empty_subset N⟩⟩
  | none =>
      rw [Walk.unlessHeld_of_none held, bornUnlessHeld, held, Option.isSome_none,
        if_neg Bool.false_ne_true]
      exact h N p sub fits

theorem accounts_unlessLowered (id : Id) {w : Walk α κ ρ ρ} {bs : Pass κ ρ → List (Birth α)}
    (h : (compiling vars).Accounts R w bs fun _ => ∅) :
    (compiling vars).Accounts R (Walk.unlessLowered id w) (bornUnlessLowered id bs)
      fun _ => ∅ := by
  intro N p sub fits
  cases held : p.cache.constraints.get? id with
  | some r =>
      rw [Walk.unlessLowered_of_some held, bornUnlessLowered, held, Option.isSome_some,
        if_pos rfl, born_nil]
      exact ⟨.nil N _, fits, fun _ _ _ => ⟨.nil, Set.empty_subset N⟩⟩
  | none =>
      rw [Walk.unlessLowered_of_none held, bornUnlessLowered, held, Option.isSome_none,
        if_neg Bool.false_ne_true]
      exact h N p sub fits

theorem quiet_unlessHeld (id : Id) {w : Walk α κ ρ κ}
    (h : (compiling vars).Accounts R w noBirths fun _ => ∅) :
    (compiling vars).Accounts R (Walk.unlessHeld id w) noBirths fun _ => ∅ := by
  have none : bornUnlessHeld id (noBirths : Pass κ ρ → List (Birth α)) = noBirths :=
    funext fun p => ite_self []
  exact none ▸ accounts_unlessHeld id h

theorem quiet_unlessLowered (id : Id) {w : Walk α κ ρ ρ}
    (h : (compiling vars).Accounts R w noBirths fun _ => ∅) :
    (compiling vars).Accounts R (Walk.unlessLowered id w) noBirths fun _ => ∅ := by
  have none : bornUnlessLowered id (noBirths : Pass κ ρ → List (Birth α)) = noBirths :=
    funext fun p => ite_self []
  exact none ▸ accounts_unlessLowered id h

end Parts

/-! ## Births along a walk -/

/-- What is born while an expression is compiled, a constraint lowered, or an attached item
compiled. -/
structure WalkBirths (α κ ρ : Type) where
  expr : Expr α → Pass κ ρ → List (Birth α)
  constraint : Constraint α → Pass κ ρ → List (Birth α)
  attached : Attached α → Pass κ ρ → List (Birth α)

variable [Scalar α] [Compiled α κ ρ]

namespace WalkBirths

section Pieces

variable (below : WalkBirths α κ ρ) (vars : Vars α) (n : Nat)

/-- The constraint of a one-sided sign is made and then lowered. -/
def sign (x : Variable) : Pass κ ρ → List (Birth α) :=
  if (vars.state x).sign.isOneSided then fun p =>
    signBirths vars (.var x) p.ledger ++
      Outcome.onward ((Walk.make (signConstraint vars (.var x)) : Walk α κ ρ _) p)
        below.constraint
  else noBirths

/-- A free variable is entered, and then comes its sign and what is attached to it. -/
def free (x : Variable) (p : Pass κ ρ) : List (Birth α) :=
  Outcome.onward ((Walk.enterExpr x.id
      (Compiled.ofObjective (.ofVariable x (vars.state x).sign)) : Walk α κ ρ κ) p) fun _ p =>
    below.sign vars x p ++ Outcome.onward ((walkSign vars n x : Walk α κ ρ Unit) p) fun _ =>
      Outcome.eachOnward (walkAttached vars n) below.attached (vars.state x).attached

/-- Only the right operand of a product is compiled, and only if the product is no constant. -/
def new : Expr α → Pass κ ρ → List (Birth α)
  | .const _ | .stub _ => noBirths
  | .var x => if (vars.state x).fixed then noBirths else below.free vars n x
  | .kron _ a b => fun p =>
    Outcome.onward ((Walk.make (Make.trust (a.verdict vars)) : Walk α κ ρ _) p) fun va =>
      if va ≠ .constant then noBirths
      else fun p =>
        Outcome.onward ((Walk.make (Make.trust (b.verdict vars)) : Walk α κ ρ _) p) fun vb =>
          if vb = .constant then noBirths else below.expr b

/-- Both sides of a constraint are compiled. -/
def sides (c : Constraint α) (p : Pass κ ρ) : List (Birth α) :=
  below.expr c.lhs p ++
    Outcome.onward ((walkExpr vars n c.lhs : Walk α κ ρ κ) p) fun _ => below.expr c.rhs

end Pieces

/-- What is born within a depth. -/
def within (vars : Vars α) : Nat → WalkBirths α κ ρ
  | 0 => ⟨fun _ => noBirths, fun _ => noBirths, fun _ => noBirths⟩
  | n + 1 => {
    expr e := bornUnlessHeld e.id ((within vars n).new vars n e)
    constraint c := bornUnlessLowered c.id ((within vars n).sides vars n c)
    attached
      | .node (.constraint c) => (within vars n).constraint c
      | .node (.expr e) => (within vars n).expr e
      | .foreign _ => noBirths }

/-- The births within a depth are told right of walks within that depth. -/
structure Account (κ : Type) {ρ : Type} [Compiled α κ ρ] (vars : Vars α) (n : Nat) : Prop where
  expr : ∀ {R : Set (Node α)} {e : Expr α}, .expr e ∈ R →
    (compiling vars).Accounts R (walkExpr vars n e : Walk α κ ρ κ) ((within vars n).expr e)
      fun _ => ∅
  constraint : ∀ {R : Set (Node α)} {c : Constraint α}, .constraint c ∈ R →
    (compiling vars).Accounts R (walkConstraint vars n c : Walk α κ ρ ρ)
      ((within vars n).constraint c) fun _ => ∅
  attached : ∀ {R : Set (Node α)} {item : Attached α}, (∀ m, item = .node m → m ∈ R) →
    (compiling vars).Accounts R (walkAttached vars n item : Walk α κ ρ Unit)
      ((within vars n).attached item) fun _ => ∅

namespace Account

variable {vars : Vars α} {n : Nat} {R : Set (Node α)}

theorem zero (vars : Vars α) : Account κ vars 0 where
  expr _ := by
    rw [walkExpr.eq_def]
    exact .throw _
  constraint _ := by
    rw [walkConstraint.eq_def]
    exact .throw _
  attached _ := by
    rw [walkAttached.eq_def]
    exact .throw _

theorem constant {e : Expr α} (he : .expr e ∈ R) :
    (compiling vars).Accounts R (walkConstant vars e : Walk α κ ρ κ) noBirths fun _ => ∅ :=
  (accounts_ofExcept _ _).bind_quiet fun _ => accounts_enterExpr (.inl he) _

theorem sign (h : Account κ vars n) {x : Variable} (hx : .expr (.var x) ∈ R) :
    (compiling vars).Accounts R (walkSign vars n x : Walk α κ ρ Unit)
      ((within vars n).sign vars x) fun _ => ∅ := by
  unfold walkSign WalkBirths.sign
  split
  · refine (accounts_make (accounts_signConstraint vars hx)).bind fun c => ?_
    exact (h.constraint (.inr rfl)).bind_quiet fun _ => .pure (Set.empty_subset _)
  · exact .pure (Set.empty_subset R)

/-- What is attached to the variable is there, because the variable is. -/
theorem free (h : Account κ vars n) {x : Variable} (hx : .expr (.var x) ∈ R) :
    (compiling vars).Accounts R (walkFree vars n x : Walk α κ ρ κ)
      ((within vars n).free vars n x) fun _ => ∅ := by
  refine .of_fits fun N p sub fits => ⟨N, subset_rfl, ?_⟩
  have attached := (fits.1.respects x (sub hx)).attached
  refine (accounts_enterExpr (e := .var x) (sub hx) _).quiet_bind fun o => ?_
  refine (h.sign (.inl (sub hx))).bind fun _ => ?_
  refine Stage.Accounts.bind_quiet (.forM fun item hitem => ?_) fun _ =>
    .pure (Set.empty_subset _)
  exact h.attached fun m hm => .inl (.inl (attached m (hm ▸ hitem)))

theorem product {i : Id} {a b : Expr α} (hk : .expr (.kron i a b) ∈ R) (child : κ) :
    (compiling vars).Accounts R (enterProduct vars i a b child : Walk α κ ρ κ) noBirths
      fun _ => ∅ :=
  (accounts_ofExcept _ _).bind_quiet fun _ =>
    (accounts_ofExcept _ _).bind_quiet fun _ =>
      (accounts_ofExcept _ _).bind_quiet fun _ =>
        accounts_enterExpr (e := .kron i a b) (.inl (.inl (.inl hk))) _

/-- The right operand of a product that is there is there. -/
theorem new (h : Account κ vars n) {e : Expr α} (he : .expr e ∈ R) :
    (compiling vars).Accounts R (walkNew vars n e : Walk α κ ρ κ) ((within vars n).new vars n e)
      fun _ => ∅ := by
  cases e with
  | const c => exact constant he
  | stub s => exact accounts_enterExpr (e := .stub s) he _
  | var x =>
      rw [walkNew, WalkBirths.new]
      split
      · exact constant he
      · exact h.free he
  | kron i a b =>
      refine .of_fits fun N p sub fits => ⟨N, subset_rfl, ?_⟩
      have operand : .expr b ∈ N :=
        fits.1.roster.closed _ (sub he) _ (List.mem_cons_of_mem _ (List.mem_singleton_self _))
      rw [walkNew, WalkBirths.new]
      refine (accounts_trust _).quiet_bind fun va => ?_
      split
      · exact accounts_refuse _
      · refine (accounts_trust _).quiet_bind fun vb => ?_
        split
        · exact constant (.inl (.inl (sub he)))
        · exact (h.expr (.inl (.inl operand))).bind_quiet fun child =>
            quiet_unlessHeld i (product (.inl (.inl (.inl (sub he)))) child)

/-- The sides of a constraint that is there are there. -/
theorem sides (h : Account κ vars n) {c : Constraint α} (hc : .constraint c ∈ R) :
    (compiling vars).Accounts R (walkSides vars n c : Walk α κ ρ ρ)
      ((within vars n).sides vars n c) fun _ => ∅ := by
  refine .of_fits fun N p sub fits => ⟨N, subset_rfl, ?_⟩
  have part {m : Node α} (hm : m ∈ (Node.constraint c).children) : m ∈ N :=
    fits.1.roster.closed _ (sub hc) m hm
  have lhs : .expr c.lhs ∈ N := part List.mem_cons_self
  have rhs : .expr c.rhs ∈ N := part (List.mem_cons_of_mem _ (List.mem_singleton_self _))
  refine (h.expr lhs).bind fun _ => (h.expr (.inl rhs)).bind_quiet fun _ => ?_
  refine (accounts_ofExcept _ _).bind_quiet fun _ => (accounts_ofExcept _ _).bind_quiet fun _ => ?_
  exact quiet_unlessLowered c.id <|
    accounts_enterConstraint (.inl (.inl (.inl (.inl (sub hc))))) _

theorem succ (h : Account κ vars n) : Account κ vars (n + 1) where
  expr he := by
    rw [walkExpr_succ]
    exact accounts_unlessHeld _ (h.new he)
  constraint hc := by
    rw [walkConstraint_succ]
    exact accounts_unlessLowered _ (h.sides hc)
  attached {R item} there := by
    rw [walkAttached.eq_def]
    cases item with
    | foreign d => exact accounts_refuse _
    | node m =>
        cases m with
        | constraint c =>
            exact (h.constraint (there _ rfl)).bind_quiet fun _ => .pure (Set.empty_subset _)
        | expr e => exact (h.expr (there _ rfl)).bind_quiet fun _ => .pure (Set.empty_subset _)

theorem all (vars : Vars α) (n : Nat) : Account κ vars n := by
  induction n with
  | zero => exact .zero vars
  | succ n ih => exact ih.succ

end Account

end WalkBirths

/-! ## Compilation -/

/-- What is born while a node is compiled, also if that is refused. -/
def compileBirths (vars : Vars α) : Node α → Pass κ ρ → List (Birth α)
  | .expr e => (WalkBirths.within vars (depthBound vars e.depth)).expr e
  | .constraint c => (WalkBirths.within vars (depthBound vars c.depth)).constraint c

omit [Scalar α] [Compiled α κ ρ] in
/-- A walk does the same when it has depth enough. -/
theorem accounts_run {vars : Vars α} {R : Set (Node α)} {w : Walk α κ ρ β}
    {bs : Pass κ ρ → List (Birth α)} {gives : β → Set (Node α)}
    (h : (compiling vars).Accounts R w bs gives) : (compiling vars).Accounts R w.run bs gives := by
  intro N p sub fits
  have same : Outcome.left (w.run p) = Outcome.left (w p) := by
    unfold Walk.run
    cases w p with
    | ok x q => rfl
    | error e q => cases e <;> rfl
  obtain ⟨told, fits', given⟩ := h N p sub fits
  rw [same]
  refine ⟨told, fits', fun x q made => given x q ?_⟩
  unfold Walk.run at made
  cases hw : w p with
  | ok y q' =>
      rw [hw] at made
      cases made
      rfl
  | error e q' =>
      rw [hw] at made
      cases e <;> cases made

/-- What compiling a node makes is told right, and whatever it enters, whether or not it is
refused, is entered for a node that is there. -/
theorem accounts_compileNode (vars : Vars α) {R : Set (Node α)} {n : Node α} (hn : n ∈ R) :
    (compiling vars).Accounts R (compileNode vars n : Compile α κ ρ (Returned κ ρ))
      (compileBirths vars n) fun _ => ∅ := by
  cases n with
  | expr e =>
      exact (accounts_run ((WalkBirths.Account.all vars _).expr hn)).map Returned.expr
        fun _ => subset_rfl
  | constraint c =>
      exact (accounts_run ((WalkBirths.Account.all vars _).constraint hn)).map
        Returned.constraint fun _ => subset_rfl

end ConicModel
