/-
# What construction makes

The births of everything that makes nodes (`making`), whether it is refused or not:

  * an operand that is no expression becomes a constant (`accounts_asExpr`);
  * a product is born after both of its operands (`accounts_makeKron`), also if it is refused
    then;
  * a constraint takes its identity before anything becomes of its operands, so its birth comes
    first, and it is known at the end only whether there is a node to it
    (`accounts_makeConstraint`).  If a number is spread over the shape of the other side, the
    scalar constant and the spread one are both born;
  * an operator makes a constraint where it meets an expression (`makeComparison_of_meets`).
    Where it goes through sequences or arrays it does that with their members, and makes nothing
    else.

`Making` puts all of them together.  A builder makes any number of things, one after another,
and may look at each before it goes on; it is a tree of makings (`Script`).
-/
import ConicModel.Model
import ConicModel.Proofs.Births

namespace ConicModel

variable {α β : Type}

/-- Making things, where the nodes that are there are a roster. -/
def making : Stage α Ledger where
  next := Ledger.nextId
  Fits N l := Roster N l.nextId ∧ 1 ≤ l.nextId

/-! ## Programs that make one thing -/

namespace Make

/-- The birth in a program that takes at most one identity, for what it gives in the end. -/
def birth (node : Id → β → Node α) (f : Make α β) (l : Ledger) : List (Birth α) :=
  if (Outcome.left (f l)).nextId = l.nextId then []
  else [⟨l.nextId, (Outcome.made? (f l)).map (node l.nextId)⟩]

variable {R : Set (Node α)} {f : Make α β} {bs : Ledger → List (Birth α)}
  {gives : β → Set (Node α)} {node : Id → β → Node α}

theorem accounts_of_told (h : ∀ N l, R ⊆ N → Roster N l.nextId → 1 ≤ l.nextId →
    Told N l.nextId (bs l) (Outcome.left (f l)).nextId ∧
    ∀ x l', f l = .ok x l' → AllBorn (bs l) ∧ gives x ⊆ born N (bs l)) :
    making.Accounts R f bs gives := by
  intro N l sub fits
  obtain ⟨told, given⟩ := h N l sub fits.1 fits.2
  exact ⟨told, ⟨told.roster fits.1 fits.2, fits.2.trans told.consecutive.le⟩, given⟩

theorem Still.accounts (h : f.Still) (given : ∀ x, gives x ⊆ R) :
    making.Accounts R f noBirths gives :=
  .quiet (fun N l _ fits => by
    have next : (Outcome.left (f l)).nextId = l.nextId := h l
    refine ⟨next, ?_⟩
    show Roster N _ ∧ 1 ≤ _
    rw [next]
    exact fits) given

theorem birth_of_level {l : Ledger} (h : (Outcome.left (f l)).nextId = l.nextId) :
    f.birth node l = [] := if_pos h

theorem birth_of_taken {l : Ledger} (h : (Outcome.left (f l)).nextId = l.nextId + 1) :
    f.birth node l = [⟨l.nextId, (Outcome.made? (f l)).map (node l.nextId)⟩] :=
  if_neg (h.trans_ne (Int.lt_succ l.nextId).ne')

/-- A program that gives what was there already and takes no identity, or takes one for a node. -/
theorem accounts_birth
    (ok : ∀ N l x l', R ⊆ N → Roster N l.nextId → f l = .ok x l' →
      (l'.nextId = l.nextId ∧ gives x ⊆ R) ∨ (l'.nextId = l.nextId + 1 ∧
        Newborn N l.nextId (node l.nextId x) ∧ gives x ⊆ insert (node l.nextId x) R))
    (error : ∀ l e l', f l = .error e l' → l'.nextId = l.nextId ∨ l'.nextId = l.nextId + 1) :
    making.Accounts R f (f.birth node) gives := by
  refine accounts_of_told fun N l sub roster _ => ?_
  have moved : l.nextId + 1 ≠ l.nextId := (Int.lt_succ l.nextId).ne'
  have next : (Outcome.left (f l)).nextId = l.nextId ∨
      (Outcome.left (f l)).nextId = l.nextId + 1 := by
    cases h : f l with
    | ok x l' => exact (ok N l x l' sub roster h).imp And.left And.left
    | error e l' => exact error l e l' h
  rcases next with level | taken
  · rw [birth_of_level level, level, born_nil]
    refine ⟨.nil N _, fun x l' h => ?_⟩
    rw [h] at level
    rcases ok N l x l' sub roster h with ⟨-, given⟩ | ⟨taken, -⟩
    · exact ⟨.nil, given.trans sub⟩
    · exact (moved (taken.symm.trans level)).elim
  · rw [birth_of_taken taken, taken]
    refine ⟨⟨⟨rfl, rfl⟩, fun b hb n hn => ?_⟩, fun x l' h => ?_⟩
    · rw [List.mem_singleton.mp hb] at hn ⊢
      obtain ⟨x, made, rfl⟩ := Option.map_eq_some_iff.mp hn
      obtain ⟨l', h⟩ := Outcome.made?_eq_some.mp made
      rw [h] at taken
      rcases ok N l x l' sub roster h with ⟨level, -⟩ | ⟨-, newborn, -⟩
      · exact (moved (taken.symm.trans level)).elim
      · exact newborn.mono (subset_born _ _)
    · rw [h] at taken ⊢
      rw [Outcome.made?, Option.map_some, born_cons, born_nil]
      rcases ok N l x l' sub roster h with ⟨level, -⟩ | ⟨-, -, given⟩
      · exact (moved (taken.symm.trans level)).elim
      · exact ⟨.cons .nil _ _, given.trans (Set.insert_subset_insert sub)⟩

end Make

/-! ## Constants and operands -/

variable [Scalar α] {R : Set (Node α)}

/-- The birth of a constant. -/
def constantBirths (vars : Vars α) (d : Input α) (sign : Option Sign) :
    Ledger → List (Birth α) :=
  (makeConstant vars d sign).birth fun _ c => .expr (.const c)

theorem accounts_makeConstant (vars : Vars α) (d : Input α) (sign : Option Sign) :
    making.Accounts R (makeConstant vars d sign) (constantBirths vars d sign)
      fun c => {.expr (.const c)} := by
  refine Make.accounts_birth (fun N l c l' _ _ h => .inr ?_) fun l e l' h => .inr ?_
  · obtain ⟨rfl, a, A, -, -, rfl⟩ := makeConstant_ok h
    exact ⟨rfl, .const rfl, Set.singleton_subset_iff.mpr (Set.mem_insert _ _)⟩
  · have next := next_makeConstant vars d sign l
    rwa [h] at next

/-- The birth of the constant that an operand becomes, unless it is an expression. -/
def operandBirths (vars : Vars α) (d : Input α) : Ledger → List (Birth α) :=
  (asExpr vars d).birth fun _ e => .expr e

theorem next_asExpr (vars : Vars α) (d : Input α) (l : Ledger) :
    (Outcome.left (asExpr vars d l)).nextId = l.nextId ∨
      (Outcome.left (asExpr vars d l)).nextId = l.nextId + 1 := by
  unfold asExpr
  split
  · exact .inl rfl
  all_goals first
    | exact .inl rfl
    | exact .inr ((congrArg Ledger.nextId (Outcome.left_map _ _ l)).trans
        (next_makeConstant vars _ none l))

theorem accounts_asExpr (vars : Vars α) {d : Input α} (hd : Offers R d) :
    making.Accounts R (asExpr vars d) (operandBirths vars d) fun e => {.expr e} := by
  refine Make.accounts_birth (fun N l e l' _ _ h => ?_) fun l e l' h => ?_
  · rcases asExpr_ok h with ⟨⟨s, rfl⟩, rfl⟩ | ⟨c, rfl, made⟩
    · exact .inl ⟨rfl, Set.singleton_subset_iff.mpr (hd s e rfl)⟩
    · obtain ⟨rfl, a, A, -, -, rfl⟩ := makeConstant_ok made
      exact .inr ⟨rfl, .const rfl, Set.singleton_subset_iff.mpr (Set.mem_insert _ _)⟩
  · have next := next_asExpr vars d l
    rwa [h] at next

/-! ## Products -/

/-- The product of two expressions. -/
def kronOf (vars : Vars α) (x y : Expr α) : Make α (Expr α) := do
  let id ← Make.freshId
  if (← Make.trust (x.verdict vars)) = .constant then pure (.kron id x y) else throw .kronLeft

/-- The births of a product: first those of its operands. -/
def kronBirths (vars : Vars α) (a b : Input α) (l : Ledger) : List (Birth α) :=
  operandBirths vars a l ++ Outcome.onward (asExpr vars a l) fun x l =>
    operandBirths vars b l ++ Outcome.onward (asExpr vars b l) fun y =>
      (kronOf vars x y).birth fun _ e => .expr e

omit [Scalar α] in
theorem accounts_kronOf (vars : Vars α) {x y : Expr α} (hx : .expr x ∈ R) (hy : .expr y ∈ R) :
    making.Accounts R (kronOf vars x y) ((kronOf vars x y).birth fun _ e => .expr e)
      fun e => {.expr e} := by
  have taken (l : Ledger) : (Outcome.left (kronOf vars x y l)).nextId = l.nextId + 1 := by
    refine Make.next_bind_still (fun id => ?_) l
    refine (Make.still_trust _).bind fun v => ?_
    split
    · exact .pure _
    · exact .throw _
  refine Make.accounts_birth (fun N l e l' sub roster h => .inr ?_) fun l e l' h => .inr ?_
  · have next := taken l
    rw [h] at next
    obtain ⟨id, l₁, hid, rest⟩ := Outcome.bind_ok.mp h
    obtain ⟨v, l₂, -, checked⟩ := Outcome.bind_ok.mp rest
    obtain ⟨rfl, -⟩ := freshId_ok hid
    split at checked
    · obtain ⟨rfl, -⟩ := Outcome.pure_ok.mp checked
      have newborn := Newborn.kron (sub hx) (sub hy) (roster.lt _ (sub hx)) (roster.lt _ (sub hy))
      exact ⟨next, newborn, Set.singleton_subset_iff.mpr (Set.mem_insert _ _)⟩
    · exact (Outcome.throw_ok.mp checked).elim
  · have next := taken l
    rwa [h] at next

theorem accounts_makeKron (vars : Vars α) {a b : Input α} (ha : Offers R a) (hb : Offers R b) :
    making.Accounts R (makeKron vars a b) (kronBirths vars a b) fun e => {.expr e} :=
  (accounts_asExpr vars ha).bind fun _ =>
    (accounts_asExpr vars (hb.mono Set.subset_union_left)).bind fun _ =>
      accounts_kronOf vars (.inl (.inr rfl)) (.inr rfl)

/-! ## Constraints -/

/-- The birth of the constant that is spread, which is on one of the sides then. -/
def broadcastBirths (x y : Expr α) : Ledger → List (Birth α) :=
  (broadcast x y).birth fun i p => .expr (if p.1.id = i then p.1 else p.2)

theorem broadcast_error {x y : Expr α} {l l' : Ledger} {f : Fault α}
    (h : broadcast x y l = .error f l') : l' = l := by
  have spread {c : Constant α} {shape : Nat × Nat} {g : Constant α → Expr α × Expr α}
      (h : (do let d ← c.spread shape; pure (g d) : Make α (Expr α × Expr α)) l
        = .error f l') : l' = l := by
    rcases Outcome.bind_error.mp h with h | ⟨d, l₁, -, h⟩
    · cases h
    · exact (Outcome.pure_error.mp h).elim
  have refused {β : Type} {e : Fault α} (h : (throw e : Make α β) l = .error f l') : l' = l :=
    (Outcome.throw_error.mp h).2.symm
  unfold broadcast at h
  split at h
  · exact (Outcome.pure_error.mp h).elim
  · split at h
    · split at h
      · exact spread h
      · split at h
        · split at h
          · exact spread h
          · exact refused h
        · exact refused h
    · split at h
      · exact spread h
      · exact refused h
    · exact refused h

theorem accounts_broadcast {x y : Expr α} (hx : .expr x ∈ R) (hy : .expr y ∈ R) :
    making.Accounts R (broadcast x y) (broadcastBirths x y) fun p => {.expr p.1, .expr p.2} := by
  refine Make.accounts_birth (fun N l p l' sub roster h => ?_) fun l e l' h => .inl ?_
  · obtain ⟨x', y'⟩ := p
    obtain ⟨-, ⟨rfl, rfl, rfl⟩ | ⟨rfl, k, k', -, -, hk, rfl⟩ | ⟨rfl, k, k', -, -, hk, rfl⟩⟩ :=
      broadcast_ok h
    · exact .inl ⟨rfl, Set.pair_subset hx hy⟩
    · obtain ⟨rfl, rfl⟩ := spread_ok hk
      have old : x'.id ≠ l.nextId := (roster.lt _ (sub hx)).ne
      refine .inr ⟨rfl, ?_⟩
      dsimp only
      rw [if_neg old]
      exact ⟨.const rfl, Set.pair_subset (.inr hx) (.inl rfl)⟩
    · obtain ⟨rfl, made⟩ := spread_ok hk
      have new : (Expr.const k').id = l.nextId := congrArg Constant.id made
      refine .inr ⟨rfl, ?_⟩
      dsimp only
      rw [if_pos new]
      exact ⟨.const new, Set.pair_subset (.inl rfl) (.inr hy)⟩
  · rw [broadcast_error h]

/-- Two operands become the sides of a constraint. -/
def makeSides (vars : Vars α) (dl dr : Input α) : Make α (Expr α × Expr α) := do
  let x ← asExpr vars dl
  let y ← asExpr vars dr
  broadcast x y

/-- The births of the sides of a constraint. -/
def sidesBirths (vars : Vars α) (dl dr : Input α) (l : Ledger) : List (Birth α) :=
  operandBirths vars dl l ++ Outcome.onward (asExpr vars dl l) fun x l =>
    operandBirths vars dr l ++ Outcome.onward (asExpr vars dr l) fun y => broadcastBirths x y

/-- The births of a constraint: its own, and then those of its sides. -/
def constraintBirths (vars : Vars α) (relation : Relation) (dl dr : Input α) (l : Ledger) :
    List (Birth α) :=
  ⟨l.nextId, (Outcome.made? (makeConstraint vars relation dl dr l)).map .constraint⟩ ::
    sidesBirths vars dl dr { l with nextId := l.nextId + 1 }

theorem accounts_makeSides (vars : Vars α) {dl dr : Input α} (hl : Offers R dl)
    (hr : Offers R dr) : making.Accounts R (makeSides vars dl dr) (sidesBirths vars dl dr)
      fun p => {.expr p.1, .expr p.2} :=
  (accounts_asExpr vars hl).bind fun _ =>
    (accounts_asExpr vars (hr.mono Set.subset_union_left)).bind fun _ =>
      accounts_broadcast (.inl (.inr rfl)) (.inr rfl)

theorem makeConstraint_eq (vars : Vars α) (relation : Relation) (dl dr : Input α) :
    makeConstraint vars relation dl dr = (do
      let id ← Make.freshId
      let p ← makeSides vars dl dr
      checkSides vars ⟨id, relation, p.1, p.2⟩) := by
  simp only [makeConstraint, makeSides, bind_assoc]

theorem accounts_makeConstraint (vars : Vars α) (relation : Relation) {dl dr : Input α}
    (hl : Offers R dl) (hr : Offers R dr) :
    making.Accounts R (makeConstraint vars relation dl dr)
      (constraintBirths vars relation dl dr) fun c => {.constraint c} := by
  refine Make.accounts_of_told fun N l sub roster pos => ?_
  let l₁ : Ledger := { l with nextId := l.nextId + 1 }
  have later : l.nextId ≤ l₁.nextId := (Int.lt_succ l.nextId).le
  obtain ⟨told, -, given⟩ := accounts_makeSides vars hl hr N l₁ sub
    ⟨roster.mono later, pos.trans later⟩
  have next : (Outcome.left (makeConstraint vars relation dl dr l)).nextId
      = (Outcome.left (makeSides vars dl dr l₁)).nextId := by
    rw [makeConstraint_eq]
    refine Make.next_bind_still (fun p : Expr α × Expr α => ?_) l₁
    exact still_checkSides vars ⟨l.nextId, relation, p.1, p.2⟩
  have sides {c : Constraint α} {l' : Ledger}
      (h : makeConstraint vars relation dl dr l = .ok c l') :
      c.id = l.nextId ∧ c.lhs.shape = c.rhs.shape ∧
        makeSides vars dl dr l₁ = .ok (c.lhs, c.rhs) l' := by
    obtain ⟨hid, -, x, y, l₂, l₃, hx, hy, hxy, -⟩ := makeConstraint_steps h
    refine ⟨hid, (broadcast_ok hxy).1, ?_⟩
    rw [makeSides, Outcome.bind_of_ok hx, Outcome.bind_of_ok hy, hxy]
  rw [next]
  refine ⟨told.cons fun n hn => ?_, fun c l' h => ?_⟩
  · obtain ⟨c, made, rfl⟩ := Option.map_eq_some_iff.mp hn
    obtain ⟨l', h⟩ := Outcome.made?_eq_some.mp made
    obtain ⟨hid, shapes, made⟩ := sides h
    obtain ⟨-, there⟩ := given _ _ made
    exact .constraint hid (there (.inl rfl)) (there (.inr rfl)) shapes
  · obtain ⟨-, -, made⟩ := sides h
    rw [constraintBirths, h, Outcome.made?, Option.map_some, born_cons]
    exact ⟨(given _ _ made).1.cons _ _, fun n hn => .inl (.inl hn)⟩

/-- The births of the constraint that a sign stands for. -/
def signBirths (vars : Vars α) (e : Expr α) : Ledger → List (Birth α) :=
  match e.sign vars with
  | .positive => constraintBirths vars .atLeast (.thing 0 (.expr e)) (.ofInt 0)
  | .negative => constraintBirths vars .atMost (.thing 0 (.expr e)) (.ofInt 0)
  | .noSign | .complex => noBirths

theorem accounts_signConstraint (vars : Vars α) {e : Expr α} (he : .expr e ∈ R) :
    making.Accounts R (signConstraint vars e) (signBirths vars e) fun c => {.constraint c} := by
  have offers : Offers R (.thing 0 (.expr e)) := Roster.offers_expr he
  have zero : Offers R (.ofInt 0) := Roster.offers_int R 0
  unfold signConstraint constraintOfSign signBirths
  cases e.sign vars with
  | positive => exact accounts_makeConstraint vars .atLeast offers zero
  | negative => exact accounts_makeConstraint vars .atMost offers zero
  | noSign | complex => exact .throw _

/-! ## Operators -/

/-- The constraint that a question makes where it meets an expression: it is written from the
point of view of the expression, of the left one if there are two. -/
def Question.sides (q : Question) (l r : Input α) : Relation × Input α × Input α :=
  match l with
  | .thing _ (.expr _) => (q.relation, l, r)
  | _ => (q.flip.relation, r, l)

/-- The constraint that an operator makes where it meets an expression. -/
def Comparison.sides (op : Comparison) (l r : Input α) : Relation × Input α × Input α :=
  match op with
  | ge => Question.ge.sides l r
  | le => Question.le.sides l r
  | eq => Question.eq.sides l r
  | above => (.semidefinite, l, r)
  | below => (.semidefinite, r, l)

/-- Whether an operator meets an expression, on one of its sides at least. -/
def Comparison.Meets (l r : Input α) : Prop :=
  (∃ s e, l = .thing s (.expr e)) ∨ ∃ s e, r = .thing s (.expr e)

omit [Scalar α] in
theorem Comparison.offers_sides {N : Set (Node α)} {l r : Input α} (hl : Offers N l)
    (hr : Offers N r) (op : Comparison) :
    Offers N (op.sides l r).2.1 ∧ Offers N (op.sides l r).2.2 := by
  have question (q : Question) : Offers N (q.sides l r).2.1 ∧ Offers N (q.sides l r).2.2 := by
    unfold Question.sides
    split
    · exact ⟨hl, hr⟩
    · exact ⟨hr, hl⟩
  cases op with
  | ge | le | eq => exact question _
  | above => exact ⟨hl, hr⟩
  | below => exact ⟨hr, hl⟩

theorem compare_of_meets (vars : Vars α) (q : Question) {l r : Input α}
    (meets : Comparison.Meets l r) : Datum.compare vars q l r
      = relate vars (q.sides l r).1 (q.sides l r).2.1 (q.sides l r).2.2 := by
  by_cases left : ∃ s e, l = .thing s (.expr e)
  · obtain ⟨s, e, rfl⟩ := left
    rfl
  · obtain ⟨s, e, rfl⟩ := meets.resolve_left left
    unfold Datum.compare Datum.compareWithin
    cases l with
    | thing t x =>
        cases x with
        | expr e' => exact (left ⟨t, e', rfl⟩).elim
        | _ => rfl
    | _ => rfl

theorem shift_of_meets (vars : Vars α) (left : Bool) {l r : Input α}
    (meets : Comparison.Meets l r) : Datum.shift vars left l r
      = if left then relate vars .semidefinite r l else relate vars .semidefinite l r := by
  rcases meets with ⟨s, e, rfl⟩ | ⟨s, e, rfl⟩
  · rfl
  · unfold Datum.shift Datum.shiftWithin
    cases l with
    | thing t x => cases x <;> rfl
    | _ => rfl

/-- Where an operator meets an expression it makes one constraint. -/
theorem makeComparison_of_meets (vars : Vars α) (op : Comparison) {l r : Input α}
    (meets : Comparison.Meets l r) : makeComparison vars op l r
      = relate vars (op.sides l r).1 (op.sides l r).2.1 (op.sides l r).2.2 := by
  cases op with
  | ge | le | eq => exact compare_of_meets vars _ meets
  | above | below => exact shift_of_meets vars _ meets

/-! ## Everything that is made -/

/-- What can be asked to be made: a constant, what an operand becomes, a product, a constraint by
its relation or by an operator, the sides of a constraint, or the constraint of a sign. -/
inductive Making (α : Type) where
  | constant (d : Input α) (sign : Option Sign)
  | operand (d : Input α)
  | kron (a b : Input α)
  | constraint (relation : Relation) (dl dr : Input α)
  | comparison (op : Comparison) (l r : Input α)
  | broadcast (x y : Expr α)
  | sign (e : Expr α)

/-- The constraint that a datum is. -/
def Datum.constraints : Input α → List (Node α)
  | .thing _ (.constraint c) => [.constraint c]
  | _ => []

namespace Making

/-- Make it; what is given are nodes. -/
def run (vars : Vars α) : Making α → Make α (List (Node α))
  | constant d s => (fun c => [.expr (.const c)]) <$> makeConstant vars d s
  | operand d => (fun e => [.expr e]) <$> asExpr vars d
  | kron a b => (fun e => [.expr e]) <$> makeKron vars a b
  | constraint relation dl dr => (fun c => [.constraint c]) <$> makeConstraint vars relation dl dr
  | comparison op l r => Datum.constraints <$> makeComparison vars op l r
  | broadcast x y => (fun p => [.expr p.1, .expr p.2]) <$> ConicModel.broadcast x y
  | sign e => (fun c => [.constraint c]) <$> signConstraint vars e

/-- What is born, also if it is refused. -/
def births (vars : Vars α) : Making α → Ledger → List (Birth α)
  | constant d s => constantBirths vars d s
  | operand d => operandBirths vars d
  | kron a b => kronBirths vars a b
  | constraint relation dl dr => constraintBirths vars relation dl dr
  | comparison op l r =>
    constraintBirths vars (op.sides l r).1 (op.sides l r).2.1 (op.sides l r).2.2
  | broadcast x y => broadcastBirths x y
  | sign e => signBirths vars e

omit [Scalar α] in
/-- Operands that are expressions are there, and an operator meets one. -/
def Offered (N : Set (Node α)) : Making α → Prop
  | constant .. => True
  | operand d => Offers N d
  | kron a b => Offers N a ∧ Offers N b
  | constraint _ dl dr => Offers N dl ∧ Offers N dr
  | comparison _ l r => Comparison.Meets l r ∧ Offers N l ∧ Offers N r
  | broadcast x y => .expr x ∈ N ∧ .expr y ∈ N
  | sign e => .expr e ∈ N

/-- An operator gives the constraint that it makes. -/
theorem run_comparison (vars : Vars α) (op : Comparison) {l r : Input α}
    (meets : Comparison.Meets l r) : (comparison op l r).run vars =
      (constraint (op.sides l r).1 (op.sides l r).2.1 (op.sides l r).2.2).run vars := by
  show Datum.constraints <$> makeComparison vars op l r
    = (fun c => [.constraint c]) <$> makeConstraint vars _ _ _
  rw [makeComparison_of_meets vars op meets, relate, bind_pure_comp, ← comp_map]
  rfl

theorem accounts (vars : Vars α) {g : Making α} (offered : g.Offered R) :
    making.Accounts R (g.run vars) (g.births vars) fun ns => {n | n ∈ ns} := by
  have one {n : Node α} : {m | m ∈ [n]} ⊆ ({n} : Set (Node α)) := fun m hm =>
    List.mem_singleton.mp hm
  have constraint (relation : Relation) {dl dr : Input α} (hl : Offers R dl) (hr : Offers R dr) :
      making.Accounts R ((constraint relation dl dr).run vars)
        (constraintBirths vars relation dl dr) fun ns => {n | n ∈ ns} :=
    (accounts_makeConstraint vars relation hl hr).map (fun c => [Node.constraint c])
      fun _ => one
  cases g with
  | constant d s =>
      exact (accounts_makeConstant vars d s).map (fun c => [Node.expr (.const c)]) fun _ => one
  | operand d => exact (accounts_asExpr vars offered).map (fun e => [Node.expr e]) fun _ => one
  | kron a b =>
      exact (accounts_makeKron vars offered.1 offered.2).map (fun e => [Node.expr e]) fun _ => one
  | constraint relation dl dr => exact constraint relation offered.1 offered.2
  | comparison op l r =>
      obtain ⟨meets, hl, hr⟩ := offered
      rw [run_comparison vars op meets]
      obtain ⟨first, second⟩ := op.offers_sides hl hr
      exact constraint _ first second
  | broadcast x y =>
      refine (accounts_broadcast offered.1 offered.2).map
        (fun p => [Node.expr p.1, Node.expr p.2]) fun p n hn => ?_
      rcases List.mem_cons.mp hn with rfl | hn
      · exact .inl rfl
      · exact .inr (List.mem_singleton.mp hn)
  | sign e =>
      exact (accounts_signConstraint vars offered).map (fun c => [Node.constraint c])
        fun _ => one

end Making

/-! ## Builders -/

/-- What makes something to attach: it may make one thing after another, where what comes next
depends on what was made, and may be refused for a reason of its own. -/
inductive Script (α : Type) where
  | give (item : Attached α)
  | refuse (f : Fault α)
  | make (g : Making α) (next : List (Node α) → Script α)

namespace Script

def run (vars : Vars α) : Script α → Make α (Attached α)
  | give item => pure item
  | refuse f => throw f
  | make g next => g.run vars >>= fun ns => (next ns).run vars

def births (vars : Vars α) : Script α → Ledger → List (Birth α)
  | give _ | refuse _ => noBirths
  | make g next => fun l =>
    g.births vars l ++ Outcome.onward (g.run vars l) fun ns => (next ns).births vars

omit [Scalar α] in
/-- Whatever is used on the way is there, or was made on the way. -/
def Offered (N : Set (Node α)) : Script α → Prop
  | give item => ∀ n, item = .node n → n ∈ N
  | refuse _ => True
  | make g next => g.Offered N ∧ ∀ ns, (next ns).Offered (N ∪ {n | n ∈ ns})

theorem accounts (vars : Vars α) {s : Script α} {R : Set (Node α)} (offered : s.Offered R) :
    making.Accounts R (s.run vars) (s.births vars) fun item => {n | item = .node n} := by
  induction s generalizing R with
  | give item => exact .pure fun n hn => offered n hn
  | refuse f => exact .throw f
  | make g next ih => exact (g.accounts vars offered.1).bind fun ns => ih ns (offered.2 ns)

/-- The script that makes one thing and gives it. -/
def only (g : Making α) : Script α :=
  make g fun ns => ns.head?.elim (refuse .unbound) fun n => give (.node n)

omit [Scalar α] in
theorem offered_only {N : Set (Node α)} {g : Making α} (offered : g.Offered N) :
    (only g).Offered N := by
  refine ⟨offered, fun ns => ?_⟩
  cases ns with
  | nil => trivial
  | cons n ns =>
      intro m hm
      cases hm
      exact .inr List.mem_cons_self

end Script

/-- A builder that goes by a script. -/
abbrev Draft (α : Type) := Variable → Vars α → Script α

namespace Draft

def builder (s : Draft α) : Builder α := fun x vars => (s x vars).run vars

omit [Scalar α] in
/-- The variable may be used, what was there before, and what is attached to the variable by
then. -/
def Offered (N : Set (Node α)) (s : Draft α) : Prop :=
  ∀ x vars, (s x vars).Offered {n | n ∈ N ∨ n = .expr (.var x) ∨ .node n ∈ (vars.state x).attached}

/-- The draft of `x ⪰ 0`. -/
def semidefinite : Draft α := fun x _ =>
  .only (.constraint .semidefinite (.thing 0 (.expr (.var x))) (.ofInt 0))

theorem builder_semidefinite :
    (semidefinite : Draft α).builder = VariableSpec.semidefinite := by
  funext x vars
  show ((fun c => [Node.constraint c]) <$> makeConstraint vars _ _ _) >>= _ = _
  rw [bind_map_left]
  rfl

omit [Scalar α] in
theorem offered_semidefinite (N : Set (Node α)) : (semidefinite : Draft α).Offered N :=
  fun _ _ => Script.offered_only
    ⟨Roster.offers_expr (.inr (.inl rfl)), Roster.offers_int _ 0⟩

end Draft

end ConicModel
