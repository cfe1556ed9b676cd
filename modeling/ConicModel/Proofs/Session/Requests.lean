/-
# Requests and what they leave

A request can be refused at any point, and what was done up to there stays done: a
declaration has entered and registered its variable before the builders run, a loading has
written the places before the one that it stops at.  A run is therefore a sequence of
requests of which each starts from what the one before has *left*, refused or not
(`Ensemble.after`).

Next to the session's model an `Ensemble` has the variables made in it.  A declaration
registers its variable first of all, so what is registered was made, whatever has become of
the rest of the declaration.  What a request may speak of (`Ensemble.Admits`) is only limited
where it hands over a variable, which has to be one of those; the data and nodes in a request
are arbitrary, and so are builders, except that no program of the library gives an identity
back.

Most requests change no value and fix and free nothing (`Model.Undisturbed`).
-/
import Mathlib.Logic.Relation
import ConicModel.Proofs.Advance
import ConicModel.Proofs.Compile.Refusal
import ConicModel.Proofs.Solution.Atomicity

namespace ConicModel

variable {α : Type}

/-! ## Requests -/

/-- What can be asked of one variable. -/
inductive Alteration (α : Type) where
  | assign (d : Input α)
  | fix
  | fixAt (d : Input α)
  | free
  | sign (s : Sign)
  | kind (k : VarKind)
  | attached (items : List (Attached α))

/-- What can be asked of a session. -/
inductive Request (α : Type) where
  /-- To make something or to show something: a constant, a product, a constraint, a
  comparison, or anything else that takes identities and gives notice at most. -/
  | make (f : Vars α → Make α Unit)
  | declare (spec : VariableSpec α) (builders : List (Builder α))
  | alter (x : Variable) (a : Alteration α)
  | register (name : ContextName) (n : Node α)
  | clear (name : ContextName)
  | setCurrent (name : ContextName)
  | load (name : ContextName) (d : Input α) (layout : Layout)
  /-- To compile, into a cache with whatever in it. -/
  | compile (n : Node α) (cache : Cache (Objective α) (Record α))

section

variable [Scalar α]

/-- Alter the state of a variable. -/
def Alteration.run (x : Variable) (vars : Vars α) : Alteration α → Make α (Vars α)
  | assign d => vars.assign x d
  | fix => vars.fix x
  | fixAt d => vars.fixAt x d
  | free => pure (vars.free x)
  | sign s => pure (vars.change x fun st => { st with sign := s })
  | kind k => pure (vars.change x fun st => { st with kind := k })
  | attached items => pure (vars.change x fun st => { st with attached := items })

/-- Compile in a session. -/
def Work.compile (n : Node α) (cache : Cache (Objective α) (Record α)) : Work α Unit := fun m =>
  match compileNode m.vars n ⟨m.ledger, cache⟩ with
  | .ok _ q => .ok () { m with ledger := q.ledger }
  | .error f q => .error f { m with ledger := q.ledger }

/-- Do what is asked. -/
def Request.run : Request α → Work α Unit
  | make f => Work.make f
  | declare spec builders => discard (spec.declare builders)
  | alter x a => Work.changeVars fun vars => a.run x vars
  | register name n => Model.register name n
  | clear name => Model.clear name
  | setCurrent name => discard (Model.setCurrent name)
  | load name d layout => Model.loadSolution name d layout
  | compile n cache => Work.compile n cache

end

/-! ## Runs -/

/-- A session's model and the variables made in it. -/
structure Ensemble (α : Type) where
  model : Model α := {}
  made : Set Variable := ∅

/-- Some registry holds a variable. -/
def Model.Registers (m : Model α) (x : Variable) : Prop :=
  ∃ c ∈ m.contexts, Node.expr (.var x) ∈ c.2

namespace Ensemble

/-- What a request leaves, refused or not. -/
def after [Scalar α] (e : Ensemble α) (r : Request α) : Ensemble α where
  model := Outcome.left (r.run e.model)
  made := {x | x ∈ e.made ∨ (Outcome.left (r.run e.model)).Registers x}

/-- Variables that are handed over were made, and no identity is given back. -/
def Admits (e : Ensemble α) : Request α → Prop
  | .make f => ∀ vars, (f vars).Advances
  | .declare _ builders => ∀ b ∈ builders, ∀ x vars, Make.Advances (b x vars)
  | .alter x _ => x ∈ e.made
  | .register _ (.expr (.var x)) => x ∈ e.made
  | _ => True

/-- Whatever the library makes can be asked for. -/
theorem admits_making [Scalar α] (e : Ensemble α) :
    (∀ d sign, e.Admits (.make fun vars => discard (makeConstant vars d sign))) ∧
    (∀ a b, e.Admits (.make fun vars => discard (makeKron vars a b))) ∧
    (∀ relation l r, e.Admits (.make fun vars => discard (makeConstraint vars relation l r))) ∧
    (∀ op l r, e.Admits (.make fun vars => discard (makeComparison vars op l r))) ∧
    (∀ x, e.Admits (.make fun vars => discard (signConstraint vars x))) ∧
    ∀ hermitian m n,
      e.Admits (.make fun vars => discard (VariableSpec.squareShape vars hermitian m n)) :=
  ⟨fun d sign vars => (advances_makeConstant vars d sign).discard,
    fun a b vars => (advances_makeKron vars a b).discard,
    fun relation l r vars => (advances_makeConstraint vars relation l r).discard,
    fun op l r vars => (advances_makeComparison vars op l r).discard,
    fun x vars => (advances_signConstraint vars x).discard,
    fun hermitian m n vars => (VariableSpec.advances_squareShape vars hermitian m n).discard⟩

/-- A request and what it leaves. -/
def Turn [Scalar α] (e e' : Ensemble α) : Prop := ∃ r, e.Admits r ∧ e' = e.after r

/-- Any number of requests. -/
abbrev Course [Scalar α] : Ensemble α → Ensemble α → Prop := Relation.ReflTransGen Turn

end Ensemble

/-! ## What disturbs no variable -/

/-- No variable has another value, and none was fixed or freed. -/
structure Model.Undisturbed (m m' : Model α) : Prop where
  value : ∀ y, (m'.vars.state y).value = (m.vars.state y).value
  fixed : ∀ y, (m'.vars.state y).fixed = (m.vars.state y).fixed
  before : m.ledger.Before m'.ledger

/-- No variable was entered or registered but one. -/
structure Model.Enrolled (x : Variable) (m m' : Model α) : Prop where
  ids : m'.vars.ids = m.vars.ids
  registers : ∀ y, m'.Registers y → m.Registers y ∨ y = x

namespace Model

/-- Giving a registry other contents registers those at most. -/
theorem registers_setContext {m : Model α} {name : ContextName} {xs : List (Node α)}
    {y : Variable} (h : (m.setContext name xs).Registers y) :
    .expr (.var y) ∈ xs ∨ m.Registers y := by
  obtain ⟨c, hc, hy⟩ := h
  rcases mem_setContext hc with rfl | hc
  · exact .inl hy
  · exact .inr ⟨c, hc, hy⟩

theorem left_register (name : ContextName) (n : Node α) (m : Model α) :
    Outcome.left (register name n m) = m ∨
      Outcome.left (register name n m) = m.setContext name (m.context name ++ [n]) := by
  unfold register
  split
  · exact .inl rfl
  · exact .inr rfl

theorem mem_context_setContext (m : Model α) (name : ContextName) (xs : List (Node α)) :
    (name, xs) ∈ (m.setContext name xs).contexts := by
  unfold setContext
  split
  · rename_i some_entry
    obtain ⟨c, hc, hname⟩ := List.any_eq_true.mp some_entry
    exact List.mem_map.mpr ⟨c, hc, if_pos (of_decide_eq_true hname)⟩
  · exact List.mem_append_right _ (List.mem_singleton_self _)

/-- What was registered is held. -/
theorem registers_of_register {name : ContextName} {x : Variable} {m m' : Model α}
    (h : register name (.expr (.var x)) m = .ok () m') : m'.Registers x := by
  unfold register at h
  split at h
  · cases h
  · cases h
    exact ⟨_, mem_context_setContext m name _,
      List.mem_append_right _ (List.mem_singleton_self _)⟩

theorem vars_left_register (name : ContextName) (n : Node α) (m : Model α) :
    (Outcome.left (register name n m)).vars = m.vars := by
  rcases left_register name n m with same | added
  · rw [same]
  · rw [added]
    exact (m.setContext_vars _ _).1

theorem registers_left_register {name : ContextName} {n : Node α} {m : Model α} {y : Variable}
    (h : (Outcome.left (register name n m)).Registers y) :
    m.Registers y ∨ n = .expr (.var y) := by
  rcases left_register name n m with same | added
  · rw [same] at h
    exact .inl h
  · rw [added] at h
    rcases registers_setContext h with h | h
    · rcases List.mem_append.mp h with h | h
      · exact .inl (exists_of_mem_context h)
      · exact .inr (List.mem_singleton.mp h).symm
    · exact .inl h

namespace Undisturbed

variable {m m' : Model α}

theorem of_vars (vars : m'.vars = m.vars) (before : m.ledger.Before m'.ledger) :
    m.Undisturbed m' where
  value y := by rw [vars]
  fixed y := by rw [vars]
  before := before

instance : IsPreorder (Model α) Undisturbed where
  refl m := of_vars rfl (refl_of Ledger.Before m.ledger)
  trans _ _ _ h h' := {
    value y := (h'.value y).trans (h.value y)
    fixed y := (h'.fixed y).trans (h.fixed y)
    before := trans_of Ledger.Before h.before h'.before }

theorem setContext (m : Model α) (name : ContextName) (xs : List (Node α)) :
    m.Undisturbed (m.setContext name xs) := by
  obtain ⟨vars, ledger⟩ := m.setContext_vars name xs
  exact .of_vars vars (ledger ▸ refl_of Ledger.Before m.ledger)

theorem change {m : Model α} {x : Variable} {f : VarState α → VarState α} {l : Ledger}
    (value : ∀ s, (f s).value = s.value) (fixed : ∀ s, (f s).fixed = s.fixed)
    (before : m.ledger.Before l) :
    m.Undisturbed { m with vars := m.vars.change x f, ledger := l } where
  value y := by
    rcases m.vars.state_change x y f with same | changed
    · exact congrArg VarState.value same
    · exact (congrArg VarState.value changed).trans (value _)
  fixed y := by
    rcases m.vars.state_change x y f with same | changed
    · exact congrArg VarState.fixed same
    · exact (congrArg VarState.fixed changed).trans (fixed _)
  before := before

/-- What is entered has no value and is free. -/
theorem enter {m : Model α} {i : Id} {sign : Sign} {kind : VarKind} {l : Ledger}
    (before : m.ledger.Before l) : m.Undisturbed { m with
      vars := m.vars.push i { sign := sign, kind := kind }, ledger := l } where
  value y := by
    rcases m.vars.state_push i { sign := sign, kind := kind } y with same | ⟨none, new⟩
    · exact congrArg VarState.value same
    · exact (congrArg VarState.value new).trans (congrArg VarState.value none).symm
  fixed y := by
    rcases m.vars.state_push i { sign := sign, kind := kind } y with same | ⟨none, new⟩
    · exact congrArg VarState.fixed same
    · exact (congrArg VarState.fixed new).trans (congrArg VarState.fixed none).symm
  before := before

end Undisturbed

theorem undisturbed_register (name : ContextName) (n : Node α) :
    Outcome.Keeps Undisturbed (register name n) := by
  intro m
  rcases left_register name n m with same | added
  · rw [same]
    exact refl_of Undisturbed m
  · rw [added]
    exact .setContext ..

namespace Enrolled

instance (x : Variable) : IsPreorder (Model α) (Enrolled x) where
  refl _ := ⟨rfl, fun _ hy => .inl hy⟩
  trans _ _ _ h h' := ⟨h'.ids.trans h.ids, fun y hy =>
    (h'.registers y hy).elim (h.registers y) .inr⟩

end Enrolled

theorem enrolled_register (x : Variable) :
    Outcome.Keeps (Enrolled x) (register (α := α) x.home (.expr (.var x))) := by
  intro m
  refine ⟨congrArg Table.ids (vars_left_register ..), fun y hy => ?_⟩
  refine (registers_left_register hy).imp_right fun h => ?_
  cases h
  rfl

end Model

namespace Work

theorem left_make {β : Type} (f : Vars α → Make α β) (m : Model α) :
    Outcome.left (make f m) = { m with ledger := Outcome.left (f m.vars m.ledger) } := by
  unfold make
  cases f m.vars m.ledger <;> rfl

theorem left_changeVars (f : Vars α → Make α (Vars α)) (m : Model α) :
    (∃ vars l, f m.vars m.ledger = .ok vars l ∧
      Outcome.left (changeVars f m) = { m with vars := vars, ledger := l }) ∨
    Outcome.left (changeVars f m) = { m with ledger := Outcome.left (f m.vars m.ledger) } := by
  unfold changeVars
  cases f m.vars m.ledger with
  | ok vars l => exact .inl ⟨vars, l, rfl, rfl⟩
  | error e l => exact .inr rfl

theorem keeps_make {β : Type} {f : Vars α → Make α β} (h : ∀ vars, (f vars).Advances) :
    Outcome.Keeps Model.Undisturbed (make f) := by
  intro m
  rw [left_make]
  exact .of_vars rfl (h m.vars m.ledger)

/-- Compiling takes identities at most. -/
theorem left_compile [Scalar α] (n : Node α) (cache : Cache (Objective α) (Record α))
    (m : Model α) : ∃ l, m.ledger.Before l ∧
      Outcome.left (compile n cache m) = { m with ledger := l } := by
  unfold compile
  cases h : compileNode m.vars n ⟨m.ledger, cache⟩ with
  | ok x q => exact ⟨q.ledger, (Run.cons_of_compileNode h .nil).1.grows.next, rfl⟩
  | error f q => exact ⟨q.ledger, (refused_of_compileNode h).grows.next, rfl⟩

end Work

/-! ### Declarations -/

namespace VariableSpec

/-- Attaching adds to what is attached to one variable. -/
theorem left_attach {x : Variable} {b : Builder α} (hb : ∀ vars, Make.Advances (b x vars))
    (m : Model α) : ∃ vars l, m.ledger.Before l ∧
      Outcome.left (attach x b m) = { m with vars := vars, ledger := l } ∧
      (vars = m.vars ∨ ∃ item, vars = m.vars.change x fun s =>
        { s with attached := s.attached ++ [item] }) := by
  have advances : Make.Advances (do
      let item ← b x m.vars
      pure (m.vars.change x fun s => { s with attached := s.attached ++ [item] })) :=
    (hb m.vars).bind fun item => .pure _
  have before := advances m.ledger
  rcases Work.left_changeVars _ m with ⟨vars, l, made, left⟩ | left
  · refine ⟨vars, l, advances.ok made, left, .inr ?_⟩
    obtain ⟨item, l₁, -, changed⟩ := Outcome.bind_ok.mp made
    obtain ⟨rfl, -⟩ := Outcome.pure_ok.mp changed
    exact ⟨item, rfl⟩
  · exact ⟨m.vars, _, before, left, .inl rfl⟩

theorem undisturbed_attach {x : Variable} {b : Builder α}
    (hb : ∀ vars, Make.Advances (b x vars)) : Outcome.Keeps Model.Undisturbed (attach x b) := by
  intro m
  obtain ⟨vars, l, before, left, same | ⟨item, rfl⟩⟩ := left_attach hb m
  · rw [left]
    exact .of_vars same before
  · rw [left]
    exact .change (fun _ => rfl) (fun _ => rfl) before

theorem enrolled_attach {x : Variable} {b : Builder α}
    (hb : ∀ vars, Make.Advances (b x vars)) : Outcome.Keeps (Model.Enrolled x) (attach x b) := by
  intro m
  obtain ⟨vars, l, before, left, same | ⟨item, rfl⟩⟩ := left_attach hb m
  · rw [left]
    exact ⟨congrArg Table.ids same, fun y hy => .inl hy⟩
  · rw [left]
    exact ⟨by dsimp only; rw [Vars.ids_change], fun y hy => .inl hy⟩

/-- What a declaration does once its variable has been entered. -/
def settle (x : Variable) (builders : List (Builder α)) : Work α Variable := do
  Model.register x.home (.expr (.var x))
  builders.forM (attach x)
  pure x

section

variable {x : Variable} {builders : List (Builder α)}

theorem undisturbed_settle (h : ∀ b ∈ builders, ∀ vars, Make.Advances (b x vars)) :
    Outcome.Keeps Model.Undisturbed (settle x builders) :=
  (Model.undisturbed_register _ _).bind fun _ =>
    (Outcome.Keeps.forM fun b hb => undisturbed_attach (h b hb)).bind fun _ => .pure x

theorem enrolled_settle (h : ∀ b ∈ builders, ∀ vars, Make.Advances (b x vars)) :
    Outcome.Keeps (Model.Enrolled x) (settle x builders) :=
  (Model.enrolled_register x).bind fun _ =>
    (Outcome.Keeps.forM fun b hb => enrolled_attach (h b hb)).bind fun _ => .pure x

end

/-- What sets attach gives nothing back either. -/
theorem builders_advance [Scalar α] {builders extra : List (Builder α)}
    (h : ∀ b ∈ builders, ∀ x vars, Make.Advances (b x vars))
    (hextra : extra = [] ∨ extra = [semidefinite]) (x : Variable) :
    ∀ b ∈ builders ++ extra, ∀ vars, Make.Advances (b x vars) := by
  intro b hb vars
  rcases List.mem_append.mp hb with hb | hb
  · exact h b hb x vars
  · rcases hextra with rfl | rfl
    · cases hb
    · rw [List.mem_singleton.mp hb]
      exact advances_semidefinite x vars

/-- The variable that is entered, if the arguments pass their checks. -/
def entrant? [Scalar α] (spec : VariableSpec α) (m : Model α) : Option Variable :=
  match spec.resolveSets { m.ledger with nextId := m.ledger.nextId + 1 },
      Variable.normalizeShape spec.shape with
  | .ok _ _, .ok shape => some ⟨m.ledger.nextId, shape.1, shape.2, spec.context.getD m.current⟩
  | _, _ => none

/-- It has the next identity and the shape asked for, and belongs to the registry it names, or
to the current one. -/
theorem entrant?_some [Scalar α] {spec : VariableSpec α} {m : Model α} {x : Variable}
    (h : spec.entrant? m = some x) : x.id = m.ledger.nextId ∧
      Variable.normalizeShape spec.shape = .ok (x.rows, x.cols) ∧
      x.home = spec.context.getD m.current := by
  unfold entrant? at h
  split at h
  · rename_i shape normal
    cases h
    exact ⟨rfl, normal, rfl⟩
  · cases h

/-- What a declaration does first: it takes an identity, has its arguments checked, and enters
the variable. -/
def enter [Scalar α] (spec : VariableSpec α) : Work α Variable := do
  let id ← Work.make fun _ => Make.freshId
  let (kind, _) ← Work.make fun _ => spec.resolveSets
  let shape ← Work.make fun _ => Make.ofExcept (·) (Variable.normalizeShape spec.shape)
  let home := spec.context.getD (← get).current
  modify fun m => { m with vars := m.vars.push id { sign := spec.sign, kind := kind } }
  pure ⟨id, shape.1, shape.2, home⟩

/-- It is refused before it has done anything but take an identity, or it enters a variable
under that identity. -/
theorem enter_cases [Scalar α] (spec : VariableSpec α) (m : Model α) :
    (∃ f l, spec.entrant? m = none ∧ l.nextId = m.ledger.nextId + 1 ∧
      spec.enter m = .error f { m with ledger := l }) ∨
    ∃ (x : Variable) (kind : VarKind) (l : Ledger),
      spec.entrant? m = some x ∧ l.nextId = m.ledger.nextId + 1 ∧
      spec.enter m = .ok x { m with
        ledger := l, vars := m.vars.push x.id { sign := spec.sign, kind := kind } } := by
  let l₁ : Ledger := { m.ledger with nextId := m.ledger.nextId + 1 }
  have fresh : Work.make (fun _ => Make.freshId) m
      = .ok m.ledger.nextId { m with ledger := l₁ } := rfl
  cases hsets : spec.resolveSets l₁ with
  | error f l₂ =>
      refine .inl ⟨f, l₂, ?_, spec.still_resolveSets.error hsets, ?_⟩
      · rw [entrant?, hsets]
      rw [enter, Outcome.bind_of_ok fresh]
      refine Outcome.bind_error.mpr (.inl ?_)
      rw [Work.make, hsets]
  | ok sets l₂ =>
      obtain ⟨kind, extra⟩ := sets
      have next := spec.still_resolveSets.ok hsets
      have resolved : Work.make (fun _ => spec.resolveSets) { m with ledger := l₁ }
          = .ok (kind, extra) { m with ledger := l₂ } := by rw [Work.make, hsets]
      cases hshape : Variable.normalizeShape spec.shape with
      | error f =>
          refine .inl ⟨f, l₂, ?_, next, ?_⟩
          · rw [entrant?, hshape]
            cases spec.resolveSets _ <;> rfl
          rw [enter, Outcome.bind_of_ok fresh, Outcome.bind_of_ok resolved, hshape]
          rfl
      | ok shape =>
          let x : Variable := ⟨m.ledger.nextId, shape.1, shape.2, spec.context.getD m.current⟩
          refine .inr ⟨x, kind, l₂, ?_, next, ?_⟩
          · rw [entrant?, hsets, hshape]
          rw [enter, Outcome.bind_of_ok fresh, Outcome.bind_of_ok resolved, hshape]
          rfl

/-- A declaration goes on from where its variable was entered. -/
theorem declare_eq [Scalar α] (spec : VariableSpec α) (builders : List (Builder α)) :
    spec.declare builders = (do
      let x ← spec.enter
      settle x (builders ++ spec.brought)) := by
  funext m
  let l₁ : Ledger := { m.ledger with nextId := m.ledger.nextId + 1 }
  have fresh : Work.make (fun _ => Make.freshId) m
      = .ok m.ledger.nextId { m with ledger := l₁ } := rfl
  rw [declare, enter, bind_assoc, Outcome.bind_of_ok fresh, Outcome.bind_of_ok fresh]
  cases hsets : spec.resolveSets l₁ with
  | error f l₂ =>
      have refused : Work.make (fun _ => spec.resolveSets) { m with ledger := l₁ }
          = .error f { m with ledger := l₂ } := by rw [Work.make, hsets]
      rw [Outcome.bind_of_error refused, bind_assoc, Outcome.bind_of_error refused]
  | ok sets l₂ =>
      obtain ⟨kind, extra⟩ := sets
      have resolved : Work.make (fun _ => spec.resolveSets) { m with ledger := l₁ }
          = .ok (kind, extra) { m with ledger := l₂ } := by rw [Work.make, hsets]
      rw [Outcome.bind_of_ok resolved, bind_assoc, Outcome.bind_of_ok resolved,
        (resolveSets_ok hsets).2]
      cases Variable.normalizeShape spec.shape <;> rfl

/-- A declaration is refused for its arguments before it has done anything but take an identity,
or it enters a variable under that identity and goes on from there. -/
theorem declare_cases [Scalar α] (spec : VariableSpec α) (builders : List (Builder α))
    (m : Model α) :
    (∃ f l, spec.entrant? m = none ∧ l.nextId = m.ledger.nextId + 1 ∧
      spec.declare builders m = .error f { m with ledger := l }) ∨
    ∃ (x : Variable) (kind : VarKind) (extra : List (Builder α)) (l : Ledger),
      spec.entrant? m = some x ∧ l.nextId = m.ledger.nextId + 1 ∧
      (extra = [] ∨ extra = [semidefinite]) ∧
      spec.declare builders m = settle x (builders ++ extra) { m with
        ledger := l, vars := m.vars.push x.id { sign := spec.sign, kind := kind } } := by
  rw [declare_eq]
  rcases spec.enter_cases m with
    ⟨f, l, unfit, next, refused⟩ | ⟨x, kind, l, entrant, next, entered⟩
  · exact .inl ⟨f, l, unfit, next, Outcome.bind_of_error refused _⟩
  · exact .inr ⟨x, kind, spec.brought, l, entrant, next, spec.brought_cases,
      Outcome.bind_of_ok entered _⟩

theorem contexts_of_attach {x : Variable} {builders : List (Builder α)} {m m' : Model α}
    (h : builders.forM (attach x) m = .ok () m') : m'.contexts = m.contexts := by
  induction builders generalizing m with
  | nil =>
      obtain ⟨-, rfl⟩ := Outcome.pure_ok.mp h
      rfl
  | cons b builders ih =>
      obtain ⟨⟨⟩, m₁, first, rest⟩ := Outcome.bind_ok.mp h
      obtain ⟨vars, l, -, rfl⟩ := Work.changeVars_ok first
      exact (ih rest).trans rfl

/-- What was declared is registered. -/
theorem registers_of_declare [Scalar α] {spec : VariableSpec α} {builders : List (Builder α)}
    {m m' : Model α} {x : Variable} (h : spec.declare builders m = .ok x m') :
    m'.Registers x := by
  rcases spec.declare_cases builders m with
    ⟨f, l, -, -, refused⟩ | ⟨y, kind, extra, l, -, -, -, entered⟩
  · cases refused.symm.trans h
  · rw [entered] at h
    obtain ⟨⟨⟩, m₁, registered, rest⟩ := Outcome.bind_ok.mp h
    obtain ⟨⟨⟩, m₂, attached, done⟩ := Outcome.bind_ok.mp rest
    obtain ⟨rfl, rfl⟩ := Outcome.pure_ok.mp done
    rw [Model.Registers, contexts_of_attach attached]
    exact Model.registers_of_register registered

end VariableSpec

end ConicModel
