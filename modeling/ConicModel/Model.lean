/-
A modelling session: variables, registries, and the ledger.

Registries map identities back to variables, so that a solution vector can be
scattered onto them; any other node can be registered by hand.  A new variable
is registered once, in the registry it names or in the current one, before its
attached constraints are built; if building one of them is refused, the variable
stays registered with those that were built.
-/
import ConicModel.Assign
import ConicModel.Comparison
import ConicModel.Shape

namespace ConicModel

/-- The state of a session. -/
structure Model (α : Type) where
  ledger : Ledger := {}
  vars : Vars α := []
  /-- The registries that hold anything, with what they hold in order of
  registration. -/
  contexts : List (ContextName × List (Node α)) := []
  /-- Where variables are registered that name no registry. -/
  current : ContextName := .main

/-- An operation on a session. -/
abbrev Work (α : Type) := EStateM (Fault α) (Model α)

namespace Work

variable {α β : Type}

/-- Make something in a session. -/
def make (f : Vars α → Make α β) : Work α β := fun m =>
  match f m.vars m.ledger with
  | .ok x l => .ok x { m with ledger := l }
  | .error e l => .error e { m with ledger := l }

/-- Change the states of variables. -/
def changeVars (f : Vars α → Make α (Vars α)) : Work α Unit := fun m =>
  match f m.vars m.ledger with
  | .ok vars l => .ok () { m with vars := vars, ledger := l }
  | .error e l => .error e { m with ledger := l }

end Work

namespace Model

variable {α : Type}

/-- What a registry holds, in order of registration. -/
def context (m : Model α) (name : ContextName) : List (Node α) :=
  (m.contexts.find? fun c => c.1 = name).elim [] (·.2)

/-- Replace what a registry holds. -/
def setContext (m : Model α) (name : ContextName) (xs : List (Node α)) : Model α :=
  if m.contexts.any fun c => c.1 = name then
    { m with contexts := m.contexts.map fun c => if c.1 = name then (name, xs) else c }
  else { m with contexts := m.contexts ++ [(name, xs)] }

/-- What a registry holds under an identity. -/
def find? (m : Model α) (name : ContextName) (id : Id) : Option (Node α) :=
  (m.context name).find? fun x => x.id = id

/-- Add a node to a registry. -/
def register (name : ContextName) (x : Node α) : Work α Unit := fun m =>
  if (m.find? name x.id).isSome then .error (.registered x.id name) m
  else .ok () (m.setContext name (m.context name ++ [x]))

/-- What a registry holds under an identity, or the fault that there is nothing. -/
def lookup (name : ContextName) (id : Id) : Work α (Node α) := fun m =>
  match m.find? name id with
  | some x => .ok x m
  | none => .error (.unregistered id name) m

/-- Remove everything from a registry. -/
def clear (name : ContextName) : Work α Unit := fun m => .ok () (m.setContext name [])

/-- Make a registry the current one; the one before is given back. -/
def setCurrent (name : ContextName) : Work α ContextName := fun m =>
  .ok m.current { m with current := name }

end Model

/-! ## New variables -/

/-- Builds a constraint to attach to a new variable. -/
abbrev Builder (α : Type) := Variable → Vars α → Make α (Attached α)

/-- What is asked of a new variable. -/
structure VariableSpec (α : Type) where
  shape : Input α := .atom 0 .null
  sign : Sign := .noSign
  kind : VarKind := .continuous
  /-- The old way to say what values a variable takes. -/
  sets : Option (List String) := none
  context : Option ContextName := none

namespace VariableSpec

variable {α : Type} [Scalar α]

/-- The builder of `x ⪰ 0`. -/
def semidefinite : Builder α := fun x vars => do
  let c ← makeConstraint vars .semidefinite (.thing 0 (.expr (.var x))) (.ofInt 0)
  pure (.node (.constraint c))

/-- The sets that can be named. -/
def knownSets : List String := ["Bin", "Int", "Semidefinite"]

/-- The kind of variable that sets stand for. -/
def kindOfSets (sets : List String) : VarKind :=
  if sets.contains "Bin" then .binary
  else if sets.contains "Int" then .integer
  else .continuous

/-- The kind of a new variable and what its sets attach to it. -/
def resolveSets (spec : VariableSpec α) : Make α (VarKind × List (Builder α)) :=
  match spec.sets with
  | none => pure (spec.kind, [])
  | some sets => do
    Make.notice .oldSets
    if spec.kind ≠ .continuous then throw .setsAndKind
    match sets.filter fun s => !knownSets.contains s with
    | [] => pure (kindOfSets sets, if sets.contains "Semidefinite" then [semidefinite] else [])
    | unknown => throw (.unknownSets unknown)

/-- Attach what a builder makes of a variable. -/
def attach (x : Variable) (b : Builder α) : Work α Unit :=
  Work.changeVars fun vars => do
    let item ← b x vars
    pure (vars.change x fun s => { s with attached := s.attached ++ [item] })

/-- A new variable, registered, with everything attached that its builders make. -/
def declare (spec : VariableSpec α) (builders : List (Builder α)) : Work α Variable := do
  let id ← Work.make fun _ => Make.freshId
  let (kind, extra) ← Work.make fun _ => spec.resolveSets
  let shape ← Work.make fun _ => Make.ofExcept (·) (Variable.normalizeShape spec.shape)
  let home := spec.context.getD (← get).current
  let x : Variable := ⟨id, shape.1, shape.2, home⟩
  modify fun m => { m with vars := m.vars.push id { sign := spec.sign, kind := kind } }
  Model.register home (.expr (.var x))
  (builders ++ extra).forM (attach x)
  pure x

/-- The shape of a semidefinite variable: square, or given by rows alone. -/
def squareShape (vars : Vars α) (hermitian : Bool) (m n : Input α) : Make α (Input α) := do
  let n := match n with
    | .atom _ .null => m
    | n => n
  if ← Datum.differ vars m n then
    throw (.variableNotSquare hermitian (← m.quote vars) (← n.quote vars))
  pure (.tuple 0 [m, m])

end VariableSpec

end ConicModel
