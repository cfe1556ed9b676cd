/-
Steps that make, inspect and change nodes.
-/
import ConicModel.Session.Answer

namespace ConicModel

/-- How a new variable is asked for. -/
inductive VariableForm (α : Type) where
  /-- Any shape and sign. -/
  | plain (shape : Term α) (sign : Option Sign)
  /-- Any shape, with complex values; a sign of its own is refused. -/
  | complex (shape : Term α) (sign : Option Sign)
  /-- A square variable that is positive semidefinite.  It brings its own attached
  constraint, so a list of them is refused, and if it is Hermitian a sign too. -/
  | semidefinite (hermitian : Bool) (rows cols : Term α) (sign : Option Sign)
  /-- A form that does not exist, which is noticed after the shape. -/
  | unknown (shape : Term α)

/-- A constraint to attach to a new variable: an operator between two terms.  An
operator that does not exist is noticed after the terms. -/
structure BuilderTerm (α : Type) where
  op : Option Comparison
  lhs : Term α
  rhs : Term α

/-- What else is said about a new variable. -/
structure VariableOptions (α : Type) where
  kind : VarKind := .continuous
  sets : Option (List String) := none
  context : Option ContextName := none
  builders : Option (List (BuilderTerm α)) := none

/-- What a constraint is made with: an operator, or a relation itself. -/
inductive Connective where
  | operator (op : Comparison)
  | relation (r : Relation)

namespace Session

variable {α : Type} [Scalar α]

/-- The builder that a term stands for. -/
def builder (s : Session α) (b : BuilderTerm α) : Builder α := fun x vars => do
  let scope := { s.scope with self := some x }
  let l ← b.lhs.eval vars scope
  let r ← b.rhs.eval vars scope
  match b.op with
  | some op =>
    fitSides vars l r
    .ofInput <$> makeComparison vars op l r
  | none => throw (.mishap .key)

/-- Bind and show something, which can be done if it is a node. -/
def showNode (name : Option String) (d : Input α) : Op α (Answer α) := do
  let d ← bind name d
  .node <$> make fun vars => nodeInfo vars d

/-- Make a variable and show it. -/
def declare (form : VariableForm α) (o : VariableOptions α) (name : Option String) :
    Op α (Answer α) := do
  let (shape, sign, builders) ← match form with
    | .plain shape sign => do pure (← eval shape, sign.getD .noSign, o.builders.getD [])
    | .complex shape sign => do
      let shape ← eval shape
      if sign.isSome then refuse .sort
      pure (shape, .complex, o.builders.getD [])
    | .semidefinite hermitian m n sign => do
      let m ← eval m
      let n ← eval n
      let shape ← make fun vars => VariableSpec.squareShape vars hermitian m n
      if o.builders.isSome || (hermitian && sign.isSome) then refuse .sort
      pure (shape, if hermitian then .complex else sign.getD .noSign, [])
    | .unknown shape => do
      let _ ← eval shape
      refuse .key
  let s ← get
  let own : List (Builder α) := match form with
    | .semidefinite .. => [VariableSpec.semidefinite]
    | _ => builders.map s.builder
  let semidefinite := match form with
    | .semidefinite .. => true
    | _ => (o.sets.getD []).contains "Semidefinite"
  if semidefinite then accept ((fitSemidefinite shape).mapError .mishap)
  let spec : VariableSpec α := ⟨shape, sign, o.kind, o.sets, o.context⟩
  let x ← settling (work (spec.declare own))
  showNode name (.thing 0 (.expr (.var x)))

/-- Make a constant. -/
def constant (t : Term α) (sign : Option Sign) (name : Option String) : Op α (Answer α) := do
  let d ← eval t
  showNode name (.thing 0 (.expr (.const (← make fun vars => makeConstant vars d sign))))

/-- Take a term as an expression, and say whether it was one already. -/
def promote (t : Term α) (name : Option String) : Op α (Answer α) := do
  let d ← eval t
  let e ← make fun vars => asExpr vars d
  let _ ← bind name (.thing 0 (.expr e))
  let info ← make fun vars => exprInfo vars e
  pure (.promoted info d.isExpr)

/-- Make a Kronecker product. -/
def kron (a b : Term α) (name : Option String) : Op α (Answer α) := do
  let a ← eval a
  let b ← eval b
  showNode name (.thing 0 (.expr (← make fun vars => makeKron vars a b)))

/-- What the two sides make with a connective, if there is room for it. -/
def connect (vars : Vars α) (c : Connective) (l r : Input α) : Make α (Input α) := do
  fitSides vars l r
  match c with
  | .relation q => ConicModel.relate vars q l r
  | .operator op => makeComparison vars op l r

/-- Make a constraint.  Plain data on both sides give plain data, of which nothing
can be shown.  A connective that does not exist is noticed after the sides. -/
def relate (c : Option Connective) (l r : Term α) (name : Option String) : Op α (Answer α) := do
  let l ← eval l
  let r ← eval r
  match c with
  | some c => showNode name (← make fun vars => connect vars c l r)
  | none => refuse .key

/-- Bring two operands to one shape and show both.  The left one is taken as an
expression before the right one is looked at. -/
def broadcastTerms (l r : Term α) : Op α (Answer α) := do
  let l ← eval l
  let l ← make fun vars => asExpr vars l
  let r ← eval r
  let r ← make fun vars => asExpr vars r
  accept ((l.fitTogether r).mapError .mishap)
  let (l', r') ← make fun _ => broadcast l r
  let li ← make fun vars => exprInfo vars l'
  let ri ← make fun vars => exprInfo vars r'
  pure (.sides li ri (l'.id == l.id) (r'.id == r.id))

/-- The sign set by hand on something that has none of its own. -/
def handSign (s : Session α) (d : Input α) : Option Sign :=
  (s.signs.find? fun e => e.1.identical d).map (·.2)

/-- Make the constraint that a sign stands for: that of an expression, or one that
was set by hand on something else. -/
def signOf (node : String) (name : Option String) : Op α (Answer α) := do
  let d ← named node
  match d with
  | .thing _ (.expr e) =>
    make fun vars => fitSign vars (e.sign vars) d
    showNode name (.thing 0 (.constraint (← make fun vars => signConstraint vars e)))
  | d =>
    match (← get).handSign d with
    | none => refuse .feature
    | some s => do
      make fun vars => fitSign vars s d
      let c ← make fun vars => constraintOfSign vars s d
      showNode name (.thing 0 (.constraint c))

/-- The attached list of something; only expressions have one that was not set by
hand. -/
def attachedList (d : Input α) : Op α (List (Attached α)) := do
  let s ← get
  match d with
  | .thing _ (.expr e) => pure (e.attached s.model.vars)
  | d =>
    match s.lists.find? fun e => e.1.identical d with
    | some e => pure e.2
    | none => refuse .feature

/-- Show an attached item; a negative place counts from the end. -/
def attachedAt (node : String) (index : Int) (name : Option String) : Op α (Answer α) := do
  let items ← attachedList (← named node)
  let place := if index < 0 then index + items.length else index
  match if 0 ≤ place then items[place.toNat]? else none with
  | some item => showNode name item.toInput
  | none => refuse .place

/-- Make a stand-in. -/
def stub (rows cols : Nat) (v : Curvature) (sign : Sign) (name : Option String) :
    Op α (Answer α) := do
  let id ← make fun _ => Make.freshId
  showNode name (.thing 0 (.expr (.stub ⟨id, rows, cols, v, sign⟩)))

/-! ## Inspection -/

/-- Show a node. -/
def info (node : String) : Op α (Answer α) := do
  let d ← named node
  .node <$> make fun vars => nodeInfo vars d

/-- Write out a datum.  One that cannot be written is refused without words. -/
def write (node : String) : Op α (Answer α) := do
  let d ← named node
  try .quoted <$> make fun vars => d.quote vars
  catch
    | .unwritable => refuse .content
    | f => throw f

/-- The curvature of an expression or the verdict on a constraint. -/
def curvature (node : String) : Op α (Answer α) := do
  match ← namedNode node with
  | .expr e => .curvature <$> make fun vars => Make.trust (e.verdict vars)
  | .constraint c => .curvature <$> make fun vars => Make.trust (c.verdict vars)

/-- The value of an expression, if it has one. -/
def value (node : String) : Op α (Answer α) := do
  let e ← namedExpr node
  pure (.value (valueOf (← get).model.vars e))

/-- The value of an expression. -/
def evaluate (node : String) : Op α (Answer α) := do
  let e ← namedExpr node
  match e.evaluate (← get).model.vars with
  | .ok v => pure (.value (some v))
  | .error u => throw (.unvalued u)

/-- The truth value of a thing. -/
def truth (node : String) : Op α (Answer α) := do
  let d ← named node
  .flag <$> make fun _ => d.truth

/-! ## Changes of variables -/

/-- The stored value of a variable. -/
def storedValue (x : Variable) : Op α (Option (Value α)) := do
  pure ((← get).model.vars.state x).value

/-- Change the state of a variable. -/
def changeState (x : Variable) (f : VarState α → VarState α) : Op α Unit :=
  work (Work.changeVars fun vars => pure (vars.change x f))

/-- Assign a value to a variable.  Nothing else takes a value, which is noticed
before the value is looked at, unless it is set like a field. -/
def setValue (node : String) (t : Term α) (asField : Bool) : Op α (Answer α) := do
  match ← named node with
  | .thing _ (.expr (.var x)) =>
    let d ← eval t
    work (Work.changeVars fun vars => vars.assign x d)
    .value <$> storedValue x
  | _ =>
    if asField then let _ ← eval t
    refuse .feature

/-- The answer after fixing or freeing a variable. -/
def chained (x : Variable) : Op α (Answer α) := do
  pure (.chained ((← get).model.vars.state x).curvature (← storedValue x))

/-- Fix a variable, at a value if one is given. -/
def fix (node : String) (t : Option (Term α)) : Op α (Answer α) := do
  let x ← namedVariable node
  match ← t.mapM eval with
  | some d => work (Work.changeVars fun vars => vars.fixAt x d)
  | none => work (Work.changeVars fun vars => vars.fix x)
  chained x

/-- Free a variable. -/
def free (node : String) : Op α (Answer α) := do
  let x ← namedVariable node
  work (Work.changeVars fun vars => pure (vars.free x))
  chained x

/-- Hold a variable or a stand-in constant without asking for a value.  Other open
things take no notice. -/
def forceConstant (node : String) : Op α (Answer α) := do
  match ← named node with
  | .thing _ (.expr (.var x)) => work (Work.changeVars fun vars => pure (vars.hold x.id))
  | .thing _ (.expr (.stub s)) => work (Work.changeVars fun vars => pure (vars.hold s.id))
  | d => if !d.isOpen then refuse .feature
  pure .nothing

/-- Give a variable a sign.  Other expressions have a sign that cannot be set; on
other open things it is noted. -/
def setSign (node : String) (sign : Sign) : Op α (Answer α) := do
  match ← named node with
  | .thing _ (.expr (.var x)) => changeState x fun s => { s with sign := sign }
  | .thing _ (.expr _) => refuse .feature
  | d =>
    if !d.isOpen then refuse .feature
    modify fun s => { s with signs := (d, sign) :: s.signs }
  pure .nothing

/-- Give a variable a kind.  Other open things take no notice. -/
def setKind (node : String) (kind : VarKind) : Op α (Answer α) := do
  match ← named node with
  | .thing _ (.expr (.var x)) => changeState x fun s => { s with kind := kind }
  | d => if !d.isOpen then refuse .feature
  pure .nothing

/-- Show the identities of what is attached to something. -/
def showAttached (d : Input α) : Op α (Answer α) := do
  let items ← attachedList d
  .ids <$> accept (idsOf items)

/-- Set the list attached to something.  Other expressions than variables refuse. -/
def setList (d : Input α) (items : List (Attached α)) : Op α Unit := do
  match d with
  | .thing _ (.expr (.var x)) => changeState x fun s => { s with attached := items }
  | .thing _ (.expr _) => refuse .feature
  | d =>
    if !d.isOpen then refuse .feature
    modify fun s => { s with lists := (d, items) :: s.lists }

/-- Replace what is attached to something. -/
def setAttached (node : String) (names : List String) : Op α (Answer α) := do
  let d ← named node
  setList d (← names.mapM fun n => .ofInput <$> named n)
  showAttached d

/-- Attach one more item to something.  Expressions other than variables take no
notice. -/
def appendAttached (node name : String) : Op α (Answer α) := do
  let d ← named node
  let items ← attachedList d
  let new ← named name
  match d with
  | .thing _ (.expr (.const _)) | .thing _ (.expr (.kron ..)) | .thing _ (.expr (.stub _)) =>
    pure ()
  | d => setList d (items ++ [.ofInput new])
  showAttached d

end Session

end ConicModel
