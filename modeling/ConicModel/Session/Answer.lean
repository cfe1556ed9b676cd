/-
What a session answers.

An answer is a value of the domain: what is known of a node, a matrix, an
objective, the state of a cache or of a registry.  How it is sent is not decided
here.
-/
import ConicModel.Session.State
import ConicModel.Solution

namespace ConicModel

/-- What is shown of a variable beside what is shown of every expression. -/
structure VariableInfo where
  kind : VarKind
  fixed : Bool
  isComplex : Bool
  context : ContextName

/-- What is shown of an expression. -/
structure ExprInfo where
  className : String
  id : Id
  shape : Nat × Nat
  length : Nat
  curvature : Curvature
  sign : Sign
  isScalar : Bool
  attached : List Id
  variableInfo : Option VariableInfo

/-- What is shown of a constraint. -/
structure ConstraintInfo where
  className : String
  id : Id
  shape : Nat × Nat
  size : Nat
  lhs : Id
  rhs : Id
  text : String
  /-- The cone and whether it is complex, for a semidefinite constraint. -/
  cone : Option (Cone × Bool)

/-- What is shown of an expression or a constraint. -/
inductive NodeInfo where
  | expr (i : ExprInfo)
  | constraint (i : ConstraintInfo)

/-- What is shown of a cache after a step. -/
structure CacheInfo where
  exprs : List Id
  constraints : List Id
  cones : List Cone

/-- What is shown of an objective on request. -/
structure ObjectiveInfo where
  rows : Option Nat
  keys : List Id
  variableIds : List Id
  hasConstant : Bool
  text : String

/-- What is shown of a registry. -/
structure ContextInfo where
  name : String
  ids : List Id
  text : String

/-- The values of what a registry holds. -/
abbrev ValueList (α : Type) := List (Id × Option (Value α))

/-- What a session answers. -/
inductive Answer (α : Type) where
  | nothing
  | flag (b : Bool)
  | count (n : Nat)
  | text (s : String)
  /-- A datum as it is quoted. -/
  | quoted (d : Datum α String)
  | ids (is : List Id)
  | names (ns : List String)
  | curvature (v : Curvature)
  | sign (s : Sign)
  | shape (s : Nat × Nat)
  | value (v : Option (Value α))
  | flat (x : Numeric Array α)
  | matrix (A : Coeffs α)
  | part (p : Part α)
  | node (i : NodeInfo)
  | promoted (i : NodeInfo) (same : Bool)
  | sides (l r : NodeInfo) (lhsSame rhsSame : Bool)
  | chained (v : Curvature) (value : Option (Value α))
  | objective (o : Objective α)
  | compiled (o : Objective α) (same : List String) (cache : Option CacheInfo)
  | lowered (r : Record α) (same : List String) (cache : CacheInfo)
  | difference (o : Objective α) (cache : CacheInfo)
  | dump (c : Cache (Objective α) (Record α))
  | cache (c : CacheInfo)
  | same (names : List String)
  | objectiveInfo (i : ObjectiveInfo)
  | context (i : ContextInfo)
  | switched (previous current : String)
  | layout (l : Layout)
  | values (vs : ValueList α)

namespace Session

variable {α : Type}

/-- The identities of attached items; something foreign has none to show. -/
def idsOf (items : List (Attached α)) : Except (Fault α) (List Id) :=
  match items.mapM Attached.id? with
  | some is => .ok is
  | none => .error (.mishap .feature)

/-- What is shown of an expression. -/
def exprInfo (vars : Vars α) (e : Expr α) : Make α NodeInfo := do
  let curvature ← Make.trust (e.verdict vars)
  let variableInfo := match e with
    | .var x =>
      let s := vars.state x
      some ⟨s.kind, s.fixed, decide (s.sign = .complex), x.home⟩
    | _ => none
  let attached ← Make.ofExcept (·) (idsOf (e.attached vars))
  pure (.expr ⟨e.className, e.id, e.shape, e.length, curvature, e.sign vars, e.isScalar,
    attached, variableInfo⟩)

/-- What is shown of a constraint. -/
def constraintInfo (vars : Vars α) (c : Constraint α) : NodeInfo :=
  let isComplex := c.isComplex vars
  let cone : Option (Cone × Bool) := match c.relation with
    | .semidefinite => some (if isComplex then .hermitian else .semidefinite, isComplex)
    | _ => none
  .constraint ⟨c.relation.className, c.id, c.shape, c.size, c.lhs.id, c.rhs.id, c.text, cone⟩

/-- What is shown of a datum that is a node. -/
def nodeInfo (vars : Vars α) : Input α → Make α NodeInfo
  | .thing _ (.expr e) => exprInfo vars e
  | .thing _ (.constraint c) => pure (constraintInfo vars c)
  | _ => throw (.mishap .feature)

/-- What is shown of a cache. -/
def cacheInfo (c : Memory α) : CacheInfo :=
  ⟨c.exprs.ids, c.constraints.ids, c.records.filterMap (·.cone?)⟩

/-- What is shown of an objective on request. -/
def objectiveInfo (o : Objective α) : ObjectiveInfo :=
  ⟨o.rows, o.keys, o.variableIds, o.entries.has constantKey, o.text⟩

/-- What is shown of a registry. -/
def contextInfo (m : Model α) (name : ContextName) : ContextInfo :=
  let xs := m.context name
  ⟨name.text, xs.map (·.id), s!"Context('{name.text}', variables={xs.length})"⟩

/-- The value of an expression, if it has one. -/
def valueOf [Entry α] (vars : Vars α) (e : Expr α) : Option (Value α) :=
  match e.evaluate vars with
  | .ok v => some v
  | .error _ => none

/-- The values of what a registry holds; a constraint has none. -/
def valueList [Entry α] (m : Model α) (name : ContextName) : Except (Fault α) (ValueList α) :=
  (m.context name).mapM fun n =>
    match n with
    | .expr e => .ok (e.id, valueOf m.vars e)
    | .constraint _ => .error (.mishap .feature)

end Session

end ConicModel
