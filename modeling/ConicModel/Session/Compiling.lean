/-
Steps that compile and look into caches.

What a step compiled is bound before it is shown.  There is something to show if
it is an objective, or a record of one, and no hand-made entry came in between.
-/
import ConicModel.Session.Nodes

namespace ConicModel.Session

variable {α : Type} [Scalar α]

/-- What is shown of a cache of the session. -/
def showCache (cache : String) : Op α CacheInfo := do pure (cacheInfo ((← get).cache cache))

/-- Compile an expression into a cache, and bind a name to what the cache holds
for it. -/
def compileInto (e : Expr α) (cache : String) (name : Option String) : Op α (Input α) := do
  let d ← compile cache [.expr e] fun vars => compileExpr vars e
  bind name ((((← get).cache cache).exprs.get? e.id).getD d)

/-- Lower a constraint into a cache, and bind a name to what the cache holds for
it. -/
def lowerInto (c : Constraint α) (cache : String) (name : Option String) : Op α (Input α) := do
  let d ← compile cache [.constraint c] fun vars => compileConstraint vars c
  bind name ((((← get).cache cache).constraints.get? c.id).getD d)

/-- Show what was compiled of an expression. -/
def showCompiled (d : Input α) (cache : Option String) : Op α (Answer α) := do
  match d.toObjective? with
  | some o => pure (.compiled o ((← get).namesOf d) (← cache.mapM showCache))
  | none => refuse .feature

/-- Compile an expression into a cache.  A constraint is lowered just as well, but
there is no objective to show. -/
def conicForm (node cache : String) (name : Option String) : Op α (Answer α) := do
  match ← namedNode node with
  | .expr e => showCompiled (← compileInto e cache name) (some cache)
  | .constraint c =>
    let _ ← lowerInto c cache name
    refuse .feature

/-- Compile an expression into a cache of its own. -/
def conicFormApart (node : String) (name : Option String) : Op α (Answer α) := do
  match ← namedNode node with
  | .expr e =>
    let d ← compileApart [.expr e] fun vars => compileExpr vars e
    showCompiled (← bind name d) none
  | .constraint c =>
    let d ← compileApart [.constraint c] fun vars => compileConstraint vars c
    let _ ← bind name d
    refuse .feature

/-- Lower a constraint into a cache.  An expression is compiled just as well, but
there is no record to show. -/
def lower (node cache : String) (name : Option String) : Op α (Answer α) := do
  match ← namedNode node with
  | .expr e =>
    let _ ← compileInto e cache name
    refuse .feature
  | .constraint c =>
    let d ← lowerInto c cache name
    match d.toRecord? with
    | some r => pure (.lowered r ((← get).namesOf d) (← showCache cache))
    | none => refuse .feature

/-- Compile the difference of the sides of a constraint. -/
def difference (node cache : String) (name : Option String) : Op α (Answer α) := do
  let c ← namedConstraint node
  let sides : List (Node α) := [.expr c.lhs, .expr c.rhs]
  let d ← bind name (← compile cache sides fun vars => compileDifference vars c)
  match d.toObjective? with
  | some o => pure (.difference o (← showCache cache))
  | none => refuse .feature

/-! ## Caches -/

/-- Show all that a cache holds, if all of it can be shown. -/
def dump (cache : String) : Op α (Answer α) := do
  match ((← get).cache cache).objectives? with
  | some c => pure (.dump c)
  | none => refuse .feature

/-- What a cache holds for a node. -/
def held (node cache : String) : Op α (Option (Input α)) := do
  let c := (← get).cache cache
  match ← namedNode node with
  | .expr e => pure (c.exprs.get? e.id)
  | .constraint q => pure (c.constraints.get? q.id)

/-- Whether a cache has an entry for a node. -/
def cacheHas (node cache : String) : Op α (Answer α) := do
  pure (.flag (← held node cache).isSome)

/-- The names of what a cache holds for a node. -/
def cacheGet (node cache : String) : Op α (Answer α) := do
  match ← held node cache with
  | some d => pure (.same ((← get).namesOf d))
  | none => refuse .key

/-- Enter something by hand: for an expression as it is, for a constraint as the
objective of a record, whose cone and size are needed then. -/
def cachePut (node cache object : String) (form : Option (Cone × Int)) : Op α (Answer α) := do
  let b ← named node
  let d ← named object
  let c := (← get).cache cache
  match b, form with
  | .thing _ (.expr e), _ => setCache cache (← accept (c.putExpr e.id d))
  | .thing _ (.constraint q), some (cone, size) =>
    setCache cache (← accept (c.putConstraint q.id (.record 0 d cone size)))
  | .thing _ (.constraint _), none => refuse .key
  | _, _ => refuse .feature
  .cache <$> showCache cache

end ConicModel.Session
