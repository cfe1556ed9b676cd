/-
Steps on registries and solution vectors.
-/
import ConicModel.Session.Scatter

namespace ConicModel

/-- A node meant by its identity or by a name. -/
inductive NodeRef where
  | id (i : Id)
  | name (n : String)

/-- A place in a layout written by hand. -/
structure SlotTerm where
  node : NodeRef
  offset : Int
  width : Int

/-- A layout meant by a name or written by hand. -/
inductive LayoutTerm where
  | name (n : String)
  | slots (ss : List SlotTerm)

namespace Session

variable {α : Type} [Scalar α]

/-- The identity that is meant. -/
def identity : NodeRef → Op α Id
  | .id i => pure i
  | .name n => do pure (← namedNode n).id

/-- The layout that is meant; of two places for one variable the later one counts.
A name may turn out to stand for something else. -/
def layoutOf : LayoutTerm → Op α (Input α)
  | .name n => named n
  | .slots ss => do
    let places ← ss.mapM fun s => do pure ((← identity s.node), Slot.mk s.offset s.width)
    pure (.ofLayout (places.foldl (fun l e => Table.put l e.1 e.2) []))

/-- Show a registry. -/
def showContext (context : ContextName) : Op α (Answer α) := do
  pure (.context (contextInfo (← get).model context))

/-- Register a node. -/
def register (node : String) (context : ContextName) : Op α (Answer α) := do
  let x ← namedNode node
  work (Model.register context x)
  showContext context

/-- Remove everything from a registry. -/
def clear (context : ContextName) : Op α (Answer α) := do
  work (Model.clear context)
  showContext context

/-- The names of what is registered under an identity. -/
def lookup (node : NodeRef) (context : ContextName) : Op α (Answer α) := do
  let i ← identity node
  let x ← work (Model.lookup context i)
  pure (.names ((← get).namesOf x.toInput))

/-- Whether a registry has anything under an identity. -/
def contains (node : NodeRef) (context : ContextName) : Op α (Answer α) := do
  let i ← identity node
  pure (.flag ((← get).model.find? context i).isSome)

/-- Make a registry the current one. -/
def setCurrent (context : ContextName) : Op α (Answer α) := do
  let previous ← work (Model.setCurrent context)
  pure (.switched previous.text context.text)

/-- How many entries of a solution vector an expression takes. -/
def solutionWidth (node : String) : Op α (Answer α) := do
  let e ← namedExpr node
  pure (.count (e.width (← get).model.vars))

/-- Lay variables out in a solution vector. -/
def offsets (nodes : List NodeRef) (context : ContextName) (name : Option String) :
    Op α (Answer α) := do
  let ids ← nodes.mapM identity
  let l ← accept ((← get).model.offsets context ids)
  let _ ← bind name (.ofLayout l)
  pure (.layout l)

/-- The values of what a registry holds. -/
def values (context : ContextName) : Op α (Answer α) := do
  .values <$> accept (valueList (← get).model context)

/-- Scatter a solution vector. -/
def loadSolution (t : Term α) (layout : LayoutTerm) (context : ContextName) :
    Op α (Answer α) := do
  let l ← layoutOf layout
  let d ← eval t
  work (scatter context d l)
  values context

end Session

end ConicModel
