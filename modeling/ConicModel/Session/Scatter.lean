/-
Scattering a solution vector over a mapping of any data.

A layout is a mapping from identities to offsets and widths.  One that was changed
by hand can hold other data than integers, and then every step of the scattering
asks its question of them: ends are added and compared as data, a width has to
equal the variable's, and only integers can cut out a block.
-/
import ConicModel.Session.Objectives

namespace ConicModel

namespace Datum

variable {α : Type} [Scalar α]

/-- The pair that a datum is, given that it is one of integers. -/
def toSlot? : Input α → Option Slot
  | tuple _ [atom _ (.int offset), atom _ (.int width)] => some ⟨offset, width⟩
  | _ => none

/-- The layout that a mapping is, if it places everything by integers. -/
def toLayout? (keys : List Int) (values : List (Input α)) : Option Layout :=
  (keys.zip values).mapM fun e => e.2.toSlot?.map (e.1, ·)

/-- A layout as a datum. -/
def ofLayout (l : Layout) : Input α :=
  mapping 0 l.ids (l.items.map fun s => tuple 0 [ofInt s.offset, ofInt s.width])

/-- Whether one datum is less than another.  Expressions have no such order. -/
def less (vars : Vars α) (a b : Input α) : Make α Bool := do
  if a.isExpr || b.isExpr then throw (.mishap .sort)
  if ← ask vars .le a b then pure (!(← ask vars .eq a b)) else pure false

/-- The index that a datum is. -/
def toIndex : Input α → Except Mishap Int
  | atom _ a => a.integer?.elim (.error .sort) .ok
  | element _ k a | array _ _ k [] [element _ _ a] | array _ _ k [] [atom _ a] =>
    if k.bounds.isSome then a.integer?.elim (.error .sort) .ok else .error .sort
  | _ => .error .sort

end Datum

namespace Session

variable {α : Type} [Scalar α]

/-- A place by data. -/
structure LoosePlace (α : Type) where
  id : Id
  offset : Input α
  width : Input α

/-- The places of a mapping. -/
def placesOf (keys : List Int) (values : List (Input α)) : Except Mishap (List (LoosePlace α)) :=
  (keys.zip values).mapM fun e => do
    let (offset, width) ← e.2.twoMembers
    pure ⟨e.1, offset, width⟩

/-- The largest end of a place; the first of several that are as large. -/
def largestEnd (vars : Vars α) (places : List (LoosePlace α)) : Make α (Input α) := do
  match places with
  | [] => pure (.ofInt 0)
  | p :: ps => do
    let first ← Make.ofExcept (·) (Datum.add false p.offset p.width)
    ps.foldlM (fun best p => do
      let e ← Make.ofExcept (·) (Datum.add false p.offset p.width)
      pure (if ← Datum.less vars best e then e else best)) first

/-- What a mapping places, each as wide as its place. -/
def resolveLoose (m : Model α) (name : ContextName) (p : LoosePlace α) :
    Make α (Expr α × LoosePlace α) := do
  let e ← Make.ofExcept (·) (m.expression name p.id)
  let width := e.width m.vars
  if ← Datum.differ m.vars p.width (.ofInt width) then
    throw (.layoutWidth (← p.width.quote m.vars) p.id width)
  pure (e, p)

/-- Write the block of one variable. -/
def writeLoose (solution : Flat α) (p : Expr α × LoosePlace α) : Work α Unit := do
  let slot ← Work.make fun _ => do
    let stop ← Make.ofExcept (·) (Datum.add false p.2.offset p.2.width)
    let a ← Make.ofExcept .mishap p.2.offset.toIndex
    let b ← Make.ofExcept .mishap stop.toIndex
    pure (⟨a, b - a⟩ : Slot)
  Model.writeBlock solution (p.1, slot)

/-- Scatter a solution vector by a mapping of data. -/
def scatterLoose (name : ContextName) (x : Input α) (keys : List Int)
    (values : List (Input α)) : Work α Unit := do
  let solution ← Work.make fun _ => Make.ofExcept (·) (Flat.ofInput x)
  let places ← Work.make fun vars => do
    let places ← Make.ofExcept .mishap (placesOf keys values)
    let needed ← largestEnd vars places
    if ← Datum.less vars (.ofInt solution.size) needed then
      throw (.solutionLength solution.size (← needed.quote vars))
    pure places
  let m ← get
  let resolved ← Work.make fun _ => places.mapM (resolveLoose m name)
  resolved.forM (writeLoose solution)

/-- Scatter a solution vector by what is offered as a layout. -/
def scatter (name : ContextName) (x layout : Input α) : Work α Unit := do
  match layout with
  | .mapping _ keys values =>
    match Datum.toLayout? keys values with
    | some l => Model.loadSolution name x l
    | none => scatterLoose name x keys values
  | _ =>
    let _ ← Work.make fun _ => Make.ofExcept (·) (Flat.ofInput x)
    throw (.mishap .feature)

end Session

end ConicModel
