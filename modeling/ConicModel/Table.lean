/-
Tables keyed by identity.

Expressions, constraints and variables are told apart by an integer identity,
and the library keeps many small tables from identities to something.  A table
is the list of its entries in the order in which they were made, because that
order is shown: a cache lists what it compiled in the order of compilation, a
context its variables in the order of registration.
-/
import ConicModel.Scalar

namespace ConicModel

/-- The identity of an expression or a constraint. -/
abbrev Id := Int

/-- Entries by identity, oldest first. -/
abbrev Table (β : Type) := List (Id × β)

namespace Table

variable {β γ : Type}

/-- The entry of an identity. -/
def get? : Table β → Id → Option β
  | [], _ => none
  | e :: t, i => if e.1 = i then some e.2 else get? t i

/-- Whether an identity has an entry. -/
def has (t : Table β) (i : Id) : Bool := (get? t i).isSome

/-- The identities, oldest first. -/
def ids (t : Table β) : List Id := t.map (·.1)

/-- The entries without their identities. -/
def items (t : Table β) : List β := t.map (·.2)

/-- Add an entry at the end. -/
def push (t : Table β) (i : Id) (x : β) : Table β := t ++ [(i, x)]

/-- Change the entry of an identity, if it has one. -/
def update (t : Table β) (i : Id) (f : β → β) : Table β :=
  t.map fun e => if e.1 = i then (e.1, f e.2) else e

/-- Set the entry of an identity, in its old place if it had one. -/
def put (t : Table β) (i : Id) (x : β) : Table β :=
  if has t i then update t i fun _ => x else push t i x

theorem get?_append (t u : Table β) (j : Id) : get? (t ++ u) j = (get? t j).or (get? u j) := by
  induction t with
  | nil => rfl
  | cons e t ih =>
    simp only [List.cons_append, get?]
    split
    · rfl
    · exact ih

theorem get?_push (t : Table β) (i j : Id) (x : β) :
    get? (push t i x) j = (get? t j).or (if i = j then some x else none) :=
  get?_append t [(i, x)] j

theorem get?_update (t : Table β) (i j : Id) (f : β → β) :
    get? (update t i f) j = if i = j then (get? t j).map f else get? t j := by
  induction t with
  | nil => simp [update, get?]
  | cons e t ih =>
    simp only [update, List.map_cons] at ih ⊢
    by_cases he : e.1 = i <;> by_cases hj : e.1 = j <;> grind [get?]

@[simp] theorem ids_push (t : Table β) (i : Id) (x : β) : ids (push t i x) = ids t ++ [i] := by
  simp [ids, push]

@[simp] theorem ids_update (t : Table β) (i : Id) (f : β → β) : ids (update t i f) = ids t := by
  simp only [ids, update, List.map_map]
  apply List.map_congr_left
  intro e _
  simp only [Function.comp]
  split <;> rfl

end Table

end ConicModel
