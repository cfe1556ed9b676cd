/-
Data given to a model.

Whatever can be offered as a value, an operand or a shape is a `Datum`: single
atoms, sequences, arrays, sparse matrices, mappings, records, and the things that
a model is made of.  Elements taken out of an array keep the kind of the array.

A piece of data is told apart from another one like it by a serial number, which
it gets when it first appears (`number`), zero standing for none yet.  Setting an
entry changes a piece of data wherever it turns up, that is, everywhere its serial
number does (`replace`).  Truth values, small integers and a few more data exist
only once and are told apart by what they are (`identical`).

`ω` is what a thing looks like.  It is the thing itself in input, and its written
form in a message about the input.
-/
import ConicModel.Expr
import ConicModel.Kind
import ConicModel.NdArray
import ConicModel.Objective.Mixed
import ConicModel.Record

namespace ConicModel

/-- What can be offered to a model. -/
inductive Datum (α ω : Type) where
  | atom (serial : Nat) (a : Atom α)
  /-- An element taken out of an array. -/
  | element (serial : Nat) (kind : Kind) (a : Atom α)
  | list (serial : Nat) (xs : List (Datum α ω))
  | tuple (serial : Nat) (xs : List (Datum α ω))
  /-- An array, which is rigid if it keeps two dimensions in all operations. -/
  | array (serial : Nat) (rigid : Bool) (kind : Kind) (shape : List Nat) (cells : List (Datum α ω))
  /-- A sparse matrix of numbers, or of truth values stored as ones. -/
  | sparse (serial : Nat) (isTruth : Bool) (A : Coeffs α)
  /-- Values by integer keys, in the order in which the keys came. -/
  | mapping (serial : Nat) (keys : List Int) (values : List (Datum α ω))
  /-- A lowered constraint, whose objective can be anything. -/
  | record (serial : Nat) (objective : Datum α ω) (cone : Cone) (size : Int)
  | thing (serial : Nat) (o : ω)

/-- What a model is made of. -/
inductive Thing (α : Type) where
  | expr (e : Expr α)
  | constraint (c : Constraint α)
  | objective (o : MixedObjective α)

/-- What is offered to a model. -/
abbrev Input (α : Type) := Datum α (Thing α)

/-- The thing that a node is. -/
def Node.toInput {α : Type} : Node α → Input α
  | expr e => .thing 0 (.expr e)
  | constraint c => .thing 0 (.constraint c)

namespace Datum

variable {α ω : Type}

/-! ## Making data -/

/-- An integer. -/
def ofInt (n : Int) : Datum α ω := atom 0 (.int n)

/-- A truth value. -/
def ofBool (b : Bool) : Datum α ω := atom 0 (.bool b)

/-- An array of numbers as a datum. -/
def ofNumbers (a : Numeric NdArray α) : Datum α ω :=
  match a with
  | .real a => array 0 false .real a.shape (a.data.toList.map fun x => atom 0 (.real x))
  | .complex a => array 0 false .complex a.shape (a.data.toList.map fun z => atom 0 (.complex z))

/-- The only cell of an array without dimensions as a datum of its own. -/
def ofCell (kind : Kind) : Datum α ω → Datum α ω
  | atom s a => if kind = .loose then atom s a else element 0 kind a
  | d => d

/-- What an operation on arrays gives: an element where there are no dimensions. -/
def ofCells (rigid : Bool) (kind : Kind) (shape : List Nat) (cells : List (Datum α ω)) :
    Datum α ω :=
  match shape, cells with
  | [], [d] => ofCell kind d
  | _, _ => array 0 rigid kind shape cells

/-- The atom that a datum is; nothing for one that has parts. -/
def toAtom : Datum α ω → Atom α
  | atom _ a | element _ _ a => a
  | _ => .null

/-- Whether a datum is the element of an array or an array. -/
def isArray : Datum α ω → Bool
  | array .. | element .. => true
  | _ => false

/-- Whether a datum is an array that keeps two dimensions. -/
def isRigid : Datum α ω → Bool
  | array _ rigid _ _ _ => rigid
  | _ => false

mutual

/-- How deep a datum is nested. -/
def depth : Datum α ω → Nat
  | list _ xs | tuple _ xs | array _ _ _ _ xs | mapping _ _ xs => depthList xs + 1
  | record _ o _ _ => depth o + 1
  | _ => 1

/-- How deep the deepest member of a sequence is nested. -/
def depthList : List (Datum α ω) → Nat
  | [] => 0
  | d :: ds => max (depth d) (depthList ds)

end

/-! ## Identity -/

/-- The serial number of a datum. -/
def serial : Datum α ω → Nat
  | atom s _ | element s _ _ | list s _ | tuple s _ | array s _ _ _ _ | sparse s _ _
  | mapping s _ _ | record s _ _ _ | thing s _ => s

/-- Whether an integer exists only once. -/
def isSmall (n : Int) : Bool := decide (-5 ≤ n) && decide (n ≤ 256)

/-- Whether a text exists only once. -/
def isShort (s : String) : Bool :=
  match s.toList with
  | [] => true
  | [c] => decide (c.toNat < 256)
  | _ => false

/-- Whether two data exist only once and are the same. -/
def sameUnique : Input α → Input α → Bool
  | atom _ .null, atom _ .null => true
  | atom _ (.bool a), atom _ (.bool b) => a == b
  | atom _ (.int m), atom _ (.int n) => m == n && isSmall m
  | atom _ (.text s), atom _ (.text t) => s == t && isShort s
  | element _ .truth (.bool a), element _ .truth (.bool b) => a == b
  | tuple _ [], tuple _ [] => true
  | thing _ (.expr d), thing _ (.expr e) => d.id == e.id
  | thing _ (.constraint c), thing _ (.constraint d) => c.id == d.id
  | _, _ => false

/-- Whether two data are one and the same. -/
def identical (a b : Input α) : Bool :=
  sameUnique a b || (a.serial != 0 && a.serial == b.serial)

/-- The serial number of a datum, or the next one if it has none. -/
def nextSerial (s : Nat) : StateM Nat Nat := fun next =>
  if s = 0 then (next, next + 1) else (s, next)

mutual

/-- Give a serial number to whatever has none yet. -/
def number (d : Datum α ω) : StateM Nat (Datum α ω) :=
  match d with
  | atom s a => do pure (atom (← nextSerial s) a)
  | element s k a => do pure (element (← nextSerial s) k a)
  | list s xs => do
    if s = 0 then pure (list (← nextSerial s) (← numberList xs)) else pure (list s xs)
  | tuple s xs => do
    if s = 0 then pure (tuple (← nextSerial s) (← numberList xs)) else pure (tuple s xs)
  | array s r k shape xs => do
    if s ≠ 0 then pure (array s r k shape xs)
    else if k = .loose then pure (array (← nextSerial s) r k shape (← numberList xs))
    else pure (array (← nextSerial s) r k shape xs)
  | sparse s t A => do pure (sparse (← nextSerial s) t A)
  | mapping s ks vs => do
    if s = 0 then pure (mapping (← nextSerial s) ks (← numberList vs)) else pure (mapping s ks vs)
  | record s o c n => do
    if s = 0 then pure (record (← nextSerial s) (← number o) c n) else pure (record s o c n)
  | thing s o => do pure (thing (← nextSerial s) o)

/-- Give serial numbers to the members of a sequence. -/
def numberList (ds : List (Datum α ω)) : StateM Nat (List (Datum α ω)) :=
  match ds with
  | [] => pure []
  | d :: ds => do pure ((← number d) :: (← numberList ds))

end

mutual

/-- Put a datum in all places of the one with a given serial number. -/
def replace (d : Datum α ω) (k : Nat) (new : Datum α ω) : Datum α ω :=
  match d with
  | list s xs => if s = k then new else list s (replaceAll xs k new)
  | tuple s xs => tuple s (replaceAll xs k new)
  | array s r kind shape xs =>
    if s = k then new
    else if kind = .loose then array s r kind shape (replaceAll xs k new)
    else array s r kind shape xs
  | sparse s t A => if s = k then new else sparse s t A
  | mapping s ks vs => if s = k then new else mapping s ks (replaceAll vs k new)
  | record s o c n => record s (replace o k new) c n
  | thing s o => if s = k then new else thing s o
  | atom s a => atom s a
  | element s kind a => element s kind a

/-- Put a datum in all places inside the members of a sequence. -/
def replaceAll (ds : List (Datum α ω)) (k : Nat) (new : Datum α ω) : List (Datum α ω) :=
  match ds with
  | [] => []
  | d :: ds => replace d k new :: replaceAll ds k new

end

/-! ## Things inside -/

mutual

/-- Change every thing inside a datum. -/
def mapThings {ω' : Type} (f : ω → ω') : Datum α ω → Datum α ω'
  | atom s a => atom s a
  | element s k a => element s k a
  | list s xs => list s (mapThingsList f xs)
  | tuple s xs => tuple s (mapThingsList f xs)
  | array s r k shape xs => array s r k shape (mapThingsList f xs)
  | sparse s t A => sparse s t A
  | mapping s ks vs => mapping s ks (mapThingsList f vs)
  | record s o c n => record s (mapThings f o) c n
  | thing s o => thing s (f o)

/-- Change every thing inside the members of a sequence. -/
def mapThingsList {ω' : Type} (f : ω → ω') : List (Datum α ω) → List (Datum α ω')
  | [] => []
  | d :: ds => mapThings f d :: mapThingsList f ds

end

end Datum

/-- The keys of an objective; nothing else that a model is made of can be gone
through. -/
def Thing.members {α : Type} : Thing α → Option (List Int)
  | objective o => some o.keys
  | _ => none

end ConicModel
