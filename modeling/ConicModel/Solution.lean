/-
Laying variables out in a solution vector, and scattering one.

A layout gives each variable a place: the real parts of its entries in
column-major order and, for a complex variable, the imaginary parts after them.
`offsets` places variables one after the other, each once.

`loadSolution` first checks all it can check of a layout, and only then writes,
one variable after the other.  Other expressions can be laid out when they are
registered, but not written to.  What is written is assigned like any other value,
so an element that a variable does not accept stops the scattering there, with
the variables before it already written.
-/
import ConicModel.Model

namespace ConicModel

/-- Where a variable stands in a solution vector. -/
structure Slot where
  offset : Int
  width : Int
deriving DecidableEq

/-- The places of variables in a solution vector. -/
abbrev Layout := Table Slot

/-- A vector of elements, as an array is seen when it is flattened. -/
inductive Flat (α : Type) where
  | numbers (x : Numeric Array α)
  | texts (cells : List (Input α))
  | loose (cells : List (Input α))

namespace Flat

variable {α : Type}

/-- The elements of an array in order. -/
def ofView : ArrayView α → Flat α
  | .numbers a => numbers (match a with
      | .real a => .real a.data
      | .complex a => .complex a.data)
  | .texts g => texts g.cells
  | .loose g => loose g.cells

/-- A datum as a vector of elements. -/
def ofInput [Scalar α] (d : Input α) : Except (Fault α) (Flat α) :=
  match d.toArray with
  | some a => .ok (ofView a)
  | none => .error (.mishap .content)

/-- The number of elements. -/
def size : Flat α → Nat
  | numbers x => x.on Array.size
  | texts cs => cs.length
  | loose cs => cs.length

/-- The place that an index counts from: from the end if it is negative, and
never outside the vector. -/
def place (size : Nat) (i : Int) : Nat :=
  if i < 0 then (i + size).toNat else min i.toNat size

/-- The elements from one index up to another. -/
def slice (x : Flat α) (start stop : Int) : Flat α :=
  let a := place x.size start
  let b := place x.size stop
  match x with
  | numbers (.real xs) => numbers (.real (xs.extract a b))
  | numbers (.complex xs) => numbers (.complex (xs.extract a b))
  | texts cs => texts ((cs.drop a).take (b - a))
  | loose cs => loose ((cs.drop a).take (b - a))

/-- The elements of two parts in pairs; a part with one element goes with every
element of the other. -/
def pair {β γ : Type} : List β → List γ → Option (List (β × γ))
  | [x], ys => some (ys.map (x, ·))
  | xs, [y] => some (xs.map (·, y))
  | xs, ys => if xs.length = ys.length then some (xs.zip ys) else none

variable [Scalar α]

/-- Loose elements joined: the imaginary parts are multiplied by the unit first,
then the parts have to go together, and then the real parts are added. -/
def joinLoose (re im : List (Input α)) : Except Mishap (List (Cplx α)) := do
  let ws ← im.mapM fun d => (Cplx.I * ·) <$> d.toAtom.toNumber
  let ps ← (pair re ws).elim (.error .content) .ok
  ps.mapM fun p => (· + p.2) <$> p.1.toAtom.toNumber

/-- The complex elements whose real parts are the first `n` elements and whose
imaginary parts are the others. -/
def join (n : Nat) (x : Flat α) : Except Mishap (Flat α) :=
  match x with
  | numbers x =>
    let z : Array (Cplx α) := match x with
      | .real xs => xs.map Cplx.ofReal
      | .complex zs => zs
    match pair (z.toList.take n) (z.toList.drop n) with
    | some ps => .ok (numbers (.complex (ps.map fun p => p.1 + Cplx.I * p.2).toArray))
    | none => .error .content
  | texts _ => .error .elements
  | loose cs => do
    let zs ← joinLoose (cs.take n) (cs.drop n)
    pure (loose (zs.map fun z => .atom 0 (.complex z)))

/-- The first element as a datum. -/
def first : Flat α → Except Mishap (Input α)
  | numbers (.real xs) => (xs[0]?).elim (.error .place) fun x => .ok (.element 0 .real (.real x))
  | numbers (.complex zs) =>
    (zs[0]?).elim (.error .place) fun z => .ok (.element 0 .complex (.complex z))
  | texts cs => cs.head?.elim (.error .place) fun d => .ok (.element 0 .text d.toAtom)
  | loose cs => cs.head?.elim (.error .place) .ok

/-- Elements in column-major order as an array of two dimensions. -/
def arrange {R : Type} [Zero R] (r c : Nat) (xs : Array R) : NdArray R :=
  ⟨[r, c], (Dense.ofColumnMajor r c xs).data⟩

/-- The same for elements that are no numbers. -/
def arrangeCells (kind : Kind) (r c : Nat) (cells : List (Input α)) : Input α :=
  let cells := cells.toArray
  .array 0 false kind [r, c] ((List.range (r * c)).map fun k =>
    cells.getD (k / c + (k % c) * r) (.atom 0 .null))

/-- The elements as a value for a variable: a single one for a scalar variable,
otherwise a matrix filled column by column. -/
def toInput (x : Variable) (block : Flat α) : Except (Fault α) (Input α) :=
  if x.rows = 1 ∧ x.cols = 1 then
    match block.first with
    | .ok d => .ok d
    | .error m => .error (.mishap m)
  else if block.size ≠ x.rows * x.cols then .error (.mishap .content)
  else
    match block with
    | numbers (.real xs) => .ok (.ofNumbers (.real (arrange x.rows x.cols xs)))
    | numbers (.complex zs) => .ok (.ofNumbers (.complex (arrange x.rows x.cols zs)))
    | texts cs => .ok (arrangeCells .text x.rows x.cols cs)
    | loose cs => .ok (arrangeCells .loose x.rows x.cols cs)

end Flat

namespace Model

variable {α : Type}

/-- The expression that a registry holds under an identity.  A constraint has no
place in a solution vector. -/
def expression (m : Model α) (name : ContextName) (i : Id) : Except (Fault α) (Expr α) :=
  match m.find? name i with
  | some (.expr e) => .ok e
  | some (.constraint _) => .error (.mishap .feature)
  | none => .error (.unregistered i name)

/-- The places of variables laid out one after the other, an identity that comes
again being passed over. -/
def placeAll (m : Model α) (name : ContextName) :
    List Id → Layout → Int → Except (Fault α) Layout
  | [], l, _ => .ok l
  | i :: is, l, offset =>
    if l.has i then placeAll m name is l offset
    else do
      let e ← m.expression name i
      let width := e.width m.vars
      placeAll m name is (l.push i ⟨offset, width⟩) (offset + width)

/-- The layout of variables in a solution vector. -/
def offsets (m : Model α) (name : ContextName) (ids : List Id) : Except (Fault α) Layout :=
  m.placeAll name ids [] 0

/-- How long a vector has to be for a layout: the largest end of a place. -/
def needed (l : Layout) : Int :=
  match l.items.map fun s => s.offset + s.width with
  | [] => 0
  | e :: es => es.foldl max e

/-- The fault of a place that is not as wide as its variable. -/
def layoutFault (s : Slot) (i : Id) (width : Nat) : Fault α :=
  if Numeral.isWritable s.width then .layoutWidth (.ofInt s.width) i width else .unwritable

/-- The fault of a vector that is too short for a layout. -/
def lengthFault (found : Nat) (needed : Int) : Fault α :=
  if Numeral.isWritable needed then .solutionLength found (.ofInt needed) else .unwritable

/-- What a layout places, each as wide as its place. -/
def resolve (m : Model α) (name : ContextName) :
    Layout → Except (Fault α) (List (Expr α × Slot))
  | [] => .ok []
  | (i, s) :: l => do
    let e ← m.expression name i
    let width := e.width m.vars
    if s.width ≠ width then .error (layoutFault s i width)
    else (m.resolve name l).map ((e, s) :: ·)

variable [Scalar α]

/-- The block of a solution vector that belongs to an expression. -/
def blockOf (vars : Vars α) (solution : Flat α) (e : Expr α) (s : Slot) :
    Except (Fault α) (Flat α) :=
  let block := solution.slice s.offset (s.offset + s.width)
  if e.sign vars = .complex then
    match block.join e.length with
    | .ok z => .ok z
    | .error m => .error (.mishap m)
  else .ok block

/-- Write the block of one variable.  Nothing else can be written to. -/
def writeBlock (solution : Flat α) (p : Expr α × Slot) : Work α Unit :=
  Work.changeVars fun vars => do
    let block ← Make.ofExcept (·) (blockOf vars solution p.1 p.2)
    match p.1 with
    | .var x => vars.assign x (← Make.ofExcept (·) (block.toInput x))
    | _ => throw (.mishap .feature)

/-- Scatter a solution vector onto the variables of a registry. -/
def loadSolution (name : ContextName) (x : Input α) (l : Layout) : Work α Unit := do
  let solution ← Work.make fun _ => Make.ofExcept (·) (Flat.ofInput x)
  if (solution.size : Int) < needed l then
    throw (lengthFault solution.size (needed l))
  match (← get).resolve name l with
  | .error f => throw f
  | .ok places => places.forM (writeBlock solution)

end Model

end ConicModel
